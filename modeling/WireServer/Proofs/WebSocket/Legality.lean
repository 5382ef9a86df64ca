import WireServer.Proofs.WebSocket.RoundTrip

/-! Every frame that the parser takes stood on the wire, with the length form and the key that were
used there. So what is read from any input, whatever its bytes are, is a legal sequence of frames. -/

namespace WireServer.WebSocket

theorem Mask.strip_strip (mask : Option Mask) (bs : Bytes) :
    strip mask (strip mask bs) = bs := by
  cases mask with
  | none => rfl
  | some m => exact m.apply_apply bs

theorem MaskKey.toBytes_of_ofBytes? {bs : Bytes} {k : MaskKey} (h : ofBytes? bs = some k) :
    k.toBytes = bs := by
  unfold ofBytes? at h
  split at h
  · cases h
    rfl
  · cases h

/-- What holds of the bytes of the first 256 numbers holds of every byte. -/
theorem forall_byte {p : UInt8 → Prop} (h : ∀ n < 256, p (UInt8.ofNat n)) (b : UInt8) : p b := by
  have hb := h b.toNat b.toNat_lt
  rwa [UInt8.ofNat_toNat] at hb

/-- The second byte is its mask bit and its length code. -/
theorem length_byte_parts : ∀ c : UInt8, c =
    (if c &&& 0x80 != 0 then 0x80 else 0) ||| UInt8.ofNat (c &&& 0x7F).toNat :=
  forall_byte (by decide +kernel)

/-! ### Frames that the rules allow -/

/-- The first byte of an unfragmented frame without reserved bits, with another opcode. -/
theorem Flags.withOpcode_eq_new {flags : Flags} (hreserved : flags.reserved = 0) (hfin : flags.fin)
    (o : Opcode) : flags.withOpcode o = .new true o := by
  have hbits : ∀ b : UInt8, b &&& 0x70 = 0 → (b &&& 0x80 != 0) → b &&& 0xF0 = 0x80 :=
    forall_byte (by decide +kernel)
  rw [withOpcode, hbits flags.bits hreserved hfin]
  rfl

section Obeys

variable {rules : Rules} {o : Option Open} {f : Wire} {op : Opcode}

/-- A control frame with another opcode. -/
theorem Obeys.withOpcode (hf : Obeys rules o f) (hop : f.flags.opcode? = some op)
    (hc : op.isControl) (op' : Opcode) : f.flags.withOpcode op' = .new true op' :=
  Flags.withOpcode_eq_new hf.reserved (hf.control op hop hc).1 op'

/-- A data frame that the rules allow carries a message. -/
theorem Obeys.carries (hf : Obeys rules o f) (hop : f.flags.opcode? = some op)
    (hdata : op.isControl = false) :
    ∃ m, f.carried o = some m ∧ Carries o (f.received o).frame m := by
  cases op with
  | continuation =>
    obtain ⟨m, rfl⟩ := Option.isSome_iff_exists.1 (hf.continues hop)
    exact ⟨{ m with text := m.text ++ f.data }, by simp [Wire.carried, hop], .next m hop⟩
  | text =>
    obtain rfl := hf.begins (.inl hop)
    exact ⟨⟨.text, f.data⟩, by simp [Wire.carried, hop], .first .text hop⟩
  | binary =>
    obtain rfl := hf.begins (.inr hop)
    exact ⟨⟨.binary, f.data⟩, by simp [Wire.carried, hop], .first .binary hop⟩
  | close => cases hdata
  | ping => cases hdata
  | pong => cases hdata

end Obeys

namespace Parser

/-! ### One frame -/

section Sound

variable {p q : Parser} {src rest : Bytes}

theorem readPayload_sound {mask : Option Mask} (hp : p.parsed = 0)
    (h : (p.readPayload mask src).result = .ok (q, rest)) (hq : q.isComplete) :
    ∃ data, data.length = p.length ∧ src = Mask.strip mask data ++ rest := by
  simp only [readPayload, hp, Nat.sub_zero] at h
  split at h
  · cases h
  split at h
  · rename_i hfull
    refine ⟨Mask.strip mask (src.take p.length), ?_, ?_⟩
    · rw [Mask.length_strip]
      simpa [absorb, hp] using hfull
    · unfold finish at h
      split at h
      · cases h
      split at h
      · cases h
      cases h
      rw [Mask.strip_strip, List.take_append_drop]
  · cases h
    cases hq

theorem readKey_sound (hp : p.parsed = 0) (h : (p.readKey [] src).result = .ok (q, rest))
    (hq : q.isComplete) : ∃ k : MaskKey, ∃ data, data.length = p.length ∧
      src = k.toBytes ++ (Mask.strip (some ⟨k, 0⟩) data ++ rest) := by
  simp only [readKey, List.nil_append, List.length_nil, Nat.sub_zero] at h
  split at h
  · rename_i k hk
    obtain ⟨data, hlen, hdata⟩ := readPayload_sound hp h hq
    refine ⟨k, data, hlen, ?_⟩
    rw [← hdata, MaskKey.toBytes_of_ofBytes? hk, List.take_append_drop]
  · cases h
    cases hq

theorem lengthKnown_sound {masked : Bool} (hp : p.parsed = 0)
    (h : (p.lengthKnown masked src).result = .ok (q, rest)) (hq : q.isComplete) :
    ∃ key : Option MaskKey, ∃ data, key.isSome = masked ∧ data.length = p.length ∧
      src = (key.map MaskKey.toBytes).getD [] ++
        (Mask.strip (key.map (⟨·, 0⟩)) data ++ rest) := by
  unfold lengthKnown at h
  split at h
  · cases h
  split at h
  · rename_i hmasked
    obtain ⟨k, data, hlen, hsrc⟩ := readKey_sound hp h hq
    exact ⟨some k, data, hmasked.symm, hlen, hsrc⟩
  · rename_i hmasked
    obtain ⟨data, hlen, hsrc⟩ := readPayload_sound hp h hq
    exact ⟨none, data, by simpa using hmasked, hlen, hsrc⟩

theorem readExtended_sound {masked : Bool} {left : Nat} (hp : p.parsed = 0) (hl : p.length = 0)
    (h : (p.readExtended masked left src).result = .ok (q, rest)) (hq : q.isComplete) :
    ∃ key : Option MaskKey, ∃ data, key.isSome = masked ∧ data.length < 256 ^ left ∧
      src = Bytes.ofNatBE left data.length ++ ((key.map MaskKey.toBytes).getD [] ++
        (Mask.strip (key.map (⟨·, 0⟩)) data ++ rest)) := by
  simp only [readExtended] at h
  split at h
  · cases h
    cases hq
  rename_i hlong
  split at h
  · cases h
  obtain ⟨key, data, hkey, hlen, hsrc⟩ :=
    lengthKnown_sound (p := p.extend masked left (src.take left)) hp h hq
  have hfield : (src.take left).length = left := by
    rw [List.length_take] at hlong ⊢
    omega
  have hvalue : data.length = Bytes.toNatBE (src.take left) := by
    rw [hlen, extend, hl]
    rfl
  refine ⟨key, data, hkey, ?_, ?_⟩
  · have hlt := Bytes.toNatBE_lt (src.take left)
    rwa [hfield, ← hvalue] at hlt
  · have hwritten := Bytes.ofNatBE_toNatBE (src.take left)
    rw [hfield, ← hvalue] at hwritten
    rw [hwritten, ← hsrc, List.take_append_drop]

/-- The frame behind its first byte. -/
theorem readLength_sound {c : UInt8} (hp : p.parsed = 0)
    (h : (p.readLength c src).result = .ok (q, rest)) (hq : q.isComplete) (flags : Flags) :
    ∃ f : Wire, f.flags = flags ∧ f.flags.bits :: c :: src = f.bytes ++ rest := by
  have hbyte := length_byte_parts c
  simp only [readLength] at h
  split at h
  · cases h
  split at h
  · cases h
  split at h
  · rename_i hcode
    obtain ⟨key, data, hkey, hlen, hsrc⟩ := readExtended_sound (by exact hp) rfl h hq
    refine ⟨⟨flags, .medium, key, data, hlen⟩, rfl, ?_⟩
    rw [hcode, ← hkey] at hbyte
    simpa [Wire.bytes, Wire.lengthByte, Wire.keyBytes, Wire.body, Wire.mask, LengthForm.code,
      LengthForm.extension, hsrc] using hbyte
  split at h
  · rename_i hcode
    obtain ⟨key, data, hkey, hlen, hsrc⟩ := readExtended_sound (by exact hp) rfl h hq
    refine ⟨⟨flags, .long, key, data, hlen⟩, rfl, ?_⟩
    rw [hcode, ← hkey] at hbyte
    simpa [Wire.bytes, Wire.lengthByte, Wire.keyBytes, Wire.body, Wire.mask, LengthForm.code,
      LengthForm.extension, hsrc] using hbyte
  · rename_i h126 h127
    obtain ⟨key, data, hkey, hlen, hsrc⟩ := lengthKnown_sound (by exact hp) h hq
    have hcode : data.length = (c &&& 0x7F).toNat := hlen
    have hshort : (c &&& 0x7F).toNat < 128 := by
      have := Nat.and_le_right (n := c.toNat) (m := 127)
      simp
      omega
    refine ⟨⟨flags, .short, key, data, ?_⟩, rfl, ?_⟩
    · simp only [LengthForm.bound]
      omega
    · rw [← hcode, ← hkey] at hbyte
      simp [Wire.bytes, Wire.lengthByte, Wire.keyBytes, Wire.body, Wire.mask, LengthForm.code,
        LengthForm.extension, hsrc, ← hbyte]

/-- A frame that was taken stood on the wire. -/
theorem parse_sound (hphase : p.phase = .op) (hp : p.parsed = 0)
    (h : (p.parse src).result = .ok (q, rest)) (hq : q.isComplete) :
    ∃ f : Wire, src = f.bytes ++ rest := by
  cases src with
  | nil =>
    simp only [parse, hphase] at h
    cases h
    simp [isComplete, hphase] at hq
  | cons b src =>
    cases ho : p.readOp b with
    | error v =>
      simp only [parse, hphase, ho] at h
      cases h
    | ok p' =>
      obtain ⟨opcode, kind, rfl⟩ := readOp_eq ho
      cases src with
      | nil =>
        simp only [parse, hphase, ho] at h
        cases h
        cases hq
      | cons c src =>
        simp only [parse, hphase, ho] at h
        obtain ⟨f, hflags, hsrc⟩ := readLength_sound (by exact hp) h hq ⟨b⟩
        rw [hflags] at hsrc
        exact ⟨f, hsrc⟩

end Sound

/-! ### Any input -/

theorem known_of_legal {rules : Rules} {o : Option Open} {fs : List Wire} (h : Legal rules o fs) :
    ∀ r ∈ receivedAll o fs, r.flags.opcode?.isSome := by
  induction fs generalizing o with
  | nil => exact nofun
  | cons f fs ih =>
    rw [receivedAll, List.forall_mem_cons]
    exact ⟨h.1.known, ih h.2⟩

/-- Whatever the input is, the frames read from it are a legal sequence that stood on the wire. -/
theorem read_legal {rules : Rules} {o : Option Open} {p : Parser} (h : p.Follows rules o)
    (src : Bytes) : ∃ fs tail, src = stream fs ++ tail ∧ Legal rules o fs ∧
      (p.read src).verdict.1 = receivedAll o fs := by
  induction hn : src.length using Nat.strongRecOn generalizing o p src with
  | ind n ih =>
    have hs : p.Steady := by
      rw [Steady, h.phase]
      exact ⟨h.parsed, h.payload⟩
    have hc : p.isComplete = false := by simp [isComplete, h.phase]
    have hnone (hread : (p.read src).verdict.1 = []) : ∃ fs tail, src = stream fs ++ tail ∧
        Legal rules o fs ∧ (p.read src).verdict.1 = receivedAll o fs :=
      ⟨[], src, rfl, trivial, hread⟩
    have hread := verdict_read hs hc src
    rw [firstCall] at hread
    cases hp : (p.parse src).result with
    | error v => exact hnone (by rw [hread, hp])
    | ok out =>
      obtain ⟨q, rest⟩ := out
      by_cases hq : q.isComplete
      · obtain ⟨f, rfl⟩ := parse_sound h.phase h.parsed hp hq
        rcases parse_of_follows h f rest with ⟨v, hv, -⟩ | ⟨hf, q', hq', -, hreceived, hnext⟩
        · rw [hp] at hv
          cases hv
        rw [hp] at hq'
        cases hq'
        obtain ⟨fs, tail, hrest, hlegal, hfs⟩ := ih rest.length (by
          rw [← hn, Wire.bytes, List.length_append, List.length_cons]
          omega) hnext rest rfl
        refine ⟨f :: fs, tail, ?_, ⟨hf, hlegal⟩, ?_⟩
        · rw [stream, List.flatMap_cons, List.append_assoc, ← stream, ← hrest]
        · rw [hread, hp]
          simp only [hq, if_true, andThen]
          rw [hfs, hreceived]
          rfl
      · exact hnone (by rw [hread, hp]; simp [hq])

/-- The same for a fresh parser and chunks. -/
theorem readChunks_legal (rules : Rules) (chunks : List Bytes) :
    ∃ fs tail, chunks.flatten = stream fs ++ tail ∧ Legal rules none fs ∧
      (({ rules } : Parser).readChunks chunks).1 = receivedAll none fs := by
  obtain ⟨fs, tail, hsrc, hlegal, hfs⟩ := read_legal (Follows.fresh rules) chunks.flatten
  have hs : ({ rules } : Parser).Steady := ⟨rfl, rfl⟩
  exact ⟨fs, tail, hsrc, hlegal, by rw [readChunks_eq_read hs rfl, hfs]⟩

end Parser

end WireServer.WebSocket
