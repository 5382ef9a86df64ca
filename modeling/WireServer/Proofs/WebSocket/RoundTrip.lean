import WireServer.Proofs.WebSocket.Acceptance
import WireServer.WebSocket.Codec

/-! Frames written by one side are read back by the other. For any legal sequence of frames, in any
pieces, a server's codec reads what a client's codec wrote and the other way round, with nothing
left over. -/

namespace WireServer.Utf8

theorem Extensible.of_append {xs ys : Bytes} (h : Extensible (xs ++ ys)) : Extensible xs := by
  obtain ⟨tail, htail⟩ := h
  exact ⟨ys ++ tail, by rwa [← List.append_assoc]⟩

theorem WellFormed.extensible {bs : Bytes} (h : WellFormed bs) : Extensible bs :=
  ⟨[], by rwa [List.append_nil]⟩

end WireServer.Utf8

namespace WireServer.WebSocket

/-! ### Legal sequences of frames -/

/-- The message whose payload so far ends with the frame's. -/
inductive Carries : Option Open → Frame → Open → Prop
  | first {f : Frame} (kind : MessageKind) : f.flags.opcode? = some kind.opcode →
      Carries none f ⟨kind, f.payload⟩
  | next {f : Frame} (m : Open) : f.flags.opcode? = some .continuation →
      Carries (some m) f { m with text := m.text ++ f.payload }

/-- No reserved bits, and a payload within the limit, of a length that a header can say. -/
structure Frame.Plain (limit : Nat) (f : Frame) : Prop where
  reserved : f.flags.reserved = 0
  size : f.payload.length ≤ limit
  length : f.payload.length < 0x8000000000000000

/-- A sequence of frames that may follow where a message is open, or none. Text is judged message
by message, and where the sequence breaks off inside a message by what could still follow. -/
inductive LegalFrames (limit : Nat) : Option Open → List Frame → Prop
  | done (o : Option Open) : (∀ m, o = some m → m.kind = .text → Utf8.Extensible m.text) →
      LegalFrames limit o []
  | control {o : Option Open} {f : Frame} {fs : List Frame} (op : Opcode) :
      f.flags.opcode? = some op → op.isControl → f.flags.fin → f.payload.length ≤ 125 →
      (op = .close → 2 < f.payload.length → Utf8.WellFormed (f.payload.drop 2)) →
      f.Plain limit → LegalFrames limit o fs → LegalFrames limit o (f :: fs)
  | fragment {o : Option Open} {f : Frame} {fs : List Frame} (m : Open) : Carries o f m →
      f.flags.fin = false → f.Plain limit → LegalFrames limit (some m) fs →
      LegalFrames limit o (f :: fs)
  | last {o : Option Open} {f : Frame} {fs : List Frame} (m : Open) : Carries o f m →
      f.flags.fin → (m.kind = .text → Utf8.WellFormed m.text) → f.Plain limit →
      LegalFrames limit none fs → LegalFrames limit o (f :: fs)

/-- A message whose text turns out well could always go on. -/
theorem LegalFrames.extensible {limit : Nat} {o : Option Open} {fs : List Frame}
    (h : LegalFrames limit o fs) : ∀ m, o = some m → m.kind = .text → Utf8.Extensible m.text := by
  induction h with
  | done o ho => exact ho
  | control op _ _ _ _ _ _ _ ih => exact ih
  | fragment m hm _ _ _ ih =>
    rintro m' rfl ht
    cases hm with
    | next => exact (ih _ rfl ht).of_append
  | last m hm _ hwell _ _ _ =>
    rintro m' rfl ht
    cases hm with
    | next => exact (hwell ht).extensible.of_append

/-! ### Frames on the wire -/

/-- The first form that holds a length. -/
def LengthForm.shortest (n : Nat) : LengthForm :=
  if n ≤ 125 then .short else if n ≤ 0xFFFF then .medium else .long

theorem LengthForm.lt_bound_shortest {n : Nat} (h : n < 0x8000000000000000) :
    n < (shortest n).bound := by
  unfold shortest
  split
  · simp only [bound]
    omega
  · split <;> simp only [bound] <;> omega

/-- The frame as either side writes it. -/
def Frame.masked (f : Frame) (key : Option MaskKey) (h : f.payload.length < 0x8000000000000000) :
    Wire where
  flags := f.flags
  form := .shortest f.payload.length
  key := key
  data := f.payload
  fits := LengthForm.lt_bound_shortest h

/-- The key that a side masks with. -/
def Role.key? : Role → Option MaskKey
  | .server => none
  | .client key => some key

theorem lengthField_eq (masked : Bool) (n : Nat) : Header.lengthField masked n =
    ((if masked then 0x80 else 0) ||| UInt8.ofNat ((LengthForm.shortest n).code n)) ::
      (LengthForm.shortest n).extension n := by
  unfold Header.lengthField LengthForm.shortest
  by_cases hshort : n ≤ 125
  · simp [hshort, LengthForm.code, LengthForm.extension]
  · by_cases hmedium : n ≤ 0xFFFF
    · simp [hshort, hmedium, LengthForm.code, LengthForm.extension]
    · simp [hshort, hmedium, LengthForm.code, LengthForm.extension]

theorem Codec.encode_eq (c : Codec) (f : Frame) (h : f.payload.length < 0x8000000000000000) :
    c.encode f = (f.masked c.role.key? h).bytes := by
  obtain ⟨_ | key, p⟩ := c
  all_goals
    simp only [encode, Header.server, Header.encode, lengthField_eq, Wire.bytes, Frame.masked,
      Role.key?, Wire.lengthByte, Wire.keyBytes, Wire.body, Wire.mask]
    simp [Mask.strip, MaskKey.apply]

theorem Wire.after_of_carried {f : Wire} {o : Option Open} {m : Open} (h : f.carried o = some m) :
    f.after o = if f.flags.fin then none else some m := by
  rw [after, h]

theorem Wire.after_of_carried_none {f : Wire} {o : Option Open} (h : f.carried o = none) :
    f.after o = o := by
  rw [after, h]

/-! ### The rules, frame by frame -/

section Obeys

variable {limit : Nat} {o : Option Open} {f : Frame} {rules : Rules}

theorem carried_masked (hlen : f.payload.length < 0x8000000000000000) (key : Option MaskKey)
    {m : Open} (hm : Carries o f m) : (f.masked key hlen).carried o = some m := by
  cases hm with
  | first kind hop => cases kind <;> simp [Wire.carried, Frame.masked, hop, MessageKind.opcode]
  | next m hop => simp [Wire.carried, Frame.masked, hop]

theorem carried_masked_control (hlen : f.payload.length < 0x8000000000000000)
    (key : Option MaskKey) {op : Opcode} (hop : f.flags.opcode? = some op) (hc : op.isControl) :
    (f.masked key hlen).carried o = none :=
  Parser.carried_of_control hop hc

/-- A control frame is allowed anywhere. -/
theorem obeys_control {op : Opcode} (hop : f.flags.opcode? = some op) (hc : op.isControl)
    (hfin : f.flags.fin) (hshort : f.payload.length ≤ 125)
    (hreason : op = .close → 2 < f.payload.length → Utf8.WellFormed (f.payload.drop 2))
    (hf : f.Plain rules.maxPayload) {key : Option MaskKey}
    (hkey : rules.requireMask → key.isSome) : Obeys rules o (f.masked key hf.length) := by
  have hnone := carried_masked_control (o := o) hf.length key hop hc
  refine ⟨hf.reserved, ?_, fun _ _ _ => ⟨hfin, if_pos hshort⟩, ?_, ?_, hkey, hf.length, hf.size,
    ?_, ?_⟩
  · simp [Frame.masked, hop]
  · rintro (h | h) <;> cases hop.symm.trans h <;> cases hc
  · intro h
    cases hop.symm.trans h
    cases hc
  · simp [hnone]
  · intro h
    cases hop.symm.trans h
    exact hreason rfl

/-- A data frame is allowed where it carries a message on or begins one. -/
theorem obeys_data {m : Open} (hm : Carries o f m)
    (htext : m.kind = .text → Utf8.Extensible m.text ∧ (f.flags.fin → Utf8.WellFormed m.text))
    (hf : f.Plain rules.maxPayload) {key : Option MaskKey}
    (hkey : rules.requireMask → key.isSome) : Obeys rules o (f.masked key hf.length) := by
  have hcarried := carried_masked hf.length key hm
  have hop : ∃ op, f.flags.opcode? = some op ∧ op.isControl = false := by
    cases hm with
    | first kind hop => exact ⟨_, hop, by cases kind <;> rfl⟩
    | next m hop => exact ⟨_, hop, rfl⟩
  obtain ⟨op, hop, hdata⟩ := hop
  refine ⟨hf.reserved, ?_, fun op' hop' hc => ?_, fun h => ?_, fun h => ?_, hkey, hf.length,
    hf.size, ?_, fun h => ?_⟩
  · simp [Frame.masked, hop]
  · cases hop.symm.trans hop'
    simp [hdata] at hc
  · cases hm with
    | first kind _ => rfl
    | next m hnext => rcases h with h | h <;> cases hnext.symm.trans h
  · cases hm with
    | first kind hfirst => cases kind <;> cases hfirst.symm.trans h
    | next m _ => rfl
  · intro m' hm' ht
    rw [hcarried] at hm'
    cases hm'
    exact htext ht
  · cases hop.symm.trans h
    cases hdata

end Obeys

/-! ### Reading back -/

/-- A frame that came in, for the owner of a codec. -/
def Parser.Received.frame (r : Parser.Received) : Frame := ⟨r.flags, r.payload⟩

namespace Codec

/-- Takes in pieces one after another: of each, with what was left of those before, the complete
frames. -/
def decodeChunks (c : Codec) (left : Bytes) :
    List Bytes → Codec × Bytes × List Frame × Option Violation
  | [] => (c, left, [], none)
  | chunk :: chunks =>
    match c.decodeAll (left ++ chunk) with
    | (c, left, frames, some v) => (c, left, frames, some v)
    | (c, left, frames, none) =>
      let (c, left, more, v) := decodeChunks c left chunks
      (c, left, frames ++ more, v)

open WireServer.WebSocket.Parser

/-- What the parser reads without a violation, the codec decodes. -/
theorem decodeFrames_of_read {role : Role} {p q : Parser} {src : Bytes} {rs : List Received}
    (hs : p.Steady) (hc : p.isComplete = false) (h : (p.read src).verdict = (rs, .ok q)) {n : Nat}
    (hn : src.length < n) (frames : List Frame) :
    decodeFrames n ⟨role, p⟩ src frames =
      (⟨role, q⟩, [], frames.reverse ++ rs.map Received.frame, none) := by
  induction n generalizing p src rs frames with
  | zero => exact absurd hn (Nat.not_lt_zero _)
  | succ n ih =>
    cases src with
    | nil =>
      rw [read_nil] at h
      cases h
      simp [decodeFrames, decode, parse_nil hs, hc]
    | cons b bs =>
      rw [verdict_read hs hc, firstCall] at h
      rcases hp : p.parse (b :: bs) with ⟨p', v | rest⟩
      · rw [hp] at h
        cases h
      have hleaves := parse_leaves hs hc (by rw [hp, result_ok])
      rw [hp, result_ok] at h
      by_cases hp' : p'.isComplete
      · simp only [hp', if_true, andThen] at h
        obtain ⟨hfst, hsnd⟩ := Prod.mk.inj h
        have hrest : (p'.reset.read rest).verdict = ((p'.reset.read rest).verdict.1, .ok q) :=
          Prod.ext rfl hsnd
        have hshorter := hleaves.length_le
        rw [List.length_cons] at hn
        rw [← hfst]
        simp only [decodeFrames, decode, hp, hp', if_true]
        rw [ih (steady_reset p') rfl hrest (by omega)]
        simp [Received.frame, received]
      · have hp' : p'.isComplete = false := by simpa using hp'
        simp only [hp', Bool.false_eq_true, if_false] at h
        cases h
        simp [decodeFrames, decode, hp, hp', hleaves.empty hp']

/-- However the input is cut, the codec keeps no piece of it back. -/
theorem decodeChunks_of_read {role : Role} {p q : Parser} {chunks : List Bytes}
    {rs : List Received} (hs : p.Steady) (hc : p.isComplete = false)
    (h : (p.read chunks.flatten).verdict = (rs, .ok q)) :
    decodeChunks ⟨role, p⟩ [] chunks = (⟨role, q⟩, [], rs.map Received.frame, none) := by
  induction chunks generalizing p rs with
  | nil =>
    rw [List.flatten_nil, read_nil] at h
    cases h
    rfl
  | cons chunk chunks ih =>
    rw [List.flatten_cons, verdict_read_append hs hc] at h
    rcases hr : (p.read chunk).verdict with ⟨first, v | p'⟩
    · rw [hr] at h
      cases h
    · rw [hr, andThen] at h
      obtain ⟨hs', hc'⟩ := read_steady hs hc (congrArg Prod.snd hr)
      obtain ⟨hfst, hsnd⟩ := Prod.mk.inj h
      have hrest : (p'.read chunks.flatten).verdict =
          ((p'.read chunks.flatten).verdict.1, .ok q) := Prod.ext rfl hsnd
      rw [← hfst]
      simp only [decodeChunks, decodeAll, List.nil_append]
      rw [decodeFrames_of_read hs hc hr (Nat.lt_succ_self _)]
      simp only [ih hs' hc' hrest]
      simp

end Codec

section Streams

variable {rules : Rules} {o : Option Open} {p : Parser}

/-- What a parser makes of all frames of a stream. -/
def Parser.ReadsAs (p : Parser) (src : Bytes) (fs : List Frame) : Prop :=
  ∃ rs q, (p.read src).verdict = (rs, .ok q) ∧ rs.map Parser.Received.frame = fs ∧ q.phase = .op

/-- One frame that obeys the rules, in front of others. -/
theorem Parser.Follows.readsAs_cons (h : p.Follows rules o) {f : Frame}
    (hlen : f.payload.length < 0x8000000000000000) {key : Option MaskKey}
    (hf : Obeys rules o (f.masked key hlen)) {rest : Bytes} {fs : List Frame}
    (hrest : ∀ q : Parser, q.Follows rules ((f.masked key hlen).after o) → q.ReadsAs rest fs) :
    p.ReadsAs ((f.masked key hlen).bytes ++ rest) (f :: fs) := by
  have hs : p.Steady := by
    rw [Steady, h.phase]
    exact ⟨h.parsed, h.payload⟩
  have hc : p.isComplete = false := by simp [isComplete, h.phase]
  rcases parse_of_follows h (f.masked key hlen) rest with
    ⟨v, -, hbad⟩ | ⟨-, q, hq, hqc, hqr, hnext⟩
  · exact absurd hbad.1 (obeys_iff.1 hf v)
  · obtain ⟨rs, q', hr, hmap, hphase⟩ := hrest _ hnext
    refine ⟨q.received :: rs, q', ?_, ?_, hphase⟩
    · rw [verdict_read hs hc, firstCall, hq]
      simp [hqc, hr, andThen]
    · rw [List.map_cons, hmap, hqr]
      rfl

/-- Every legal sequence of frames is read back from where it may follow. -/
theorem LegalFrames.readsAs {fs : List Frame} (h : LegalFrames rules.maxPayload o fs)
    {key : Option MaskKey} (hkey : rules.requireMask → key.isSome) {wire : Frame → Bytes}
    (hwire : ∀ f ∈ fs, ∀ hlen, wire f = (f.masked key hlen).bytes) (hp : p.Follows rules o) :
    p.ReadsAs (fs.flatMap wire) fs := by
  induction h generalizing p with
  | done o _ => exact ⟨[], p, Parser.read_nil p, rfl, hp.phase⟩
  | @control o f fs op hop hc hfin hshort hreason hf _ ih =>
    rw [List.flatMap_cons, hwire _ List.mem_cons_self hf.length]
    have hafter := Wire.after_of_carried_none (o := o)
      (carried_masked_control hf.length key hop hc)
    refine hp.readsAs_cons hf.length (obeys_control hop hc hfin hshort hreason hf hkey)
      fun q hq => ih (fun g hg => hwire g (List.mem_cons_of_mem _ hg)) (hafter ▸ hq)
  | @fragment o f fs m hm hfin hf hfs ih =>
    rw [List.flatMap_cons, hwire _ List.mem_cons_self hf.length]
    have htext (ht : m.kind = .text) :
        Utf8.Extensible m.text ∧ (f.flags.fin → Utf8.WellFormed m.text) :=
      ⟨hfs.extensible m rfl ht, fun h => absurd h (by simp [hfin])⟩
    have hafter := Wire.after_of_carried (carried_masked hf.length key hm)
    refine hp.readsAs_cons hf.length (obeys_data hm htext hf hkey)
      fun q hq => ih (fun g hg => hwire g (List.mem_cons_of_mem _ hg)) ?_
    rwa [hafter, Frame.masked, if_neg (by simp [hfin])] at hq
  | last m hm hfin hwell hf _ ih =>
    rw [List.flatMap_cons, hwire _ List.mem_cons_self hf.length]
    have hafter := Wire.after_of_carried (carried_masked hf.length key hm)
    refine hp.readsAs_cons hf.length
      (obeys_data hm (fun ht => ⟨(hwell ht).extensible, fun _ => hwell ht⟩) hf hkey)
      fun q hq => ih (fun g hg => hwire g (List.mem_cons_of_mem _ hg)) ?_
    rwa [hafter, Frame.masked, if_pos hfin] at hq

/-- The reader expects a mask where the writer masks. -/
theorem LegalFrames.decodeChunks {limit limit' : Nat} {fs : List Frame}
    (h : LegalFrames limit none fs) (writer reader : Role)
    (hmask : reader = .server → writer.key?.isSome) {chunks : List Bytes}
    (hchunks : chunks.flatten = fs.flatMap (Codec.new writer limit').encode) :
    ∃ c, (Codec.new reader limit).decodeChunks [] chunks = (c, [], fs, none) ∧
      c.parser.phase = .op := by
  have hwire : ∀ f ∈ fs, ∀ hlen,
      (Codec.new writer limit').encode f = (f.masked writer.key? hlen).bytes :=
    fun f _ hlen => Codec.encode_eq _ f hlen
  have hread : ({ rules := ⟨limit, reader = .server⟩ } : Parser).ReadsAs
      (fs.flatMap (Codec.new writer limit').encode) fs :=
    h.readsAs (fun hr => hmask (by simpa using hr)) hwire (Parser.Follows.fresh _)
  obtain ⟨rs, q, hq, hmap, hphase⟩ := hread
  rw [← hchunks] at hq
  exact ⟨⟨reader, q⟩, by rw [← hmap]; exact Codec.decodeChunks_of_read ⟨rfl, rfl⟩ rfl hq, hphase⟩

end Streams

/-- What either side writes, the other reads, however it is cut: the same frames, with no byte left
over and no frame begun. -/
theorem Codec.decode_encode (limit limit' : Nat) (fs : List Frame) (h : LegalFrames limit none fs)
    (key : MaskKey) (chunks : List Bytes) :
    (chunks.flatten = fs.flatMap (Codec.new (.client key) limit').encode →
      ∃ c, (Codec.new .server limit).decodeChunks [] chunks = (c, [], fs, none) ∧
        c.parser.phase = .op) ∧
    (chunks.flatten = fs.flatMap (Codec.new .server limit').encode → ∀ key',
      ∃ c, (Codec.new (.client key') limit).decodeChunks [] chunks = (c, [], fs, none) ∧
        c.parser.phase = .op) :=
  ⟨h.decodeChunks (.client key) .server fun _ => rfl,
    fun hchunks key' => h.decodeChunks .server (.client key') nofun hchunks⟩

/-- A letter cut between two frames, a ping in between, and a close with its reason. -/
theorem legalFrames_cut_letter : LegalFrames 125 none
    [⟨⟨0x01⟩, [0xC3]⟩, ⟨⟨0x89⟩, [7]⟩, ⟨⟨0x80⟩, [0xA9]⟩, ⟨⟨0x88⟩, [3, 0xE8, 0x6F, 0x6B]⟩] := by
  have hletter : Utf8.WellFormed [0xC3, 0xA9] := (Utf8.valid_iff _).1 (by decide)
  have hreason : Utf8.WellFormed [0x6F, 0x6B] := (Utf8.valid_iff _).1 (by decide)
  refine .fragment ⟨.text, [0xC3]⟩ (.first .text (by decide)) (by decide)
    ⟨by decide, by decide, by decide⟩ ?_
  refine .control .ping (by decide) (by decide) (by decide) (by decide) nofun
    ⟨by decide, by decide, by decide⟩ ?_
  refine .last ⟨.text, [0xC3, 0xA9]⟩ (.next ⟨.text, [0xC3]⟩ (by decide)) (by decide)
    (fun _ => hletter) ⟨by decide, by decide, by decide⟩ ?_
  exact .control .close (by decide) (by decide) (by decide) (by decide) (fun _ _ => hreason)
    ⟨by decide, by decide, by decide⟩ (.done none nofun)

theorem Codec.decode_encode_cut_letter :
    LegalFrames 125 none
      [⟨⟨0x01⟩, [0xC3]⟩, ⟨⟨0x89⟩, [7]⟩, ⟨⟨0x80⟩, [0xA9]⟩, ⟨⟨0x88⟩, [3, 0xE8, 0x6F, 0x6B]⟩] ∧
    (∃ c, (Codec.new .server 125).decodeChunks []
        [[1, 0x81, 1, 2, 3], [4, 0xC2, 0x89, 0x81, 1, 2, 3, 4, 6], [],
          [0x80, 0x81, 1, 2, 3, 4, 0xA8, 0x88, 0x84, 1, 2, 3, 4, 2, 0xEA, 0x6C, 0x6F]] =
        (c, [], [⟨⟨0x01⟩, [0xC3]⟩, ⟨⟨0x89⟩, [7]⟩, ⟨⟨0x80⟩, [0xA9]⟩,
          ⟨⟨0x88⟩, [3, 0xE8, 0x6F, 0x6B]⟩], none) ∧ c.parser.phase = .op) ∧
    (∃ c, (Codec.new (.client ⟨9, 9, 9, 9⟩) 125).decodeChunks []
        [[1], [1, 0xC3, 0x89, 1, 7, 0x80, 1], [0xA9, 0x88, 4, 3, 0xE8, 0x6F, 0x6B]] =
        (c, [], [⟨⟨0x01⟩, [0xC3]⟩, ⟨⟨0x89⟩, [7]⟩, ⟨⟨0x80⟩, [0xA9]⟩,
          ⟨⟨0x88⟩, [3, 0xE8, 0x6F, 0x6B]⟩], none) ∧ c.parser.phase = .op) :=
  ⟨legalFrames_cut_letter,
    (Codec.decode_encode 125 0 _ legalFrames_cut_letter ⟨1, 2, 3, 4⟩ _).1 (by decide),
    (Codec.decode_encode 125 0 _ legalFrames_cut_letter ⟨1, 2, 3, 4⟩ _).2 (by decide) _⟩

end WireServer.WebSocket
