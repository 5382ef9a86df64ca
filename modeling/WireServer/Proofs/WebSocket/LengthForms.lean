import WireServer.Proofs.WebSocket.HeaderBytes

/-! The forms of a length that the parser reads. There are several for the shorter lengths, and the
one that a header has is the shortest. -/

namespace WireServer.WebSocket

/-- The length of the frame is behind. -/
def Phase.isPastLength : Phase → Bool
  | .maskingKey _ | .payload _ | .complete => true
  | .op | .len | .extended _ _ => false

namespace Parser

variable {p : Parser} {n : Nat}

/-- A call that used up its input and waits for more of the length. -/
def Outcome.Waits (o : Outcome) : Prop := o.2 = .ok [] ∧ o.1.phase.isPastLength = false

/-- A call in which the length came in, whether it may be that long or not. -/
def Outcome.Measures (o : Outcome) (n : Nat) : Prop :=
  o.1.length = n ∧
    match o.2 with
    | .ok _ => o.1.phase.isPastLength = true
    | .error v => v ≠ .unmasked ∧ v ≠ .controlTooLong

/-- The bytes are a form of the length: it comes in with the last of them. -/
def ReadsLength (p : Parser) (bs : Bytes) (n : Nat) : Prop :=
  (p.parse bs.dropLast).Waits ∧ (p.parse bs).Measures n

theorem Outcome.Measures.not_waits {o : Outcome} (h : o.Measures n) : ¬ o.Waits := by
  obtain ⟨q, result⟩ := o
  rintro ⟨rfl, hphase⟩
  exact Bool.false_ne_true (hphase.symm.trans h.2)

/-! ### Behind the length -/

theorem finish_measures (p : Parser) (rest : Bytes) : (p.finish rest).Measures p.length := by
  unfold finish
  split
  · exact ⟨rfl, nofun, nofun⟩
  · split
    · exact ⟨rfl, nofun, nofun⟩
    · exact ⟨rfl, rfl⟩

theorem readPayload_measures (p : Parser) (mask : Option Mask) (src : Bytes) :
    (p.readPayload mask src).Measures p.length := by
  unfold readPayload
  dsimp only
  split
  · exact ⟨rfl, nofun, nofun⟩
  · split
    · exact finish_measures _ _
    · exact ⟨rfl, rfl⟩

theorem readKey_measures (p : Parser) (got src : Bytes) :
    (p.readKey got src).Measures p.length := by
  unfold readKey
  dsimp only
  split
  · exact readPayload_measures p _ _
  · exact ⟨rfl, rfl⟩

theorem lengthKnown_measures (p : Parser) (masked : Bool) (src : Bytes) :
    (p.lengthKnown masked src).Measures p.length := by
  unfold lengthKnown
  split
  · exact ⟨rfl, nofun, nofun⟩
  · split
    · exact readKey_measures p _ _
    · exact readPayload_measures p _ _

/-! ### The length -/

theorem readExtended_waits (p : Parser) (masked : Bool) {left : Nat} {src : Bytes}
    (h : src.length < left) : (p.readExtended masked left src).Waits := by
  rw [readExtended_of_lt p masked h]
  exact ⟨rfl, rfl⟩

theorem readExtended_measures (hlength : p.length = 0) (masked : Bool) {left : Nat} {src : Bytes}
    (h : left ≤ src.length) :
    (p.readExtended masked left src).Measures (Bytes.toNatBE (src.take left)) := by
  have hfull : ¬ (src.take left).length < left := by
    rw [List.length_take_of_le h]
    exact Nat.lt_irrefl left
  have hvalue : (p.extend masked left (src.take left)).length = Bytes.toNatBE (src.take left) := by
    rw [extend, hlength, Bytes.toNatBE]
  simp only [readExtended, if_neg hfull]
  split
  · exact ⟨hvalue, by simp, by simp⟩
  · rw [← hvalue]
    exact lengthKnown_measures _ _ _

theorem parse_len (hphase : p.phase = .len) (b : UInt8) (src : Bytes) :
    p.parse (b :: src) = p.readLength b src := by
  simp only [parse, hphase]

/-- Behind the mask and the checks of a control frame the code says how the length is written. -/
theorem readLength_cases (p : Parser) (b : UInt8) (src : Bytes) :
    (∃ q v, p.readLength b src = (q, .error v) ∧ (v = .unmasked ∨ v = .controlTooLong)) ∨
    ∃ masked,
      ((b &&& 0x7F).toNat = 126 ∧ p.readLength b src =
        { p with phase := .len, length := 0 }.readExtended masked 2 src) ∨
      ((b &&& 0x7F).toNat = 127 ∧ p.readLength b src =
        { p with phase := .len, length := 0 }.readExtended masked 8 src) ∨
      ((b &&& 0x7F).toNat ≤ 125 ∧ p.readLength b src =
        { p with phase := .len, length := (b &&& 0x7F).toNat }.lengthKnown masked src) := by
  simp only [readLength]
  split
  · exact .inl ⟨_, _, rfl, .inl rfl⟩
  split
  · exact .inl ⟨_, _, rfl, .inr rfl⟩
  refine .inr ⟨b &&& 0x80 != 0, ?_⟩
  have hcode : (b &&& 0x7F).toNat < 128 := by
    rw [UInt8.toNat_and]
    exact Nat.lt_succ_of_le Nat.and_le_right
  by_cases h126 : (b &&& 0x7F).toNat = 126
  · exact .inl ⟨h126, if_pos h126⟩
  by_cases h127 : (b &&& 0x7F).toNat = 127
  · exact .inr (.inl ⟨h127, (if_neg h126).trans (if_pos h127)⟩)
  · exact .inr (.inr ⟨by omega, (if_neg h126).trans (if_neg h127)⟩)

theorem parse_nil_waits (hphase : p.phase = .len) : (p.parse []).Waits := by
  have hnil : p.parse [] = (p, .ok []) := by simp only [parse, hphase]
  rw [hnil]
  exact ⟨rfl, by rw [hphase]; rfl⟩

/-- An extended length takes all of its bytes, and is what they spell. -/
theorem Outcome.Measures.of_extended {masked : Bool} {left : Nat} {src : Bytes}
    (h : ({ p with phase := .len, length := 0 }.readExtended masked left src).Measures n) :
    left ≤ src.length ∧ n < 256 ^ left := by
  have hleft : left ≤ src.length :=
    Nat.le_of_not_lt fun hshort => h.not_waits (readExtended_waits _ masked hshort)
  have hvalue := (readExtended_measures (p := { p with phase := .len, length := 0 }) rfl masked
    hleft).1
  have hbound := Bytes.toNatBE_lt (src.take left)
  rw [List.length_take_of_le hleft, ← hvalue, h.1] at hbound
  exact ⟨hleft, hbound⟩

/-- No bytes that are read as the length are fewer than those of a header. -/
theorem Outcome.Measures.length_le (hphase : p.phase = .len) {bs : Bytes}
    (h : (p.parse bs).Measures n) (masked : Bool) :
    (Header.lengthField masked n).length ≤ bs.length := by
  cases bs with
  | nil => exact absurd (parse_nil_waits hphase) h.not_waits
  | cons b ext =>
    have hlength := Header.length_lengthField masked n
    rw [parse_len hphase] at h
    rw [List.length_cons]
    obtain ⟨q, v, hfail, hv⟩ | ⟨masked', ⟨-, hread⟩ | ⟨-, hread⟩ | ⟨hcode, hread⟩⟩ :=
      readLength_cases p b ext
    · rw [hfail] at h
      exact (hv.elim h.2.1 h.2.2).elim
    · rw [hread] at h
      obtain ⟨hleft, hbound⟩ := h.of_extended
      rw [hlength]
      split
      · omega
      · rw [if_pos (by omega)]
        omega
    · rw [hread] at h
      obtain ⟨hleft, -⟩ := h.of_extended
      have := Header.length_lengthField_le masked n
      omega
    · rw [hread] at h
      have hvalue : (b &&& 0x7F).toNat = n :=
        (lengthKnown_measures _ masked' ext).1.symm.trans h.1
      rw [hlength, if_pos (by omega)]
      exact Nat.le_add_left 1 _

/-- The second byte of a header, where its mask bit and its code are taken. -/
theorem readLength_of_taken {masked : Bool} {code : Nat} (hcode : code < 128)
    (hmasked : p.rules.requireMask = true → masked = true)
    (hcontrol : p.opcode.isControl = true → code ≤ 125) (src : Bytes) :
    p.readLength ((if masked then 0x80 else 0) ||| UInt8.ofNat code) src =
      if code = 126 then { p with phase := .len, length := 0 }.readExtended masked 2 src
      else if code = 127 then { p with phase := .len, length := 0 }.readExtended masked 8 src
      else { p with phase := .len, length := code }.lengthKnown masked src := by
  obtain ⟨hbit, hlow⟩ := masked_length_byte masked code hcode
  have htaken : ¬ (!masked && p.rules.requireMask) = true := by
    cases masked
    · simpa using hmasked
    · simp
  have hshort : ¬ (p.opcode.isControl && decide (code > 125)) = true := by
    simpa using hcontrol
  simp only [readLength, hbit, hlow, if_neg htaken, if_neg hshort]

/-- An extended length, and all but its last byte. -/
theorem readsLength_extended {p : Parser} {masked : Bool} {width : Nat} (hwidth : 0 < width)
    (hn : n < 256 ^ width) (hphase : p.phase = .len) {b : UInt8}
    (hread : ∀ src, p.readLength b src =
      { p with phase := .len, length := 0 }.readExtended masked width src) :
    p.ReadsLength (b :: Bytes.ofNatBE width n) n := by
  have hlength := Bytes.length_ofNatBE width n
  obtain ⟨c, cs, hext⟩ : ∃ c cs, Bytes.ofNatBE width n = c :: cs :=
    List.exists_cons_of_length_pos (by omega)
  constructor
  · rw [hext, List.dropLast_cons_cons, parse_len hphase, hread, ← hext]
    exact readExtended_waits _ masked (by rw [List.length_dropLast]; omega)
  · have hmeasures := readExtended_measures (p := { p with phase := .len, length := 0 }) rfl masked
      (Nat.le_of_eq hlength.symm)
    rw [List.take_of_length_le (Nat.le_of_eq hlength), Bytes.toNatBE_ofNatBE,
      Nat.mod_eq_of_lt hn] at hmeasures
    rw [parse_len hphase, hread]
    exact hmeasures

/-- The length of a header is one that the parser reads, if it takes the mask bit as it is and the
frame may be that long. -/
theorem readsLength_lengthField (hphase : p.phase = .len) {masked : Bool}
    (hmasked : p.rules.requireMask = true → masked = true)
    (hcontrol : p.opcode.isControl = true → n ≤ 125) (hn : n < 2 ^ 64) :
    p.ReadsLength (Header.lengthField masked n) n := by
  rw [lengthField_eq, LengthForm.shortest]
  by_cases hbyte : n ≤ 125
  · rw [if_pos hbyte]
    refine ⟨parse_nil_waits hphase, ?_⟩
    have hread := (readLength_of_taken (show n < 128 by omega) hmasked hcontrol []).trans
      ((if_neg (by omega)).trans (if_neg (by omega)))
    rw [parse_len hphase]
    simp only [LengthForm.code, LengthForm.extension]
    rw [hread]
    exact lengthKnown_measures { p with phase := .len, length := n } masked []
  have hdata : ¬ p.opcode.isControl = true := fun h => hbyte (hcontrol h)
  rw [if_neg hbyte]
  by_cases hshort : n ≤ 0xFFFF
  · rw [if_pos hshort]
    exact readsLength_extended (by decide) (by omega) hphase
      (readLength_of_taken (show 126 < 128 by decide) hmasked (fun h => absurd h hdata))
  · rw [if_neg hshort]
    exact readsLength_extended (by decide) (by omega) hphase
      (readLength_of_taken (show 127 < 128 by decide) hmasked (fun h => absurd h hdata))

end Parser

end WireServer.WebSocket
