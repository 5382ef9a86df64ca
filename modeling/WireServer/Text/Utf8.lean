import WireServer.Bytes

/-! UTF-8 well-formedness, byte by byte. Between two bytes of a text only eight situations can be
told apart, so a text may be cut anywhere and checked piece by piece. -/

namespace WireServer.Utf8

/-- What the next byte of a text may be. -/
inductive State where
  | boundary | oneMore | twoMore | threeMore | afterE0 | afterED | afterF0 | afterF4
  deriving DecidableEq, Inhabited, Repr

/-- The continuation bytes still owed. -/
def State.owed : State → Nat
  | .boundary => 0
  | .oneMore => 1
  | .twoMore | .afterE0 | .afterED => 2
  | .threeMore | .afterF0 | .afterF4 => 3

/-- The situation behind the first byte of a character. -/
def lead (b : UInt8) : Option State :=
  if b < 0x80 then some .boundary
  else if b < 0xC2 then none
  else if b < 0xE0 then some .oneMore
  else if b = 0xE0 then some .afterE0
  else if b = 0xED then some .afterED
  else if b < 0xF0 then some .twoMore
  else if b = 0xF0 then some .afterF0
  else if b < 0xF4 then some .threeMore
  else if b = 0xF4 then some .afterF4
  else none

/-- `next`, if the byte lies between the two bounds. -/
def within (low high b : UInt8) (next : State) : Option State :=
  if low ≤ b ∧ b ≤ high then some next else none

/-- One byte. The bounds behind `E0` and `F0` shut out overlong forms, behind `ED` surrogates, and
behind `F4` all above U+10FFFF. -/
def step : State → UInt8 → Option State
  | .boundary, b => lead b
  | .oneMore, b => within 0x80 0xBF b .boundary
  | .twoMore, b => within 0x80 0xBF b .oneMore
  | .threeMore, b => within 0x80 0xBF b .twoMore
  | .afterE0, b => within 0xA0 0xBF b .oneMore
  | .afterED, b => within 0x80 0x9F b .oneMore
  | .afterF0, b => within 0x90 0xBF b .twoMore
  | .afterF4, b => within 0x80 0x8F b .twoMore

/-- Reads bytes until one does not fit, and gives the bytes from that one on. -/
def walk : State → Bytes → State × Bytes
  | s, [] => (s, [])
  | s, b :: bs =>
    match step s b with
    | none => (s, b :: bs)
    | some s' => walk s' bs

/-- No byte of a character is owed. -/
def State.isComplete (s : State) : Bool := s.owed = 0

/-- One piece of a text: the situation behind the bytes that fit, and whether all of them do. -/
def feed (s : State) (piece : Bytes) : State × Bool :=
  let (s, unread) := walk s piece
  (s, unread.isEmpty)

/-- The pieces may end here; only the last of them has to end between characters. -/
def State.finish (s : State) (last : Bool) : Bool := !last || s.isComplete

/-- A whole text is well formed: every byte fits and the last character is complete. -/
def valid (bs : Bytes) : Bool := walk .boundary bs = (.boundary, [])

theorem walk_append (s : State) (xs ys : Bytes) (h : (walk s xs).2 = []) :
    walk s (xs ++ ys) = walk (walk s xs).1 ys := by
  induction xs generalizing s with
  | nil => rfl
  | cons b bs ih =>
    rw [List.cons_append, walk, walk]
    rw [walk] at h
    cases hs : step s b with
    | none => simp [hs] at h
    | some s' => simp only [hs] at h ⊢; exact ih s' h

theorem walk_append_of_bad (s : State) (xs ys : Bytes) (h : (walk s xs).2 ≠ []) :
    walk s (xs ++ ys) = ((walk s xs).1, (walk s xs).2 ++ ys) := by
  induction xs generalizing s with
  | nil => exact absurd rfl h
  | cons b bs ih =>
    rw [List.cons_append, walk, walk]
    rw [walk] at h
    cases hs : step s b with
    | none => rfl
    | some s' => simp only [hs] at h ⊢; exact ih s' h

end WireServer.Utf8
