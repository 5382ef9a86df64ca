import WireServer.Bytes

/-! Payload masking: bytes are combined with a four-byte key that repeats, so the place in the key
has to be carried from one piece of a payload to the next. -/

namespace WireServer.WebSocket

/-- A masking key. -/
structure MaskKey where
  k0 : UInt8
  k1 : UInt8
  k2 : UInt8
  k3 : UInt8
  deriving DecidableEq, Inhabited, Repr

namespace MaskKey

/-- The key byte for a payload offset. -/
def byteAt (k : MaskKey) (i : Nat) : UInt8 :=
  match i % 4 with
  | 0 => k.k0
  | 1 => k.k1
  | 2 => k.k2
  | _ => k.k3

theorem byteAt_mod (k : MaskKey) (i j : Nat) : k.byteAt (i % 4 + j) = k.byteAt (i + j) := by
  simp only [byteAt, Nat.mod_add_mod]

def toBytes (k : MaskKey) : Bytes := [k.k0, k.k1, k.k2, k.k3]

/-- The key that four bytes spell. -/
def ofBytes? : Bytes → Option MaskKey
  | [a, b, c, d] => some ⟨a, b, c, d⟩
  | _ => none

/-- The key as it reads from an offset on. -/
def rotate (k : MaskKey) (i : Nat) : MaskKey :=
  ⟨k.byteAt i, k.byteAt (i + 1), k.byteAt (i + 2), k.byteAt (i + 3)⟩

end MaskKey

/-- A key and the place in it of the next byte. -/
structure Mask where
  key : MaskKey
  offset : Nat := 0
  deriving DecidableEq, Inhabited, Repr

namespace Mask

/-- Combines a piece with the key, from the current place on. -/
def apply (m : Mask) (bs : Bytes) : Bytes := bs.mapIdx fun i b => b ^^^ m.key.byteAt (m.offset + i)

/-- The mask behind `n` bytes. -/
def skip (m : Mask) (n : Nat) : Mask := { m with offset := (m.offset + n) % 4 }

@[simp] theorem length_apply (m : Mask) (bs : Bytes) : (m.apply bs).length = bs.length := by
  simp [apply]

/-- A payload may be cut anywhere, as long as the place in the key is carried over. -/
theorem apply_append (m : Mask) (xs ys : Bytes) :
    m.apply (xs ++ ys) = m.apply xs ++ (m.skip xs.length).apply ys := by
  simp only [apply, skip, List.mapIdx_append, MaskKey.byteAt_mod]
  congr 2
  funext i b
  rw [Nat.add_assoc, Nat.add_comm i]

/-- Masking is its own inverse. -/
theorem apply_apply (m : Mask) (bs : Bytes) : m.apply (m.apply bs) = bs := by
  apply List.ext_getElem
  · simp [apply]
  · intro i h₁ h₂
    simp only [apply, List.getElem_mapIdx, UInt8.xor_assoc, UInt8.xor_self, UInt8.xor_zero]

theorem skip_skip (m : Mask) (a b : Nat) : (m.skip a).skip b = m.skip (a + b) := by
  simp [skip, Nat.add_assoc]

theorem skip_zero {m : Mask} (h : m.offset < 4) : m.skip 0 = m := by
  simp [skip, Nat.mod_eq_of_lt h]

theorem offset_skip_lt (m : Mask) (n : Nat) : (m.skip n).offset < 4 := Nat.mod_lt _ (by decide)

/-- Takes the mask off a piece, where there is one. -/
def strip : Option Mask → Bytes → Bytes
  | some m, bs => m.apply bs
  | none, bs => bs

@[simp] theorem strip_nil (mask : Option Mask) : strip mask [] = [] := by cases mask <;> rfl

@[simp] theorem length_strip (mask : Option Mask) (bs : Bytes) :
    (strip mask bs).length = bs.length := by
  cases mask <;> simp [strip]

theorem strip_append (mask : Option Mask) (xs ys : Bytes) :
    strip mask (xs ++ ys) = strip mask xs ++ strip (mask.map (·.skip xs.length)) ys := by
  cases mask with
  | none => rfl
  | some m => exact m.apply_append xs ys

/-- Combines each four bytes with a whole key, as one word with another. -/
def applyWords (word : MaskKey) : Nat → Bytes → Bytes
  | n + 1, a :: b :: c :: d :: bs =>
    (a ^^^ word.k0) :: (b ^^^ word.k1) :: (c ^^^ word.k2) :: (d ^^^ word.k3) :: applyWords word n bs
  | _, _ => []

/-- The same in three stages: `head` bytes one at a time, `words` words of four, and the tail one
at a time. -/
def applyAligned (m : Mask) (head words : Nat) (bs : Bytes) : Bytes :=
  let front := bs.take head
  let m' := m.skip front.length
  let middle := (bs.drop head).take (4 * words)
  m.apply front ++ applyWords (m'.key.rotate m'.offset) words middle ++
    m'.apply (bs.drop (head + 4 * words))

end Mask

/-- Masks a whole payload; doing it twice gives it back. -/
def MaskKey.apply (k : MaskKey) (bs : Bytes) : Bytes := Mask.apply ⟨k, 0⟩ bs

end WireServer.WebSocket
