import WireServer.WebSocket.Mask

/-! Masking a word at a time. A buffer is seen as some bytes, whole words of memory and some more
bytes, wherever the word boundaries fall. The bytes are masked one by one, the words with the key as
a word, turned to the place where they begin. -/

namespace WireServer.WebSocket

/-- Which byte of a word comes first in memory. -/
inductive ByteOrder where
  | little | big
  deriving DecidableEq, Inhabited, Repr

namespace ByteOrder

/-- The word with these bytes, the lowest first. -/
def join (a b c d : UInt8) : UInt32 := ⟨d.toBitVec ++ c.toBitVec ++ b.toBitVec ++ a.toBitVec⟩

/-- One byte of a word, counted from the lowest. -/
def byteOf (w : UInt32) (i : Nat) : UInt8 := ⟨w.toBitVec.extractLsb' (8 * i) 8⟩

/-- The word that four bytes of memory are. -/
def word (order : ByteOrder) (a b c d : UInt8) : UInt32 :=
  match order with
  | .little => join a b c d
  | .big => join d c b a

/-- The bytes of a word as they stand in memory. -/
def bytes (order : ByteOrder) (w : UInt32) : Bytes :=
  match order with
  | .little => [byteOf w 0, byteOf w 1, byteOf w 2, byteOf w 3]
  | .big => [byteOf w 3, byteOf w 2, byteOf w 1, byteOf w 0]

/-- So many words of memory. -/
def words (order : ByteOrder) : Nat → Bytes → List UInt32
  | n + 1, a :: b :: c :: d :: bs => order.word a b c d :: words order n bs
  | _, _ => []

end ByteOrder

/-- A buffer as it is cut at word boundaries. -/
structure Slices where
  head : Bytes
  words : List UInt32
  tail : Bytes
  deriving DecidableEq, Inhabited, Repr

namespace Slices

/-- The buffer, as bytes of memory. -/
def bytes (order : ByteOrder) (s : Slices) : Bytes :=
  s.head ++ s.words.flatMap order.bytes ++ s.tail

/-- A buffer with so many bytes in front of so many words. -/
def cut (order : ByteOrder) (head words : Nat) (bs : Bytes) : Slices where
  head := bs.take head
  words := order.words words (bs.drop head)
  tail := bs.drop (head + 4 * words)

end Slices

namespace Mask

/-- Masks bytes one at a time, and moves on in the key with each. -/
def stepBytes (m : Mask) : Bytes → Mask × Bytes
  | [] => (m, [])
  | b :: bs =>
    let (m', masked) := stepBytes { m with offset := (m.offset + 1) % 4 } bs
    (m', (b ^^^ m.key.byteAt m.offset) :: masked)

/-- The key as a word that begins at the current place. -/
def word (order : ByteOrder) (m : Mask) : UInt32 :=
  let k := m.key.rotate m.offset
  order.word k.k0 k.k1 k.k2 k.k3

/-- Masks a buffer in place. Whole words leave the place in the key as it was. -/
def sweep (order : ByteOrder) (m : Mask) (s : Slices) : Mask × Slices :=
  let (m, head) := m.stepBytes s.head
  let words := if s.words.isEmpty then s.words else s.words.map (· ^^^ m.word order)
  let (m, tail) := m.stepBytes s.tail
  (m, ⟨head, words, tail⟩)

/-- Buffers one after the other. -/
def sweepAll (order : ByteOrder) (m : Mask) : List Slices → Mask × List Slices
  | [] => (m, [])
  | s :: calls =>
    let (m, masked) := m.sweep order s
    let (m, rest) := sweepAll order m calls
    (m, masked :: rest)

end Mask

end WireServer.WebSocket
