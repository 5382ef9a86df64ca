import WireServer.Bytes

/-! The SHA-1 digest. -/

namespace WireServer.Sha1

/-- The chaining value: five words. -/
structure Chain where
  a : UInt32
  b : UInt32
  c : UInt32
  d : UInt32
  e : UInt32
  deriving DecidableEq, Inhabited

def start : Chain := ⟨0x67452301, 0xEFCDAB89, 0x98BADCFE, 0x10325476, 0xC3D2E1F0⟩

def rotateLeft (x n : UInt32) : UInt32 := (x <<< n) ||| (x >>> (32 - n))

/-- The message with a one bit, zeros up to 56 modulo 64, and its length in bits. -/
def pad (bs : Bytes) : Bytes :=
  bs ++ 0x80 :: List.replicate ((119 - bs.length % 64) % 64) 0 ++ Bytes.ofNatBE 8 (8 * bs.length)

/-- The words of a block. -/
def words : Bytes → List UInt32
  | a :: b :: c :: d :: rest => UInt32.ofNat (Bytes.toNatBE [a, b, c, d]) :: words rest
  | _ => []

/-- One more word of the schedule, from the words 3, 8, 14 and 16 places back. -/
def extend (w : Array UInt32) : Array UInt32 :=
  let i := w.size
  w.push (rotateLeft (w.getD (i - 3) 0 ^^^ w.getD (i - 8) 0 ^^^ w.getD (i - 14) 0 ^^^
    w.getD (i - 16) 0) 1)

/-- The 80 words that a block is stretched to. -/
def schedule (block : Bytes) : List UInt32 :=
  (Nat.repeat extend 64 (words block).toArray).toList

/-- The function and the constant of a round. -/
def mix (t : Nat) (s : Chain) : UInt32 :=
  if t < 20 then ((s.b &&& s.c) ||| (~~~s.b &&& s.d)) + 0x5A827999
  else if t < 40 then (s.b ^^^ s.c ^^^ s.d) + 0x6ED9EBA1
  else if t < 60 then ((s.b &&& s.c) ||| (s.b &&& s.d) ||| (s.c &&& s.d)) + 0x8F1BBCDC
  else (s.b ^^^ s.c ^^^ s.d) + 0xCA62C1D6

def round (s : Chain) (word : UInt32 × Nat) : Chain :=
  ⟨rotateLeft s.a 5 + mix word.2 s + s.e + word.1, s.a, rotateLeft s.b 30, s.c, s.d⟩

/-- One block: eighty rounds, added to the chaining value. -/
def compress (s : Chain) (block : Bytes) : Chain :=
  let t := (schedule block).zipIdx.foldl round s
  ⟨s.a + t.a, s.b + t.b, s.c + t.c, s.d + t.d, s.e + t.e⟩

/-- `n` blocks of 64 bytes. -/
def blocks : Nat → Bytes → List Bytes
  | 0, _ => []
  | n + 1, bs => bs.take 64 :: blocks n (bs.drop 64)

def digest (bs : Bytes) : Bytes :=
  let padded := pad bs
  let s := (blocks (padded.length / 64) padded).foldl compress start
  [s.a, s.b, s.c, s.d, s.e].flatMap fun w => Bytes.ofNatBE 4 w.toNat

end WireServer.Sha1
