/-! Byte strings as lists of octets: the bytes of a text and big-endian numbers. -/

namespace WireServer

/-- A byte string. -/
abbrev Bytes := List UInt8

namespace Bytes

/-- The UTF-8 bytes of a text. -/
def ofString (s : String) : Bytes := s.toUTF8.data.toList

/-- The number that the bytes spell, most significant byte first. -/
def toNatBE (bs : Bytes) : Nat := bs.foldl (fun n b => n * 256 + b.toNat) 0

/-- The low `width` bytes of a number, most significant byte first. -/
def ofNatBE : Nat → Nat → Bytes
  | 0, _ => []
  | width + 1, n => ofNatBE width (n / 256) ++ [UInt8.ofNat n]

@[simp] theorem length_ofNatBE (width n : Nat) : (ofNatBE width n).length = width := by
  induction width generalizing n with
  | zero => rfl
  | succ w ih => simp [ofNatBE, ih]

theorem toNatBE_append_singleton (bs : Bytes) (b : UInt8) :
    toNatBE (bs ++ [b]) = toNatBE bs * 256 + b.toNat := by
  simp [toNatBE]

end Bytes

end WireServer
