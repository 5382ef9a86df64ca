/-! Written numbers: lowercase hexadecimal, with a least width and with a leading `0x`. -/

namespace WireServer.Numeral

/-- Lowercase hexadecimal digits, no leading zeros. -/
def hex (n : Nat) : String := String.ofList (Nat.toDigits 16 n)

/-- Lowercase hexadecimal digits, filled up with zeros to `width`. -/
def hexPadded (width n : Nat) : String :=
  let digits := Nat.toDigits 16 n
  String.ofList (List.replicate (width - digits.length) '0' ++ digits)

/-- `0x` and the digits. -/
def prefixedHex (n : Nat) : String := "0x" ++ hex n

/-- `0x` and at least two digits: the usual way to write one byte. -/
def byteHex (b : UInt8) : String := "0x" ++ hexPadded 2 b.toNat

end WireServer.Numeral
