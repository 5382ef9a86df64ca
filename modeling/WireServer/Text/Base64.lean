import WireServer.Bytes

/-! Base64 with the standard alphabet and padding. -/

namespace WireServer.Base64

def alphabet : Array Char :=
  "ABCDEFGHIJKLMNOPQRSTUVWXYZabcdefghijklmnopqrstuvwxyz0123456789+/".toList.toArray

/-- The character of the `i`-th group of six bits, from the low end. -/
def sextet (n i : Nat) : Char := alphabet.getD ((n >>> (6 * i)) % 64) '='

/-- Four characters for each three bytes, the last group filled up with `=`. -/
def encodeChars : Bytes → List Char
  | a :: b :: c :: rest =>
    let n := Bytes.toNatBE [a, b, c]
    sextet n 3 :: sextet n 2 :: sextet n 1 :: sextet n 0 :: encodeChars rest
  | [a, b] =>
    let n := Bytes.toNatBE [a, b, 0]
    [sextet n 3, sextet n 2, sextet n 1, '=']
  | [a] =>
    let n := Bytes.toNatBE [a, 0, 0]
    [sextet n 3, sextet n 2, '=', '=']
  | [] => []

def encode (bs : Bytes) : String := String.ofList (encodeChars bs)

end WireServer.Base64
