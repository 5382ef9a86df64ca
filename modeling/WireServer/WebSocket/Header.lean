import WireServer.WebSocket.Flags
import WireServer.WebSocket.Mask

/-! Frame headers: the flags, the shortest length code, and the key of a masked frame. -/

namespace WireServer.WebSocket.Header

/-- The length code with its extension: up to 125 in the byte itself, then 16 bits, then 64. -/
def lengthField (masked : Bool) (n : Nat) : Bytes :=
  let bit : UInt8 := if masked then 0x80 else 0
  if n ≤ 125 then [bit ||| UInt8.ofNat n]
  else if n ≤ 0xFFFF then (bit ||| 126) :: Bytes.ofNatBE 2 n
  else (bit ||| 127) :: Bytes.ofNatBE 8 n

/-- The header of a frame with `n` payload bytes. -/
def encode (flags : Flags) (n : Nat) (key : Option MaskKey) : Bytes :=
  flags.bits :: lengthField key.isSome n ++ (key.map MaskKey.toBytes).getD []

/-- The header of a server's frame, which is never masked. -/
def server (flags : Flags) (n : Nat) : Bytes := encode flags n none

/-- The length of a server's header. -/
def length (n : Nat) : Nat := if n ≤ 125 then 2 else if n ≤ 0xFFFF then 4 else 10

/-- The header's bytes in decimal. -/
def describe (header : Bytes) : String :=
  "FrameHeader([" ++ ", ".intercalate (header.map fun b => toString b.toNat) ++ "])"

end WireServer.WebSocket.Header
