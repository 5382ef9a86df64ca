import WireServer.WebSocket.Header
import WireServer.WebSocket.Registers

/-! A frame header in a buffer of fixed size. It is written from the front, part by part, and a part
that the places left over do not hold is a trap. -/

namespace WireServer.WebSocket

/-- The places of a header, and how many of them are written. -/
structure HeaderBuffer where
  places : Bytes
  len : UInt8
  deriving DecidableEq, Inhabited, Repr

namespace HeaderBuffer

/-- The longest header: two bytes, a length in eight, and a key. -/
def maxLength : Nat := 14

/-- A buffer while it is written. -/
structure Writer where
  written : Bytes := []
  free : Bytes := List.replicate maxLength 0
  deriving DecidableEq, Inhabited, Repr

def Writer.put (w : Writer) (bs : Bytes) : Except Trap Writer :=
  if bs.length ≤ w.free.length then .ok ⟨w.written ++ bs, w.free.drop bs.length⟩
  else .error .outside

/-- The length in a byte of its own, if it fits. -/
def narrow8? (n : UInt64) : Option UInt8 := if n.toNat < UInt8.size then some n.toUInt8 else none

def narrow16? (n : UInt64) : Option UInt16 := if n.toNat < UInt16.size then some n.toUInt16 else none

/-- The length in the first code that holds it, beside the mask bit. -/
def Writer.putLength (w : Writer) (bit : UInt8) (n : UInt64) : Except Trap Writer :=
  match (narrow8? n).filter (· ≤ 125), narrow16? n with
  | some len, _ => w.put [bit ||| len]
  | none, some len => do (← w.put [bit ||| 126]).put (Bytes.ofNatBE 2 len.toNat)
  | none, none => do (← w.put [bit ||| 127]).put (Bytes.ofNatBE 8 n.toNat)

def Writer.putKey (w : Writer) : Option MaskKey → Except Trap Writer
  | none => .ok w
  | some key => w.put key.toBytes

def Writer.finish (w : Writer) : HeaderBuffer :=
  ⟨w.written ++ w.free, UInt8.ofNat (maxLength - w.free.length)⟩

/-- The header of a frame with `n` payload bytes. -/
def new (flags : Flags) (n : UInt64) (key : Option MaskKey) : Except Trap HeaderBuffer := do
  let w ← Writer.put {} [flags.bits]
  let w ← w.putLength (if key.isSome then 0x80 else 0) n
  return (← w.putKey key).finish

/-- A length in 64 bits, or as much of it as they hold. -/
def saturate (n : Nat) : UInt64 :=
  if n < UInt64.size then UInt64.ofNat n else UInt64.ofNat (UInt64.size - 1)

/-- The header of a server's frame, which is never masked. -/
def server (flags : Flags) (n : Nat) : Except Trap HeaderBuffer := new flags (saturate n) none

def bytes (h : HeaderBuffer) : Bytes := h.places.take h.len.toNat

end HeaderBuffer

end WireServer.WebSocket
