import WireServer.WebSocket.CloseCode
import WireServer.WebSocket.Header
import WireServer.WebSocket.Parser

/-! Whole frames on a byte stream, for either side of a connection. -/

namespace WireServer.WebSocket

/-- A frame with its payload unmasked. -/
structure Frame where
  flags : Flags
  payload : Bytes
  deriving DecidableEq, Inhabited, Repr

namespace Frame

/-- A frame that is a whole message, or a control frame. -/
def single (o : Opcode) (payload : Bytes) : Frame := ⟨.new true o, payload⟩

def close (code : UInt16) (reason : Bytes) : Frame := single .close (CloseCode.payload code reason)

/-- The status code of a close frame, if it carries one. -/
def closeCode (f : Frame) : Option UInt16 :=
  match f.flags.opcode?, f.payload with
  | some .close, hi :: lo :: _ => some (UInt16.ofNat (hi.toNat * 256 + lo.toNat))
  | _, _ => none

end Frame

/-- The side that a codec speaks for: a client masks what it sends, a server insists on it. -/
inductive Role where
  | server
  | client (key : MaskKey)
  deriving DecidableEq, Inhabited, Repr

/-- A codec and the parser of its input. -/
structure Codec where
  role : Role
  parser : Parser
  deriving DecidableEq, Inhabited, Repr

namespace Codec

def new (role : Role) (maxPayload : Nat) : Codec :=
  ⟨role, { rules := { maxPayload, requireMask := role = .server } }⟩

def encode (c : Codec) (f : Frame) : Bytes :=
  match c.role with
  | .server => Header.server f.flags f.payload.length ++ f.payload
  | .client key => Header.encode f.flags f.payload.length (some key) ++ key.apply f.payload

/-- One frame from the front of the input, if it is complete. After a violation the input stays. -/
def decode (c : Codec) (src : Bytes) : Codec × Bytes × Except Violation (Option Frame) :=
  match c.parser.parse src with
  | (p, .error v) => ({ c with parser := p }, src, .error v)
  | (p, .ok rest) =>
    if p.isComplete then ({ c with parser := p.reset }, rest, .ok (some ⟨p.flags, p.payload⟩))
    else ({ c with parser := p }, rest, .ok none)

/-- Frames decoded one after another. -/
def decodeFrames : Nat → Codec → Bytes → List Frame → Codec × Bytes × List Frame × Option Violation
  | 0, c, src, frames => (c, src, frames.reverse, none)
  | fuel + 1, c, src, frames =>
    match c.decode src with
    | (c, src, .error v) => (c, src, frames.reverse, some v)
    | (c, src, .ok none) => (c, src, frames.reverse, none)
    | (c, src, .ok (some f)) => decodeFrames fuel c src (f :: frames)

/-- All complete frames of the input, then what is left of it and the violation met, if any. -/
def decodeAll (c : Codec) (src : Bytes) : Codec × Bytes × List Frame × Option Violation :=
  decodeFrames (src.length + 1) c src []

end Codec

end WireServer.WebSocket
