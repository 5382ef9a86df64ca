import WireServer.Text.Utf8
import WireServer.WebSocket.Flags
import WireServer.WebSocket.Mask
import WireServer.WebSocket.Violation

/-! The incremental frame parser. A frame may arrive in any number of pieces; the parser stops
behind a complete one, and its owner takes the frame and resets it. It also keeps the fragmented
message that is open, so that the rules on continuation frames and the check of text run across
frames. After a violation the parser stays as the failed byte found it. -/

namespace WireServer.WebSocket

/-- The usual limit for the payload of one frame. -/
def defaultMaxPayload : Nat := 16 * 1024 * 1024

/-- What a parser insists on. -/
structure Rules where
  maxPayload : Nat := defaultMaxPayload
  requireMask : Bool := true
  deriving DecidableEq, Inhabited, Repr

/-- Where in a frame the next byte belongs. -/
inductive Phase where
  | op
  | len
  | extended (masked : Bool) (left : Nat)
  | maskingKey (got : Bytes)
  | payload (mask : Option Mask)
  | complete
  deriving DecidableEq, Inhabited, Repr

/-- A parser, with the frame in progress and the open message. -/
structure Parser where
  rules : Rules := {}
  phase : Phase := .op
  flags : Flags := ⟨0⟩
  opcode : Opcode := .continuation
  length : Nat := 0
  parsed : Nat := 0
  payload : Bytes := []
  current : Option MessageKind := none
  utf8 : Utf8.State := .boundary
  deriving DecidableEq, Inhabited, Repr

namespace Parser

/-- What a call leaves: the parser, and the bytes it did not need or the violation it met. -/
abbrev Outcome := Parser × Except Violation Bytes

def isComplete (p : Parser) : Bool := p.phase = .complete

/-- The kind of the message that the frame belongs to; control frames belong to none. -/
def messageKind (p : Parser) : Option MessageKind := if p.opcode.isData then p.current else none

/-- The frame carries text that has to be checked. -/
def inText (p : Parser) : Bool := p.opcode.isData && p.current == some .text

/-- Makes room for the next frame. A complete data frame with FIN ends the open message. -/
def reset (p : Parser) : Parser :=
  let ends := p.isComplete && p.opcode.isData && p.flags.fin
  { p with
    phase := .op, length := 0, parsed := 0, payload := []
    current := if ends then none else p.current
    utf8 := if ends then .boundary else p.utf8 }

/-- The last byte is in: text must not end inside a character, nor the reason of a close frame. -/
def finish (p : Parser) (rest : Bytes) : Outcome :=
  if p.inText && p.flags.fin && p.utf8 != .boundary then (p, .error .invalidUtf8)
  else if p.opcode == .close && p.payload.length > 2 && !Utf8.valid (p.payload.drop 2) then
    (p, .error .invalidUtf8)
  else ({ p with phase := .complete }, .ok rest)

/-- Text that cannot be well formed any more, whatever follows. -/
def spoils (p : Parser) (data : Bytes) : Bool :=
  p.inText && !(Utf8.walk p.utf8 data).2.isEmpty

/-- Takes in payload bytes, unmasked as they come. -/
def absorb (p : Parser) (mask : Option Mask) (chunk : Bytes) : Parser :=
  { p with
    phase := .payload (mask.map (·.skip chunk.length))
    parsed := p.parsed + chunk.length
    payload := p.payload ++ Mask.strip mask chunk
    utf8 := if p.inText then (Utf8.walk p.utf8 (Mask.strip mask chunk)).1 else p.utf8 }

/-- Payload bytes. The count stays where it was when the text goes wrong. -/
def readPayload (p : Parser) (mask : Option Mask) (src : Bytes) : Outcome :=
  let chunk := src.take (p.length - p.parsed)
  let rest := src.drop (p.length - p.parsed)
  let q := p.absorb mask chunk
  if p.spoils (Mask.strip mask chunk) then ({ q with parsed := p.parsed }, .error .invalidUtf8)
  else if q.parsed = q.length then q.finish rest
  else (q, .ok rest)

/-- Bytes of the masking key, behind those already there. -/
def readKey (p : Parser) (got src : Bytes) : Outcome :=
  let key := got ++ src.take (4 - got.length)
  let rest := src.drop (4 - got.length)
  match MaskKey.ofBytes? key with
  | some k => readPayload p (some ⟨k, 0⟩) rest
  | none => ({ p with phase := .maskingKey key }, .ok rest)

/-- The length is known: it must not pass the limit. -/
def lengthKnown (p : Parser) (masked : Bool) (src : Bytes) : Outcome :=
  if p.rules.maxPayload < p.length then (p, .error (.frameTooLarge p.length p.rules.maxPayload))
  else if masked then p.readKey [] src
  else p.readPayload none src

/-- Takes in bytes of an extended length. -/
def extend (p : Parser) (masked : Bool) (left : Nat) (field : Bytes) : Parser :=
  { p with
    phase := .extended masked (left - field.length)
    length := field.foldl (fun n b => n * 256 + b.toNat) p.length }

/-- Bytes of an extended length. -/
def readExtended (p : Parser) (masked : Bool) (left : Nat) (src : Bytes) : Outcome :=
  let field := src.take left
  let q := p.extend masked left field
  if field.length < left then (q, .ok [])
  else if 0x8000000000000000 ≤ q.length then (q, .error .invalidLength)
  else q.lengthKnown masked (src.drop left)

/-- The second byte: mask bit and length code. -/
def readLength (p : Parser) (b : UInt8) (src : Bytes) : Outcome :=
  let masked := b &&& 0x80 != 0
  let code := (b &&& 0x7F).toNat
  let p := { p with phase := .len }
  if !masked && p.rules.requireMask then (p, .error .unmasked)
  else if p.opcode.isControl && code > 125 then (p, .error .controlTooLong)
  else if code = 126 then { p with length := 0 }.readExtended masked 2 src
  else if code = 127 then { p with length := 0 }.readExtended masked 8 src
  else { p with length := code }.lengthKnown masked src

/-- The opcode fits the open message: control frames have FIN, and a message is continued exactly
while it is open. -/
def admits (p : Parser) (flags : Flags) : Opcode → Except Violation (Option MessageKind)
  | .continuation => if p.current.isSome then .ok p.current else .error .unexpectedContinuation
  | .text => if p.current.isNone then .ok (some .text) else .error .expectedContinuation
  | .binary => if p.current.isNone then .ok (some .binary) else .error .expectedContinuation
  | .close | .ping | .pong => if flags.fin then .ok p.current else .error .fragmentedControl

/-- The first byte: reserved bits, opcode and FIN. -/
def readOp (p : Parser) (b : UInt8) : Except Violation Parser := do
  let flags : Flags := ⟨b⟩
  if flags.reserved ≠ 0 then throw (.reservedBits flags.reserved)
  match flags.opcode? with
  | none => throw (.unknownOpcode flags.rawOpcode)
  | some opcode =>
    let kind ← p.admits flags opcode
    return { p with phase := .len, flags, opcode, current := kind }

/-- Reads as much as it can of a piece of input; with none left it waits where it is. -/
def parse (p : Parser) (src : Bytes) : Outcome :=
  match p.phase, src with
  | .complete, _ => (p, .ok src)
  | .payload mask, _ => p.readPayload mask src
  | _, [] => (p, .ok [])
  | .op, b :: rest =>
    match p.readOp b, rest with
    | .error v, _ => (p, .error v)
    | .ok p', [] => (p', .ok [])
    | .ok p', c :: rest => p'.readLength c rest
  | .len, b :: rest => p.readLength b rest
  | .extended masked left, _ => p.readExtended masked left src
  | .maskingKey got, _ => p.readKey got src

/-- A frame as its owner takes it from the parser. -/
structure Received where
  flags : Flags
  kind : Option MessageKind
  payload : Bytes
  deriving DecidableEq, Inhabited, Repr

/-- The frame of a complete parser. -/
def received (p : Parser) : Received := ⟨p.flags, p.messageKind, p.payload⟩

/-- What reading a whole piece gives: the frames completed, and where it ended. -/
structure Reading where
  parser : Parser
  frames : List Received := []
  rest : Bytes := []
  violation : Option Violation := none
  deriving Inhabited

/-- Frames parsed one after another; each call but the first takes at least one byte. -/
def readFrames : Nat → Parser → Bytes → List Received → Reading
  | 0, p, src, frames => { parser := p, frames := frames.reverse, rest := src }
  | fuel + 1, p, src, frames =>
    if src.isEmpty then { parser := p, frames := frames.reverse }
    else match p.parse src with
      | (p, .error v) =>
        { parser := p, frames := frames.reverse, rest := src, violation := some v }
      | (p, .ok rest) =>
        if p.isComplete then readFrames fuel p.reset rest (p.received :: frames)
        else readFrames fuel p rest frames

/-- Parses until the input is used up or a violation is met. -/
def read (p : Parser) (src : Bytes) : Reading := readFrames (src.length + 1) p src []

end Parser

end WireServer.WebSocket
