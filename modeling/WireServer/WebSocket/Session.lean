import WireServer.Net.Chain
import WireServer.Session.Outbox
import WireServer.WebSocket.CloseCode
import WireServer.WebSocket.Header

/-! The application's view of a WebSocket: how far the close handshake is, and the frames that wait
to be sent. -/

namespace WireServer.WebSocket

/-- Progress of the close handshake. -/
inductive Standing where
  | connected
  /-- The peer closed first and was answered. -/
  | closeReceived
  /-- We closed first and wait for the answer. -/
  | expectClose
  | closed
  /-- A violation or a failed callback ended the session. -/
  | failed
  deriving DecidableEq, Inhabited, Repr

/-- A value that the application attaches to a session. -/
inductive Attachment where
  | number (n : Nat)
  | text (s : String)
  deriving DecidableEq, Inhabited, Repr

namespace Attachment

def number? : Attachment → Option Nat
  | .number n => some n
  | .text _ => none

def text? : Attachment → Option String
  | .number _ => none
  | .text s => some s

end Attachment

structure Session where
  standing : Standing := .connected
  out : Net.Chain := {}
  /-- The connection half-closes once all output is sent. -/
  lastWords : Bool := false
  attachment : Option Attachment := none
  deriving DecidableEq, Inhabited, Repr

namespace Session

/-- Bytes that wait to be sent. -/
def queued (s : Session) : Nat := s.out.total

/-- Why nothing can be sent, if so. -/
def refusal? (s : Session) : Option Refusal :=
  match s.standing with
  | .connected => none
  | .closeReceived | .expectClose => some .closing
  | .closed => some .closed
  | .failed => some .aborted

/-- What is wrong with a frame to be sent, if anything: closing has its own call, and control frames
are whole and short. -/
def frameFault? (flags : Flags) (payload : Bytes) : Option Refusal :=
  match flags.opcode? with
  | none => some .invalidOpcode
  | some o =>
    if o = .close || flags.reserved != 0 then some .invalidOpcode
    else if o.isControl && !flags.fin then some .invalidOpcode
    else if o.isControl && payload.length > 125 then some .controlTooLong
    else none

/-- Queues a frame whatever it is. -/
def queueFrame (s : Session) (flags : Flags) (payload : Bytes) : Session :=
  let out := s.out.push (Header.server flags payload.length)
  { s with out := if payload.isEmpty then out else out.push payload }

def queueClose (s : Session) (code : UInt16) : Session :=
  s.queueFrame (.new true .close) (CloseCode.payload code [])

def sendFrame (s : Session) (flags : Flags) (payload : Bytes) : Session × Except Refusal Unit :=
  match s.refusal?, frameFault? flags payload with
  | some cause, _ => (s, .error cause)
  | none, some cause => (s, .error cause)
  | none, none => (s.queueFrame flags payload, .ok ())

/-- Starts the close handshake. -/
def close (s : Session) (code : UInt16) : Session × Except Refusal Unit :=
  match s.refusal? with
  | some cause => (s, .error cause)
  | none => ({ s.queueClose code with standing := .expectClose }, .ok ())

end Session

end WireServer.WebSocket
