import WireServer.Config.Error
import WireServer.Session.Turn
import WireServer.WebSocket.Parser
import WireServer.WebSocket.Session

/-! Applications on a WebSocket. A callback is a tree of actions on the session, each going on with
the reply to it; nothing else reaches the connection. -/

namespace WireServer.WebSocket

inductive Program (α : Type) where
  | done (app : α) (outcome : Outcome)
  | sendFrame (flags : Flags) (payload : Bytes) (next : Except Refusal Unit → Program α)
  | close (code : UInt16) (next : Except Refusal Unit → Program α)
  /-- Posts through the outbox, as from outside the reactor. -/
  | post (item : Item) (next : Except Refusal Unit → Program α)
  /-- Looks at the standing and at the bytes that wait. -/
  | look (next : Standing → Nat → Program α)
  /-- Looks at the attachment. -/
  | fetch (next : Option Attachment → Program α)
  | attach (a : Attachment) (next : Program α)

/-- Runs a program to its end. -/
def Program.run {α : Type} : Program α → Session → Outbox → Session × Outbox × α × Outcome
  | .done app outcome, s, o => (s, o, app, outcome)
  | .sendFrame flags payload next, s, o =>
    (next (s.sendFrame flags payload).2).run (s.sendFrame flags payload).1 o
  | .close code next, s, o => (next (s.close code).2).run (s.close code).1 o
  | .post item next, s, o => (next (o.send item).2).run s (o.send item).1
  | .look next, s, o => (next s.standing s.queued).run s o
  | .fetch next, s, o => (next s.attachment).run s o
  | .attach a next, s, o => next.run { s with attachment := some a } o

/-- The callbacks of an application with state `α`. -/
structure Handler (α : Type) where
  /-- The handshake is over. -/
  onConnect : α → Program α := fun app => .done app .ok
  /-- A data frame came in, or a whole message where messages are put together. -/
  onMessage : α → Flags → Bytes → Program α
  /-- The peer's close frame was processed. -/
  onClose : α → UInt16 → Program α := fun app _ => .done app .ok

/-- Ends a callback with a reply: a refusal makes it fail. -/
def Program.ofReply {α : Type} (app : α) : Except Refusal Unit → Program α
  | .ok () => .done app .ok
  | .error cause => .done app (.failed cause.message)

/-- Sends every frame back the way it came. -/
def Handler.echo {α : Type} : Handler α where
  onMessage app flags payload := .sendFrame flags payload (.ofReply app)

/-- The usual limit for a message that is put together. -/
def defaultMaxMessage : Nat := 4096

/-- The protocol as it is served. -/
structure Service (α : Type) where
  handler : Handler α
  maxFrame : Nat := defaultMaxPayload
  /-- Messages are put together before they are delivered. -/
  buffered : Bool := false
  maxMessage : Nat := defaultMaxMessage

/-- A service for a handler, which has to be there, with limits that leave room. -/
def Service.build {α : Type} (handler : Option (Handler α)) (maxFrame : Nat) (buffered : Bool)
    (maxMessage : Nat) : Except StartError (Service α) :=
  match handler with
  | none => .error (.invalidConfig "websocket handler must be set")
  | some handler =>
    if maxFrame = 0 ∨ maxMessage = 0 then
      .error (.invalidConfig "websocket size limits must be positive")
    else .ok { handler, maxFrame, buffered, maxMessage }

/-- The settings, as a line of text. -/
def Service.describe {α : Type} (s : Service α) : String :=
  s!"WsProtocol \x7b max_frame_size: {s.maxFrame}, buffered: {s.buffered}, " ++
    s!"max_message_size: {s.maxMessage}, .. \x7d"

end WireServer.WebSocket
