import WireServer.App.Log
import WireServer.WebSocket.Handler

/-! Scripted WebSocket callbacks: a list of actions for each call. -/

namespace WireServer.App

/-- What a script does with a session. -/
inductive ChatAction where
  /-- Sends back what the callback was given. -/
  | echo
  | send (flags : WebSocket.Flags) (payload : Bytes)
  | sendWhole (opcode : WebSocket.Opcode) (payload : Bytes)
  | close (code : UInt16)
  /-- The same from outside the reactor. -/
  | senderSend (flags : WebSocket.Flags) (payload : Bytes)
  | senderClose (code : UInt16)
  /-- Keeps a sender of the session. -/
  | hold
  /-- Counts up in the attachment of the session. -/
  | count
  | status
  | fail (cause : String)
  | panic (cause : String)
  deriving DecidableEq, Inhabited, Repr

namespace ChatAction

/-- The counter, one up; the first count is one. -/
def countUp (a : Option WebSocket.Attachment) : Nat :=
  match a.bind WebSocket.Attachment.number? with
  | some n => n + 1
  | none => 1

/-- The actions one after another, each with an entry in the log. An echo that is refused fails the
callback. -/
def program (flags : WebSocket.Flags) (payload : Bytes) :
    List ChatAction → State → WebSocket.Program State
  | [], s => .done s .ok
  | .fail cause :: _, s => .done s (.failed cause)
  | .panic cause :: _, s => .done s (.panicked cause)
  | .echo :: rest, s => .sendFrame flags payload fun
    | .ok () => program flags payload rest (s.note (.did "echo" .done))
    | .error cause => .done s (.failed cause.message)
  | .send f p :: rest, s => .sendFrame f p fun r =>
    program flags payload rest (s.note (.did "send" (.ofResult r)))
  | .sendWhole o p :: rest, s => .sendFrame (.new true o) p fun r =>
    program flags payload rest (s.note (.did "send_op" (.ofResult r)))
  | .close code :: rest, s => .close code fun r =>
    program flags payload rest (s.note (.did "close" (.ofResult r)))
  | .senderSend f p :: rest, s => .post (.frame f p) fun r =>
    program flags payload rest (s.note (.did "sender_send" (.ofResult r)))
  | .senderClose code :: rest, s => .post (.close code) fun r =>
    program flags payload rest (s.note (.did "sender_close" (.ofResult r)))
  | .hold :: rest, s =>
    program flags payload rest ({ s with keepsSender := true }.note (.did "hold" .done))
  | .count :: rest, s => .fetch fun a =>
    let b := WebSocket.Attachment.number (countUp a)
    .attach b (program flags payload rest (s.note (.count (countUp a) b.text?)))
  | .status :: rest, s => .look fun standing queued =>
    program flags payload rest (s.note (.status standing queued))

end ChatAction

/-- Scripts for the callbacks. -/
structure ChatScript where
  onConnect : List ChatAction := []
  /-- One list for each message; without any, every message is sent back. -/
  onMessage : Option (List (List ChatAction)) := none
  onClose : List ChatAction := []
  deriving DecidableEq, Inhabited, Repr

/-- What an echo sends where there is no message. -/
def greeting : Bytes := Bytes.ofString "hello"

def chatHandler (script : ChatScript) : WebSocket.Handler State where
  onConnect s := ChatAction.program ⟨0x81⟩ greeting script.onConnect (s.note .onConnect)
  onMessage s flags payload :=
    let actions := match script.onMessage with
      | none => [.echo]
      | some lists => lists.getD s.messages []
    ChatAction.program flags payload actions
      ({ s with messages := s.messages + 1 }.note (.onMessage flags payload))
  onClose s code := ChatAction.program ⟨0x81⟩ greeting script.onClose (s.note (.onClose code))

/-- The kept sender posts an item. -/
def sendLater (d : Desk State) (item : Item) : Desk State :=
  if d.app.keepsSender then
    let (outbox, result) := d.outbox.send item
    { d with outbox, app := d.app.note (.sender result outbox.closing) }
  else { d with app := d.app.note .noSender }

end WireServer.App
