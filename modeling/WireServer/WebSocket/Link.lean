import WireServer.WebSocket.Handler

/-! A WebSocket connection at work: frames come out of the parser and go to the handler by their
opcode, pings are answered, and violations close the session with the code that fits. -/

namespace WireServer.WebSocket

/-- The state of one connection. -/
structure Link where
  parser : Parser
  /-- The message that is being put together. -/
  message : Bytes := []
  session : Session := {}
  deriving DecidableEq, Inhabited, Repr

namespace Link

variable {α π : Type}

abbrev Turn (α π : Type) := WireServer.Turn Link α π

/-- A fresh connection. -/
def new (s : Service α) : Link := { parser := { rules := { maxPayload := s.maxFrame } } }

def onSession (f : Session → Session) (t : Turn α π) : Turn α π :=
  t.modify fun l => { l with session := f l.session }

/-- Output waits for the socket; without any, a session that had its last words half-closes. -/
def arm (t : Turn α π) : Turn α π :=
  if t.session.session.out.total > 0 then t.enableTx
  else if t.session.session.lastWords then t.shutdown
  else t

/-- Ends the session after a violation or a failed callback. -/
def fail (t : Turn α π) (code : UInt16) : Turn α π :=
  let t := t.modify fun l =>
    let s := if l.session.standing = .connected then l.session.queueClose code else l.session
    { l with message := [], session := { s with standing := .failed, lastWords := true } }
  arm t

/-- Runs a callback on the session. -/
def call (t : Turn α π) (p : Program α) : Turn α π × Outcome :=
  let (s, o, app, outcome) := p.run t.session.session t.desk.outbox
  ({ t with session := { t.session with session := s }, desk := { t.desk with outbox := o, app } },
    outcome)

/-- Runs a callback whose failure ends the session. -/
def callOrFail (t : Turn α π) (p : Program α) : Turn α π :=
  let (t, outcome) := call t p
  if outcome.failure?.isSome then fail t CloseCode.internalError else t

/-- Adds a frame to the message, and delivers it with its last frame. -/
def deliverBuffered (s : Service α) (t : Turn α π) (flags : Flags) : Turn α π :=
  let whole := t.session.message ++ t.session.parser.payload
  if whole.length > s.maxMessage then fail t CloseCode.messageTooBig
  else if !flags.fin then t.modify fun l => { l with message := whole }
  else
    let kind := (t.session.parser.messageKind.getD .binary).opcode
    let (t, outcome) := call t (s.handler.onMessage t.desk.app (.new true kind) whole)
    let t := t.modify fun l => { l with message := [] }
    if outcome.failure?.isSome then fail t CloseCode.internalError else t

/-- A data frame; behind a close frame nobody wants it. -/
def deliver (s : Service α) (t : Turn α π) (flags : Flags) : Turn α π :=
  if t.session.session.standing ≠ .connected then t
  else if s.buffered then deliverBuffered s t flags
  else callOrFail t (s.handler.onMessage t.desk.app flags t.session.parser.payload)

/-- The code that a received close payload is answered with. -/
def answerCode (payload : Bytes) : UInt16 :=
  match CloseCode.ofPayload payload with
  | .ok code => code
  | .error v => v.closeCode

/-- Tells the application; only a panic gets out. -/
def tellClose (s : Service α) (t : Turn α π) (code : UInt16) : Turn α π × Except Failure Unit :=
  match call t (s.handler.onClose t.desk.app code) with
  | (t, .panicked cause) => (t, .error (.callback ("panicked: " ++ cause)))
  | (t, _) => (t, .ok ())

/-- The peer closes. If it was first, its code is sent back and the connection half-closes behind
it; if it answers, the handshake is complete and the connection closes. -/
def peerClose (s : Service α) (t : Turn α π) : Turn α π × Except Failure Unit :=
  let code := answerCode t.session.parser.payload
  match t.session.session.standing with
  | .connected =>
    let t := onSession
      (fun w => { w.queueClose code with standing := .closeReceived, lastWords := true }) t
    tellClose s t code
  | .expectClose =>
    let t := onSession (fun w => { w with standing := .closed }) t
    match tellClose s t code with
    | (t, .ok ()) => (t.close, .ok ())
    | (t, .error e) => (t, .error e)
  | _ => (t, .ok ())

/-- Answers a ping with its payload. -/
def answerPing (t : Turn α π) (flags : Flags) : Turn α π :=
  if t.session.session.standing = .connected then
    onSession (fun w => w.queueFrame (flags.withOpcode .pong) t.session.parser.payload) t
  else t

/-- A complete frame, by its opcode. -/
def completeFrame (s : Service α) (t : Turn α π) : Turn α π × Except Failure Unit :=
  let flags := t.session.parser.flags
  match t.session.parser.opcode with
  | .continuation | .text | .binary => (deliver s t flags, .ok ())
  | .close => peerClose s t
  | .ping => (answerPing t flags, .ok ())
  | .pong => (t, .ok ())

/-- Input is no longer looked at. -/
def deaf (l : Link) : Bool := l.session.standing = .closed || l.session.standing = .failed

/-- Frame after frame; each but the first call takes at least one byte. -/
def readFrames (s : Service α) : Nat → Turn α π → Bytes → Turn α π × Except Failure Unit
  | 0, t, _ => (t, .ok ())
  | fuel + 1, t, src =>
    if src.isEmpty || t.session.deaf then (t, .ok ())
    else match t.session.parser.parse src with
      | (p, .error v) => (fail (t.modify fun l => { l with parser := p }) v.closeCode, .ok ())
      | (p, .ok rest) =>
        let t := t.modify fun l => { l with parser := p }
        if p.isComplete then
          match completeFrame s t with
          | (t, .error e) => (t, .error e)
          | (t, .ok ()) =>
            readFrames s fuel (t.modify fun l => { l with parser := l.parser.reset }) rest
        else readFrames s fuel t rest

/-- All of the input is used up, also where it is thrown away. -/
def read (s : Service α) (t : Turn α π) (src : Bytes) : Turn α π × Except Failure Unit :=
  match readFrames s (src.length + 1) t src with
  | (t, .ok ()) => (arm t, .ok ())
  | (t, .error e) => (t, .error e)

/-- The server stops: the close handshake starts. -/
def stop (t : Turn α π) : Turn α π :=
  arm (onSession (fun w =>
    if w.standing = .connected then
      { w.queueClose CloseCode.goingAway with standing := .expectClose }
    else w) t)

/-- The handshake is over. -/
def ready (s : Service α) (t : Turn α π) : Turn α π :=
  let t := callOrFail t (s.handler.onConnect t.desk.app)
  if t.ctx.stopping then stop t else arm t

/-- An item from the outbox; parts of HTTP answers have no place here. -/
def applyItem (s : Session) : Item → Session
  | .frame flags payload => (s.sendFrame flags payload).1
  | .close code => (s.close code).1
  | .answer _ _ => s

def wakeup (t : Turn α π) (items : List Item) : Turn α π :=
  arm (onSession (fun w => items.foldl applyItem w) t)

def write {τ : Type} (t : Turn α π) (socket : Net.Sender τ) (io : τ) :
    Turn α π × τ × Except Failure WriteStatus :=
  match Net.sendChain socket io t.session.session.out t.ctx.maxIovec with
  | (io, out, result) =>
    let t := onSession (fun w => { w with out }) t
    match result with
    | .error fault => (t, io, .error (.socket fault))
    | .ok .pending => (t, io, .ok .pending)
    | .ok .drained =>
      (if t.session.session.lastWords then t.shutdown else t, io, .ok .flushed)

end Link

end WireServer.WebSocket
