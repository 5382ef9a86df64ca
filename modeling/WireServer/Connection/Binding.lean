import WireServer.Connection.Protocol
import WireServer.Http.Session
import WireServer.Mqtt.Session
import WireServer.WebSocket.Link

/-! The protocols that a connection can speak, and the one that it is bound to. -/

namespace WireServer

/-- The protocols that an HTTP connection can switch to. -/
inductive Successor (α : Type) where
  | http (handler : α → Http.Request → Http.Program α) (maxBody : Nat)
    (upgrades : List (Http.RequestHead → Http.UpgradeStatus (Successor α)))
  | webSocket (s : WebSocket.Service α)
  | mqtt (s : Mqtt.Service)

/-- The protocols that a connection can start with. -/
inductive Service (α : Type) where
  | http (s : Http.Service α (Successor α))
  | webSocket (s : WebSocket.Service α)
  | mqtt (s : Mqtt.Service)

def Successor.toService {α : Type} : Successor α → Service α
  | .http handler maxBody upgrades => .http { handler, maxBody, upgrades }
  | .webSocket s => .webSocket s
  | .mqtt s => .mqtt s

namespace Service

variable {α : Type}

def name : Service α → String
  | .http _ => "http"
  | .webSocket _ => "websocket"
  | .mqtt _ => "mqtt"

def describe : Service α → String
  | .http s => s.describe
  | .webSocket s => s.describe
  | .mqtt s => s.describe

end Service

def Successor.name {α : Type} (s : Successor α) : String := s.toService.name

/-- A connection can switch to whatever it can start with. -/
def Service.toSuccessor {α : Type} : Service α → Successor α
  | .http s => .http s.handler s.maxBody s.upgrades
  | .webSocket s => .webSocket s
  | .mqtt s => .mqtt s

@[simp] theorem Service.toService_toSuccessor {α : Type} (s : Service α) :
    s.toSuccessor.toService = s := by
  cases s <;> rfl

/-- A protocol with its session on one connection. -/
inductive Binding (α : Type) where
  | http (s : Http.Service α (Successor α)) (session : Http.Session (Successor α))
  | webSocket (s : WebSocket.Service α) (link : WebSocket.Link)
  | mqtt (s : Mqtt.Service) (session : Mqtt.Session)

namespace Binding

variable {α : Type}

abbrev Turn (α : Type) := WireServer.Turn (Binding α) α (Successor α)

/-- A fresh session. -/
def new : Service α → Binding α
  | .http s => .http s (.new s)
  | .webSocket s => .webSocket s (.new s)
  | .mqtt s => .mqtt s {}

def name : Binding α → String
  | .http _ _ => "http"
  | .webSocket _ _ => "websocket"
  | .mqtt _ _ => "mqtt"

/-- The connection is ready to exchange data. -/
def ready (t : Turn α) : Turn α :=
  match t.session with
  | .http _ _ => t
  | .webSocket s l => (WebSocket.Link.ready s (t.around l)).wrap (.webSocket s)
  | .mqtt _ _ => t

/-- Uses up all of the input. -/
def read (t : Turn α) (src : Bytes) : Turn α × Except Failure Unit :=
  match t.session with
  | .http s h => ((Http.Session.read s (t.around h) src).wrap (.http s), .ok ())
  | .webSocket s l =>
    let (u, result) := WebSocket.Link.read s (t.around l) src
    (u.wrap (.webSocket s), result)
  | .mqtt s m =>
    let (u, result) := Mqtt.Session.read s (t.around m) src
    (u.wrap (.mqtt s), result)

/-- Sends queued output. -/
def write {τ : Type} (t : Turn α) (socket : Net.Sender τ) (io : τ) :
    Turn α × τ × Except Failure WriteStatus :=
  match t.session with
  | .http s h =>
    let (u, io, result) := Http.Session.write (t.around h) socket io
    (u.wrap (.http s), io, result)
  | .webSocket s l =>
    let (u, io, result) := WebSocket.Link.write (t.around l) socket io
    (u.wrap (.webSocket s), io, result)
  | .mqtt s m =>
    let (u, io, result) := Mqtt.Session.write (t.around m) socket io
    (u.wrap (.mqtt s), io, result)

/-- Applies items from the outbox; MQTT has no use for any. -/
def wakeup (t : Turn α) (items : List Item) : Turn α :=
  match t.session with
  | .http s h => (Http.Session.wakeup (t.around h) items).wrap (.http s)
  | .webSocket s l => (WebSocket.Link.wakeup (t.around l) items).wrap (.webSocket s)
  | .mqtt _ _ => t

/-- The server stops: what is in progress is finished, and the connection winds down. -/
def stop (t : Turn α) : Turn α :=
  match t.session with
  | .http s h => (Http.Session.stop (t.around h)).wrap (.http s)
  | .webSocket s l => (WebSocket.Link.stop (t.around l)).wrap (.webSocket s)
  | .mqtt s m => (Mqtt.Session.stop (t.around m)).wrap (.mqtt s)

/-- Input that was read but belongs to the next protocol. -/
def takeLeftover (t : Turn α) : Turn α × Bytes :=
  match t.session with
  | .http s h =>
    let (u, leftover) := Http.Session.takeLeftover (t.around h)
    (u.wrap (.http s), leftover)
  | _ => (t, [])

/-- Sends queued output; with none left, nothing waits for the socket any more. -/
def send {τ : Type} (t : Turn α) (socket : Net.Sender τ) (io : τ) :
    Turn α × τ × Except Failure WriteStatus :=
  match write t socket io with
  | (t, io, .ok .flushed) => ({ t with ctx := { t.ctx with tx := false } }, io, .ok .flushed)
  | other => other

/-- Sends while output waits for the socket, at most `n` times and up to the first failure, and
gives what each time came to. -/
def flush {τ : Type} (socket : Net.Sender τ) :
    Nat → Turn α → τ → Turn α × τ × List (Except Failure WriteStatus)
  | 0, t, io => (t, io, [])
  | n + 1, t, io =>
    if !t.ctx.tx then (t, io, [])
    else match send t socket io with
      | (t, io, .error e) => (t, io, [.error e])
      | (t, io, .ok status) =>
        let (t, io, results) := flush socket n t io
        (t, io, .ok status :: results)

/-- The callbacks of all protocols, on a socket. -/
def protocol {τ : Type} (socket : Net.Sender τ) :
    Connection.Protocol τ (Binding α) α (Successor α) where
  bind successor t :=
    ({ t with ctx := { t.ctx with rx := true } }, .ok (.new successor.toService))
  ready t := (ready t, .ok ())
  read t src := Prod.map id (Except.map fun _ => src.length) (read t src)
  write t io := send t socket io
  wakeup t items := (wakeup t items, .ok ())
  stop t := (stop t, .ok ())
  takeLeftover := takeLeftover
  cleanup t := (t, .ok ())

end Binding

end WireServer
