import WireServer.App.Chat
import WireServer.App.Web
import WireServer.Config.IdleTimeout
import WireServer.Connection.Binding
import WireServer.Connection.Machine
import WireServer.Server.Live

/-! A scripted run of one connection on a socket in memory, under a clock that stands still until
it is told to move. Between the cues, the connection runs until it waits. -/

namespace WireServer.App

open Net

/-- A connection of the scripted application. -/
abbrev Scene := Connection MemorySocket (Binding State) State (Successor State)

/-- What such a connection runs on. -/
abbrev SceneHost := Connection.Host MemorySocket (Binding State) State (Successor State)

/-- Notes a new connection. -/
def noteOpened (c : Context (Successor State)) (s : State) : State :=
  s.note (.connectionOpened c.rx c.tx c.stopping)

/-- Notes the end of a connection. -/
def noteClosed (c : Context (Successor State)) (s : State) : State :=
  s.note (.connectionClosed c.rx c.tx c.stopping c.shutdown c.close)

/-- A host for scripted connections, which may note their start and end. -/
def SceneHost.new (idleTimeout : Duration) (recvBuffer : Nat) (hooks : Bool) : SceneHost where
  socket := MemorySocket.socket
  protocol := Binding.protocol MemorySocket.socket.toSender
  idleTimeout := idleTimeout.nanoseconds
  recvBuffer := recvBuffer
  onOpen := if hooks then noteOpened else fun _ s => s
  onClose := if hooks then noteClosed else fun _ s => s

/-- What happens to the connection from outside. -/
inductive Cue where
  | input (bytes : Bytes)
  /-- The peer is done sending. -/
  | ended
  | spurious
  | recvFault (fault : Fault)
  | sendFault (fault : Fault)
  | readFault (fault : Fault)
  | writeFault (fault : Fault)
  | refuseShutdown
  /-- How much the peer still takes. -/
  | window (room : Option Nat)
  /-- The server stops. -/
  | stop
  /-- A worker goes on with a responder that was put aside. -/
  | respond (call : Nat) (actions : List WebAction)
  /-- The kept sender posts an item. -/
  | sendLater (item : Item)
  /-- Lets go of the outbox, and then takes hold of it if so told. -/
  | lock (hold : Bool)
  /-- Items for the outbox, through the hold on it if there is one. -/
  | post (items : List Item)
  /-- Lets the connection run, moves the clock, and lets it run again. -/
  | advance (time : Duration)
  deriving Inhabited, Repr

/-- What a cue for the outbox came to. -/
inductive Answer where
  /-- The outbox is held, with so many items in it. -/
  | held (queued : Nat)
  | posted (result : Except LockFault Unit)
  | refused (fault : LockFault)
  /-- Nothing outside can reach the connection. -/
  | unreachable
  deriving Inhabited, Repr

structure Rehearsal where
  host : SceneHost
  scene : Scene
  live : Server.Live
  /-- The application gave out a way to reach the connection. -/
  reachable : Bool
  stopped : Bool := false
  now : Nat := 0

namespace Rehearsal

def onSocket (r : Rehearsal) (f : MemorySocket → MemorySocket) : Rehearsal :=
  { r with scene := { r.scene with io := f r.scene.io } }

def onDesk (r : Rehearsal) (f : Desk State → Desk State) : Rehearsal :=
  { r with scene := { r.scene with desk := f r.scene.desk } }

/-- The connection is over. -/
def done (r : Rehearsal) : Bool := r.scene.phase = .closed

/-- Lets the connection run until it waits; one that ends no longer counts. -/
def run (r : Rehearsal) : Rehearsal :=
  if r.done then r
  else
    let scene := r.scene.runToRest r.host r.stopped r.now
    { r with scene, live := if scene.phase = .closed then r.live.leave else r.live }

/-- A connection that was just accepted. -/
def new (host : SceneHost) (service : Service State) (socket : MemorySocket) (maxIovec live : Nat)
    (reachable : Bool) : Rehearsal :=
  let scene := Connection.launch host { maxIovec } service.toSuccessor {} socket 0
  let r : Rehearsal := { host, scene, live := { count := live }, reachable }
  if r.done then { r with live := r.live.leave } else r.run

/-- Posts an item, through the hold if there is one. -/
def postOne (o : Outbox) (item : Item) : Outbox × Answer :=
  if o.locked then (o.push item, .held (o.push item).items.length)
  else
    let (o, result) := o.post item
    (o, .posted result)

/-- Posts items one after another, and gives the last answer. -/
def postAll : List Item → Outbox → Option Answer → Outbox × Option Answer
  | [], o, answer => (o, answer)
  | item :: items, o, _ =>
    let (o, answer) := postOne o item
    postAll items o (some answer)

def relock (o : Outbox) (hold : Bool) : Outbox × Option Answer :=
  let o := o.unlock
  if !hold then (o, none)
  else match o.tryLock with
    | .ok o => (o, some (.held o.items.length))
    | .error fault => (o, some (.refused fault))

/-- Follows a cue, and gives the answer if it has one. -/
def follow (r : Rehearsal) (answer : Option Answer) : Cue → Rehearsal × Option Answer
  | .input bytes => (r.onSocket fun s => { s with input := s.input ++ bytes }, answer)
  | .ended => (r.onSocket fun s => { s with ended := true }, answer)
  | .spurious => (r.onSocket fun s => { s with spurious := true }, answer)
  | .recvFault fault => (r.onSocket fun s => { s with recvFault := some fault }, answer)
  | .sendFault fault => (r.onSocket fun s => { s with sendFault := some fault }, answer)
  | .readFault fault => (r.onSocket fun s => { s with readFault := some fault }, answer)
  | .writeFault fault => (r.onSocket fun s => { s with writeFault := some fault }, answer)
  | .refuseShutdown => (r.onSocket fun s => { s with refusesShutdown := true }, answer)
  | .window room => (r.onSocket fun s => { s with window := room }, answer)
  | .stop => ({ r with stopped := true }, answer)
  | .respond call actions => (r.onDesk (App.respond · call actions), answer)
  | .sendLater item => (r.onDesk (App.sendLater · item), answer)
  | .lock hold =>
    if !r.reachable then (r, answer)
    else
      let (o, answer) := relock r.scene.desk.outbox hold
      ({ r with scene := r.scene.setOutbox o }, answer)
  | .post items =>
    if !r.reachable then (r, if items.isEmpty then answer else some .unreachable)
    else
      let (o, answer) := postAll items r.scene.desk.outbox answer
      ({ r with scene := r.scene.setOutbox o }, answer)
  | .advance time => ({ r.run with now := r.now + time.nanoseconds }, answer)

/-- Follows cues in their order. -/
def followAll : List Cue → Rehearsal → Option Answer → Rehearsal × Option Answer
  | [], r, answer => (r, answer)
  | cue :: cues, r, answer =>
    let (r, answer) := r.follow answer cue
    followAll cues r answer

/-- Follows cues, lets the connection run, and gives the last answer. -/
def act (r : Rehearsal) (cues : List Cue) : Rehearsal × Option Answer :=
  let (r, answer) := followAll cues r none
  (r.run, answer)

/-- What was logged and written since the last look. -/
def look (r : Rehearsal) : Rehearsal × List Entry × Bytes :=
  let (app, entries) := r.scene.desk.app.takeLog
  let (io, written) := r.scene.io.takeWritten
  ({ r with scene := { r.scene with io, desk := { r.scene.desk with app } } }, entries, written)

end Rehearsal

end WireServer.App
