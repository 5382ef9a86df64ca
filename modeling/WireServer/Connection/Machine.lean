import WireServer.Connection.Protocol
import WireServer.Net.Socket

/-! One connection from the first callback to the last. Events come one at a time; each is handed to
the session, and then the requests that the callback left are carried out. A half-close shuts the
sending side alone: input is still received and thrown away, so that a peer in the middle of
sending does not see a reset. -/

namespace WireServer

namespace Connection

inductive Phase where
  | open
  /-- Nothing is sent any more; input is thrown away. -/
  | halfClosed
  /-- The last callbacks run. -/
  | closing
  | closed
  deriving DecidableEq, Inhabited, Repr

/-- What a connection runs on. Times are in nanoseconds. -/
structure Host (τ σ α π : Type) where
  socket : Net.Socket τ
  protocol : Protocol τ σ α π
  /-- A connection on which nothing happens for so long is closed. -/
  idleTimeout : Nat
  /-- The most that is received at a time. -/
  recvBuffer : Nat
  /-- The application is told of a new connection. -/
  onOpen : Context π → α → α := fun _ app => app
  /-- The application is told that a connection is over. -/
  onClose : Context π → α → α := fun _ app => app
  /-- A half-close is put on record. -/
  onHalfClose : α → α := id
  /-- At most so many more protocols take over at once behind one that took over. -/
  further : Nat := 0

inductive Event where
  | stop
  /-- A stored wakeup. -/
  | wakeup
  /-- The socket can be read, or cannot be watched for that. -/
  | readable (broken : Option Net.Fault)
  | writable (broken : Option Net.Fault)
  /-- Nothing happened for too long. -/
  | idle
  deriving DecidableEq, Inhabited, Repr

end Connection

structure Connection (τ σ α π : Type) where
  phase : Connection.Phase := .open
  ctx : Context π
  /-- The session, until the connection closes. -/
  session : Option σ
  desk : Desk α
  io : τ
  /-- When the socket was last ready. -/
  lastActive : Nat
  deriving DecidableEq, Inhabited, Repr

namespace Connection

variable {τ σ α π : Type}

/-- Takes over what a callback worked on. -/
def put (c : Connection τ σ α π) (t : Turn σ α π) : Connection τ σ α π :=
  { c with ctx := t.ctx, session := some t.session, desk := t.desk }

def setOutbox (c : Connection τ σ α π) (o : Outbox) : Connection τ σ α π :=
  { c with desk := { c.desk with outbox := o } }

/-- The session goes away, whether its last callback fails or not. -/
def dismiss (h : Host τ σ α π) (c : Connection τ σ α π) :
    Connection τ σ α π × Except Failure Unit :=
  match c.session with
  | none => (c, .ok ())
  | some s =>
    let (t, result) := h.protocol.cleanup ⟨c.ctx, s, c.desk⟩
    ({ c with ctx := t.ctx, session := none, desk := t.desk }, result)

def release (h : Host τ σ α π) (c : Connection τ σ α π) : Connection τ σ α π := (c.dismiss h).1

/-- Ends the connection, unless that is done or under way. -/
def close (h : Host τ σ α π) (c : Connection τ σ α π) : Connection τ σ α π :=
  if c.phase = .closing ∨ c.phase = .closed then c
  else
    let c := ({ c with phase := .closing }.setOutbox c.desk.outbox.shut).release h
    { c with phase := .closed, desk := { c.desk with app := h.onClose c.ctx c.desk.app } }

/-- Runs a callback on the session and goes on; a failure ends the connection instead. -/
def callback (h : Host τ σ α π) (f : Turn σ α π → Turn σ α π × Except Failure Unit)
    (next : Connection τ σ α π → Connection τ σ α π) (c : Connection τ σ α π) :
    Connection τ σ α π :=
  match c.session with
  | none => c
  | some s =>
    match f ⟨c.ctx, s, c.desk⟩ with
    | (t, .ok ()) => next (c.put t)
    | (t, .error _) => (c.put t).close h

/-- Shuts the sending side. A socket that refuses is closed. -/
def halfClose (h : Host τ σ α π) (c : Connection τ σ α π) : Connection τ σ α π :=
  let c := { c with desk := { c.desk with app := h.onHalfClose c.desk.app } }
  match h.socket.shutdownWrite c.io with
  | none => c.close h
  | some io => { c with io, phase := .halfClosed, ctx := { c.ctx with tx := false, rx := true } }

/-- Carries out what a callback asked for, a switch of protocols apart. -/
def settle (h : Host τ σ α π) (c : Connection τ σ α π) : Connection τ σ α π :=
  if c.ctx.close then c.close h
  else
    let settled := { c with ctx := { c.ctx with shutdown := false } }
    if c.ctx.shutdown ∧ c.phase = .open then settled.halfClose h else settled

/-- Hands input to the session until all of it is used up, at most `n` times. A session that uses
none of it is not asked again, unless another one takes over. -/
def feedUpTo (h : Host τ σ α π) (next : Connection τ σ α π → Connection τ σ α π) :
    Nat → Bytes → Connection τ σ α π → Connection τ σ α π
  | 0, _, c => c
  | n + 1, data, c =>
    if data.isEmpty ∨ c.phase ≠ .open then c
    else match c.session with
      | none => c
      | some s =>
        match h.protocol.read ⟨c.ctx, s, c.desk⟩ data with
        | (t, .error _) => (c.put t).close h
        | (t, .ok used) =>
          let c := next (c.put t)
          if used = 0 ∧ t.ctx.transition.isNone then c
          else feedUpTo h next n (data.drop used) c

/-- Hands input to the session until all of it is used up. Of all calls but the last, each uses up
some of it or is one behind which another protocol takes over. -/
def feed (h : Host τ σ α π) (data : Bytes) (next : Connection τ σ α π → Connection τ σ α π) :
    Connection τ σ α π → Connection τ σ α π :=
  feedUpTo h next (data.length + h.further + 1) data

/-- A fresh session, if its protocol gives one. -/
def install (h : Host τ σ α π) (next : Connection τ σ α π → Connection τ σ α π) (successor : π)
    (c : Connection τ σ α π) : Connection τ σ α π :=
  match h.protocol.bind successor ⟨c.ctx, (), c.desk⟩ with
  | (t, .ok s) =>
    callback h h.protocol.ready next { c with ctx := t.ctx, session := some s, desk := t.desk }
  | (t, .error _) => { c with ctx := t.ctx, desk := t.desk }.close h

/-- Goes on with input that is left over, if the connection still wants any. -/
def resume (h : Host τ σ α π) (next : Connection τ σ α π → Connection τ σ α π) (leftover : Bytes)
    (c : Connection τ σ α π) : Connection τ σ α π :=
  if leftover.isEmpty ∨ c.phase ≠ .open then c else feed h leftover next c

/-- Another protocol takes over, with the input that the old session had not used. -/
def switch (h : Host τ σ α π) (next : Connection τ σ α π → Connection τ σ α π) (successor : π)
    (c : Connection τ σ α π) : Connection τ σ α π :=
  match c.session with
  | none => c
  | some s =>
    let (t, leftover) := h.protocol.takeLeftover ⟨c.ctx, s, c.desk⟩
    match (c.put t).dismiss h with
    | (c, .ok ()) => (c.install h next successor).resume h next leftover
    | (c, .error _) => c.close h

/-- Carries out what a callback asked for, with at most `n` protocols that take over one behind the
other. -/
def applyUpTo (h : Host τ σ α π) : Nat → Connection τ σ α π → Connection τ σ α π
  | 0, c => c.settle h
  | n + 1, c =>
    if c.ctx.close then c.close h
    else match c.ctx.transition with
      | none => c.settle h
      | some successor =>
        ({ c with ctx := { c.ctx with transition := none } }.switch h (applyUpTo h n)
          successor).settle h

/-- Carries out what a callback asked for. -/
def apply (h : Host τ σ α π) : Connection τ σ α π → Connection τ σ α π :=
  applyUpTo h (h.further + 1)

/-- A new connection on a socket, which speaks a protocol. -/
def launch (h : Host τ σ α π) (ctx : Context π) (first : π) (app : α) (io : τ) (now : Nat) :
    Connection τ σ α π :=
  install h (apply h) first {
    ctx, session := none, desk := { app := h.onOpen ctx app }, io, lastActive := now }

/-- A new connection on a socket, with its first session. -/
def start (h : Host τ σ α π) (ctx : Context π) (s : σ) (app : α) (io : τ) (now : Nat) :
    Connection τ σ α π :=
  callback h h.protocol.ready (apply h) {
    ctx := { ctx with rx := true }, session := some s, desk := { app := h.onOpen ctx app },
    io, lastActive := now }

/-- Receives and throws away, until nothing is there or the socket fails. -/
def drain (h : Host τ σ α π) : Nat → τ → τ
  | 0, io => io
  | n + 1, io =>
    match h.socket.recv io h.recvBuffer with
    | (io, .data []) => io
    | (io, .data _) => drain h n io
    | (io, .failed .interrupted) => drain h n io
    | (io, .failed _) => io

def onReadable (h : Host τ σ α π) (c : Connection τ σ α π) : Connection τ σ α π :=
  if c.phase = .halfClosed then { c with io := drain h (h.socket.backlog c.io) c.io }.close h
  else match h.socket.recv c.io h.recvBuffer with
    | (io, .data []) => { c with io }.close h
    | (io, .data bytes) => feed h bytes (apply h) { c with io }
    | (io, .failed fault) => if fault.transient then { c with io } else { c with io }.close h

def onWritable (h : Host τ σ α π) (c : Connection τ σ α π) : Connection τ σ α π :=
  match c.session with
  | none => { c with ctx := { c.ctx with tx := false } }
  | some s =>
    match h.protocol.write ⟨c.ctx, s, c.desk⟩ c.io with
    | (t, io, .ok _) => { c with io }.put t |>.apply h
    | (t, io, .error _) => { c with io }.put t |>.close h

/-- Takes the items out of the outbox. While another holds it, the wakeup stays. -/
def onWakeup (h : Host τ σ α π) (c : Connection τ σ α π) : Connection τ σ α π :=
  match c.desk.outbox.settle.take with
  | (o, none) | (o, some []) => c.setOutbox o
  | (o, some items) => callback h (h.protocol.wakeup · items) (apply h) (c.setOutbox o)

def onStop (h : Host τ σ α π) (c : Connection τ σ α π) : Connection τ σ α π :=
  let c := { c with ctx := { c.ctx with stopping := true } }
  if c.phase = .open then callback h h.protocol.stop (apply h) c else c

/-- The connection waits for the event. It sees a stop only once. -/
def awaits (c : Connection τ σ α π) : Event → Bool
  | .stop => !c.ctx.stopping
  | .wakeup => c.desk.outbox.awake
  | .readable _ => c.ctx.rx
  | .writable _ => c.ctx.tx && c.phase = .open
  | .idle => true

/-- Handles an event; one that the connection does not wait for passes by. -/
def handle (h : Host τ σ α π) (now : Nat) (c : Connection τ σ α π) (e : Event) :
    Connection τ σ α π :=
  if c.phase = .closed ∨ !c.awaits e then c
  else match e with
    | .stop => c.onStop h
    | .wakeup => c.onWakeup h
    | .readable none => { c with lastActive := now }.onReadable h
    | .writable none => { c with lastActive := now }.onWritable h
    | .readable (some _) | .writable (some _) | .idle => c.close h

/-- The event that a socket's readiness makes. -/
def readinessEvent? (e : Option Net.Fault → Event) : Net.Readiness → Option Event
  | .waiting => none
  | .ready => some (e none)
  | .broken fault => some (e (some fault))

/-- The events that are there, the most urgent first. -/
def arrived (h : Host τ σ α π) (stop : Bool) (now : Nat) (c : Connection τ σ α π) : List Event :=
  (if stop then [.stop] else []) ++ [.wakeup] ++
    (readinessEvent? .readable (h.socket.readable c.io)).toList ++
    (readinessEvent? .writable (h.socket.writable c.io)).toList ++
    (if c.lastActive + h.idleTimeout ≤ now then [.idle] else [])

/-- The next event to handle. A wakeup that cannot be answered, because another holds the outbox,
lets nothing pass but a stop. -/
def next? (h : Host τ σ α π) (stop : Bool) (now : Nat) (c : Connection τ σ α π) : Option Event :=
  if c.phase = .closed then none
  else match (c.arrived h stop now).find? c.awaits with
    | some .wakeup => if c.desk.outbox.locked then none else some .wakeup
    | e => e

/-- Handles what is there, at most `n` events. -/
def run (h : Host τ σ α π) (stop : Bool) (now : Nat) :
    Nat → Connection τ σ α π → Connection τ σ α π
  | 0, c => c
  | n + 1, c =>
    match c.next? h stop now with
    | none => c
    | some e => run h stop now n (c.handle h now e)

/-- More events than any socket and any application bring about while the clock stands still. -/
def eventLimit : Nat := 1000000000000

/-- Handles what is there, until the connection waits. -/
def runToRest (h : Host τ σ α π) (stop : Bool) (now : Nat) (c : Connection τ σ α π) :
    Connection τ σ α π :=
  c.run h stop now eventLimit

end Connection

end WireServer
