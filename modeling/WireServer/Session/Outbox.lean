import WireServer.Http.Response
import WireServer.Session.Refusal
import WireServer.WebSocket.Flags

/-! The outbox of a connection: output queued by others than the reactor, under a lock that nobody
waits for. At most one wakeup is stored, however often it was asked for. -/

namespace WireServer

/-- Output that waits for the protocol of its connection. -/
inductive Item where
  /-- A part of the answer to the request in a slot. -/
  | answer (slot : Nat) (part : Http.Part)
  | frame (flags : WebSocket.Flags) (payload : Bytes)
  | close (code : UInt16)
  deriving DecidableEq, Inhabited, Repr

structure Outbox where
  items : List Item := []
  /-- A holder outside the reactor has the lock. -/
  locked : Bool := false
  /-- A wakeup is stored. -/
  awake : Bool := false
  closing : Bool := false
  deriving DecidableEq, Inhabited, Repr

namespace Outbox

/-- The lock, if the connection is not closing and the lock is free. -/
def tryLock (o : Outbox) : Except LockFault Outbox :=
  if o.closing then .error .gone
  else if o.locked then .error .contended
  else .ok { o with locked := true }

def unlock (o : Outbox) : Outbox := { o with locked := false }

/-- Queues an item under the lock, and stores a wakeup. -/
def push (o : Outbox) (item : Item) : Outbox := { o with items := o.items ++ [item], awake := true }

/-- Locks, queues and unlocks. -/
def post (o : Outbox) (item : Item) : Outbox × Except LockFault Unit :=
  match o.tryLock with
  | .ok o => ((o.push item).unlock, .ok ())
  | .error e => (o, .error e)

/-- The same for a session, with its reasons to refuse. -/
def send (o : Outbox) (item : Item) : Outbox × Except Refusal Unit :=
  match o.post item with
  | (o, .ok ()) => (o, .ok ())
  | (o, .error e) => (o, .error (.ofLockFault e))

/-- The reactor's side: all items, or none while another holds the lock; then the wakeup is stored
again. -/
def take (o : Outbox) : Outbox × Option (List Item) :=
  if o.locked then ({ o with awake := true }, none) else ({ o with items := [] }, some o.items)

/-- Refuses items from now on, and drops those queued unless another holds the lock. -/
def shut (o : Outbox) : Outbox :=
  { o with closing := true, items := if o.locked then o.items else [] }

/-- Uses up the stored wakeup. -/
def settle (o : Outbox) : Outbox := { o with awake := false }

/-- How the holder of the lock shows. -/
def describeLock (o : Outbox) : String := s!"ConnGuard \x7b queued: {o.items.length} \x7d"

end Outbox

end WireServer
