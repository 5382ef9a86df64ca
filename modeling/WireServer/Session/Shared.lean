import WireServer.Session.Outbox

/-! One outbox in many hands. Any number of workers and the reactor go step by step, in any order;
a step is a single access to what they share: the closing mark, the lock, the items under the lock,
or the stored wakeup. -/

namespace WireServer.Outbox

/-- How often a post tries a lock that another holds. -/
def postAttempts : Nat := 64

/-- The lock, if it is free. -/
def acquire? (o : Outbox) : Option Outbox :=
  if o.locked then none else some { o with locked := true }

/-- Queues an item, without a wakeup. -/
def append (o : Outbox) (item : Item) : Outbox := { o with items := o.items ++ [item] }

/-- Stores a wakeup. One that finds the reactor waiting counts as stored until the reactor has
used it up. -/
def wake (o : Outbox) : Outbox := { o with awake := true }

def markClosing (o : Outbox) : Outbox := { o with closing := true }

/-- Drops the items. -/
def clear (o : Outbox) : Outbox := { o with items := [] }

/-! ### Workers -/

/-- What a worker wants the lock for. -/
inductive Errand where
  /-- To keep it for a while. -/
  | hold
  /-- To queue one item, with so many attempts left behind the one under way. -/
  | post (item : Item) (left : Nat)
  deriving DecidableEq, Inhabited, Repr

/-- The errand after an attempt for which the lock was not free. -/
def Errand.again? : Errand → Option Errand
  | .hold | .post _ 0 => none
  | .post item (left + 1) => some (.post item left)

/-- Where a worker stands. -/
inductive Stage where
  | idle
  /-- About to look whether the connection is closing. -/
  | asking (e : Errand)
  /-- It was not closing; about to try the lock. -/
  | trying (e : Errand)
  /-- Has the lock. -/
  | holding (e : Errand)
  /-- Has the lock and queued an item, but no wakeup for it yet. -/
  | notifying (e : Errand)
  /-- Has the lock, and is about to give it back. -/
  | leaving
  deriving DecidableEq, Inhabited, Repr

def Stage.holds : Stage → Bool
  | .idle | .asking _ | .trying _ => false
  | .holding _ | .notifying _ | .leaving => true

def Stage.notifies : Stage → Bool
  | .notifying _ => true
  | _ => false

/-- What a worker does next. -/
inductive Act where
  /-- Begins to ask for the lock. -/
  | lock
  /-- Begins to post an item. -/
  | post (item : Item)
  /-- Goes on with what it began. -/
  | go
  /-- Queues an item under the lock that it keeps. -/
  | push (item : Item)
  /-- Gives back the lock that it keeps. -/
  | release
  deriving DecidableEq, Inhabited, Repr

/-- The act begins a call that will be answered. -/
def Act.calls : Act → Bool
  | .lock | .post _ => true
  | .go | .push _ | .release => false

/-- What comes of a worker's step. -/
structure Effect where
  outbox : Outbox
  stage : Stage
  pushed : List Item := []
  answer? : Option (Except LockFault Unit) := none

namespace Stage

/-- One step of a call. A worker with nothing to go on with stays where it is. -/
def go (o : Outbox) : Stage → Effect
  | .asking e =>
    if o.closing then { outbox := o, stage := .idle, answer? := some (.error .gone) }
    else { outbox := o, stage := .trying e }
  | .trying e =>
    match o.acquire?, e with
    | some o, .hold => { outbox := o, stage := .holding .hold, answer? := some (.ok ()) }
    | some o, .post item left => { outbox := o, stage := .holding (.post item left) }
    | none, e =>
      match e.again? with
      | some e => { outbox := o, stage := .asking e }
      | none => { outbox := o, stage := .idle, answer? := some (.error .contended) }
  | .holding (.post item left) =>
    { outbox := o.append item, stage := .notifying (.post item left), pushed := [item] }
  | .notifying .hold => { outbox := o.wake, stage := .holding .hold }
  | .notifying (.post _ _) => { outbox := o.wake, stage := .leaving }
  | .leaving => { outbox := o.unlock, stage := .idle, answer? := some (.ok ()) }
  | .idle => { outbox := o, stage := .idle }
  | .holding .hold => { outbox := o, stage := .holding .hold }

/-- One step of a worker. What it cannot do where it stands comes to nothing. -/
def act (o : Outbox) : Stage → Act → Effect
  | st, .go => st.go o
  | .idle, .lock => { outbox := o, stage := .asking .hold }
  | .idle, .post item => { outbox := o, stage := .asking (.post item (postAttempts - 1)) }
  | .holding .hold, .push item =>
    { outbox := o.append item, stage := .notifying .hold, pushed := [item] }
  | .holding .hold, .release => { outbox := o.unlock, stage := .idle }
  | st, _ => { outbox := o, stage := st }

end Stage

/-! ### The reactor -/

/-- Where the reactor stands. -/
inductive Reactor where
  /-- Between two events. -/
  | resting
  /-- In the midst of an event. -/
  | busy
  /-- About to try the lock, to take the items. -/
  | reaching
  | taking
  /-- Another holds the lock; about to store a wakeup. -/
  | rearming
  /-- About to mark the connection as closing. -/
  | marking
  /-- It is marked; about to try the lock, to drop the items. -/
  | clearing
  | dropping
  deriving DecidableEq, Inhabited, Repr

namespace Reactor

def holds : Reactor → Bool
  | .taking | .dropping => true
  | _ => false

/-- The items will be taken, or a wakeup stored for them. -/
def reaches : Reactor → Bool
  | .reaching | .taking | .rearming => true
  | _ => false

/-- What the reactor does next. -/
inductive Act where
  /-- Uses up a stored wakeup, for which it takes the items. -/
  | wakeup
  /-- Begins another event. -/
  | event
  /-- Begins to take the items, in the midst of an event. -/
  | take
  /-- Begins to close the connection. -/
  | shut
  /-- Goes on with what it began. -/
  | go
  /-- The event is over. -/
  | rest
  deriving DecidableEq, Inhabited, Repr

/-- What comes of a step of the reactor. -/
structure Effect where
  outbox : Outbox
  reactor : Reactor
  taken : List Item := []

/-- One step of a call. -/
def go (o : Outbox) : Reactor → Effect
  | .reaching =>
    match o.acquire? with
    | some o => { outbox := o, reactor := .taking }
    | none => { outbox := o, reactor := .rearming }
  | .taking => { outbox := o.clear.unlock, reactor := .busy, taken := o.items }
  | .rearming => { outbox := o.wake, reactor := .busy }
  | .marking => { outbox := o.markClosing, reactor := .clearing }
  | .clearing =>
    match o.acquire? with
    | some o => { outbox := o, reactor := .dropping }
    | none => { outbox := o, reactor := .busy }
  | .dropping => { outbox := o.clear.unlock, reactor := .busy }
  | .resting => { outbox := o, reactor := .resting }
  | .busy => { outbox := o, reactor := .busy }

/-- One step of the reactor. What it cannot do where it stands comes to nothing. -/
def act (o : Outbox) : Reactor → Act → Effect
  | r, .go => r.go o
  | .resting, .wakeup =>
    if o.awake then { outbox := o.settle, reactor := .reaching }
    else { outbox := o, reactor := .resting }
  | .resting, .event => { outbox := o, reactor := .busy }
  | .busy, .take => { outbox := o, reactor := .reaching }
  | .busy, .shut => { outbox := o, reactor := .marking }
  | .busy, .rest => { outbox := o, reactor := .resting }
  | r, _ => { outbox := o, reactor := r }

end Reactor

/-! ### All of them -/

/-- An outbox with all who use it, and the record of what came of it. -/
structure Shared where
  outbox : Outbox := {}
  /-- Workers by their numbers. -/
  worker : Nat → Stage := fun _ => .idle
  reactor : Reactor := .resting
  /-- All items that were ever pushed, in the order of the pushes. -/
  pushed : List Item := []
  /-- All items that were ever taken, in the order of the takes. -/
  taken : List Item := []
  /-- What came of the workers' calls. -/
  answers : List (Nat × Except LockFault Unit) := []

/-- A step of one of them. -/
inductive Move where
  | worker (w : Nat) (a : Act)
  | reactor (a : Reactor.Act)
  deriving DecidableEq, Inhabited, Repr

namespace Shared

def workerStep (s : Shared) (w : Nat) (e : Effect) : Shared :=
  { s with
    outbox := e.outbox
    worker := fun v => if v = w then e.stage else s.worker v
    pushed := s.pushed ++ e.pushed
    answers := s.answers ++ (e.answer?.map (w, ·)).toList }

def reactorStep (s : Shared) (e : Reactor.Effect) : Shared :=
  { s with outbox := e.outbox, reactor := e.reactor, taken := s.taken ++ e.taken }

def step (s : Shared) : Move → Shared
  | .worker w a => s.workerStep w ((s.worker w).act s.outbox a)
  | .reactor a => s.reactorStep (s.reactor.act s.outbox a)

/-- Steps one after another. -/
def run (s : Shared) (moves : List Move) : Shared := moves.foldl step s

end Shared

end WireServer.Outbox
