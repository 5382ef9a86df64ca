import WireServer.Session.Failure
import WireServer.Session.Outbox

/-! Responders: the right to answer one request, once. A responder that goes away before it is
done posts an abort. -/

namespace WireServer.Http

structure Responder where
  slot : Nat
  /-- The head of a response in pieces was sent. -/
  started : Bool := false
  deriving DecidableEq, Inhabited, Repr

namespace Responder

def post (r : Responder) (part : Part) (o : Outbox) : Outbox × Except Refusal Unit :=
  o.send (.answer r.slot part)

/-- Gives the responder up. -/
def drop (r : Responder) (o : Outbox) : Outbox := (r.post .abort o).1

/-- A whole response, and the end of the responder. -/
def send (r : Responder) (response : Response) (o : Outbox) : Outbox × Except Refusal Unit :=
  if r.started then (r.drop o, .error .closing) else r.post (.full response) o

/-- The end of a response in pieces, and of the responder. -/
def finish (r : Responder) (o : Outbox) : Outbox × Except Refusal Unit :=
  if r.started then r.post .finish o else (r.drop o, .error .closing)

/-- The head of a response in pieces. -/
def start (r : Responder) (head : ResponseHead) (o : Outbox) :
    Responder × Outbox × Except Refusal Unit :=
  if r.started then (r, o, .error .closing) else ({ r with started := true }, r.post (.head head) o)

def write (r : Responder) (data : Bytes) (o : Outbox) : Outbox × Except Refusal Unit :=
  if r.started then r.post (.data data) o else (o, .error .closing)

end Responder

/-- What an action on a responder gave. -/
inductive Reply where
  | done
  | refused (cause : Refusal)
  /-- The responder was gone before. -/
  | noResponder
  deriving DecidableEq, Inhabited, Repr

def Reply.ofResult : Except Refusal Unit → Reply
  | .ok () => .done
  | .error cause => .refused cause

/-- What an application does with a responder: a tree of actions, each going on with the reply to
it. Nothing else reaches the connection. -/
inductive Program (α : Type) where
  | done (app : α) (outcome : Outcome)
  | send (response : Response) (next : Reply → Program α)
  | start (head : ResponseHead) (next : Reply → Program α)
  | write (data : Bytes) (next : Reply → Program α)
  | finish (next : Reply → Program α)
  | drop (next : Reply → Program α)
  /-- Puts the responder aside under a number. -/
  | defer (key : Nat) (next : Reply → Program α)

/-- Responders put aside, by number. -/
abbrev Shelf := List (Nat × Responder)

/-- A program at work: the responder while there is one, the outbox, and the responders put
aside. -/
structure Bench where
  responder : Option Responder
  outbox : Outbox
  shelf : Shelf
  deriving DecidableEq, Inhabited, Repr

namespace Bench

def send (b : Bench) (response : Response) : Bench × Reply :=
  match b.responder with
  | none => (b, .noResponder)
  | some r =>
    let (outbox, result) := r.send response b.outbox
    ({ b with responder := none, outbox }, .ofResult result)

def start (b : Bench) (head : ResponseHead) : Bench × Reply :=
  match b.responder with
  | none => (b, .noResponder)
  | some r =>
    let (r, outbox, result) := r.start head b.outbox
    ({ b with responder := some r, outbox }, .ofResult result)

def write (b : Bench) (data : Bytes) : Bench × Reply :=
  match b.responder with
  | none => (b, .noResponder)
  | some r =>
    let (outbox, result) := r.write data b.outbox
    ({ b with outbox }, .ofResult result)

def finish (b : Bench) : Bench × Reply :=
  match b.responder with
  | none => (b, .noResponder)
  | some r =>
    let (outbox, result) := r.finish b.outbox
    ({ b with responder := none, outbox }, .ofResult result)

def drop (b : Bench) : Bench × Reply :=
  match b.responder with
  | none => (b, .noResponder)
  | some r => ({ b with responder := none, outbox := r.drop b.outbox }, .done)

def defer (b : Bench) (key : Nat) : Bench × Reply :=
  match b.responder with
  | none => (b, .noResponder)
  | some r => ({ b with responder := none, shelf := b.shelf ++ [(key, r)] }, .done)

/-- The end of a program: a responder that is still there goes away with it. -/
def leave (b : Bench) : Bench := b.drop.1

end Bench

/-- Runs a program to its end. -/
def Program.run {α : Type} : Program α → Bench → Bench × α × Outcome
  | .done app outcome, b => (b.leave, app, outcome)
  | .send response next, b => (next (b.send response).2).run (b.send response).1
  | .start head next, b => (next (b.start head).2).run (b.start head).1
  | .write data next, b => (next (b.write data).2).run (b.write data).1
  | .finish next, b => (next b.finish.2).run b.finish.1
  | .drop next, b => (next b.drop.2).run b.drop.1
  | .defer key next, b => (next (b.defer key).2).run (b.defer key).1

end WireServer.Http
