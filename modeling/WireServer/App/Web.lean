import WireServer.App.Log

/-! Scripted answers to HTTP requests: a list of actions for each path. -/

namespace WireServer.App

/-- What a script does with a responder. -/
inductive WebAction where
  | send (response : Http.Response)
  | text (status : Http.Status) (body : Bytes)
  | empty (status : Http.Status)
  | start (head : Http.ResponseHead)
  | write (data : Bytes)
  | finish
  | drop
  | defer
  | fail (cause : String)
  | panic (cause : String)
  deriving DecidableEq, Inhabited, Repr

namespace WebAction

/-- The actions one after another, each with an entry in the log. A responder is put aside under the
number of the call, without an entry. -/
def program (call : Nat) : List WebAction → State → Http.Program State
  | [], s => .done s .ok
  | .fail cause :: _, s => .done s (.failed cause)
  | .panic cause :: _, s => .done s (.panicked cause)
  | .send r :: rest, s => .send r fun reply => program call rest (s.note (.did "send" reply))
  | .text status body :: rest, s =>
    .send (.text status body) fun reply => program call rest (s.note (.did "text" reply))
  | .empty status :: rest, s =>
    .send (.empty status) fun reply => program call rest (s.note (.did "empty" reply))
  | .start head :: rest, s =>
    .start head fun reply => program call rest (s.note (.did "start" reply))
  | .write data :: rest, s =>
    .write data fun reply => program call rest (s.note (.did "write" reply))
  | .finish :: rest, s => .finish fun reply => program call rest (s.note (.did "finish" reply))
  | .drop :: rest, s => .drop fun reply => program call rest (s.note (.did "drop" reply))
  | .defer :: rest, s =>
    .defer call fun reply =>
      program call rest (if reply = .done then s else s.note (.did "defer" reply))

end WebAction

/-- Scripts by path. -/
abbrev Routes := List (Bytes × List WebAction)

/-- The answer without a script: method, path and body. -/
def echoRequest (r : Http.Request) : Http.Response :=
  .text 200 (r.head.method ++ [0x20] ++ r.head.uri.path ++ r.body)

/-- Answers with the echo; a refusal is the failure of the callback. -/
def defaultProgram (r : Http.Request) (s : State) : Http.Program State :=
  .send (echoRequest r) fun
    | .refused cause => .done s (.failed cause.message)
    | _ => .done s .ok

/-- Notes the request and runs the script of its path. -/
def webHandler (routes : Routes) (s : State) (r : Http.Request) : Http.Program State :=
  let call := s.requests
  let s := { s with requests := call + 1 }.note (.request call r)
  match routes.find? fun route => route.1 == r.head.uri.path with
  | some route => WebAction.program call route.2 s
  | none => defaultProgram r s

/-- A worker takes the responder of a call and runs a script on it. -/
def respond (d : Desk State) (call : Nat) (actions : List WebAction) : Desk State :=
  match d.shelf.find? fun held => held.1 == call with
  | none => { d with app := d.app.note .nothingHeld }
  | some held =>
    let shelf := d.shelf.filter fun held => held.1 != call
    let bench : Http.Bench := ⟨some held.2, d.outbox, shelf⟩
    let (bench, s, outcome) := (WebAction.program call actions d.app).run bench
    let s := match outcome with
      | .failed cause => s.note (.workerFailed cause)
      | _ => s
    ⟨s, bench.outbox, bench.shelf⟩

end WireServer.App
