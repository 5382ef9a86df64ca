import WireServer.Http.Chunked
import WireServer.Http.RequestHead
import WireServer.Http.Response
import WireServer.Net.Chain

/-! The response to one request while it is being answered: parts come in, and wire bytes go out.
Each request has its own, in the order in which the requests came. -/

namespace WireServer.Http

/-- How far a response is. -/
inductive Stage where
  | waiting
  /-- The head is out, and the body goes out in chunks. -/
  | chunks
  /-- Nothing is out: the client has to be told the length of the whole body. -/
  | gathering (head : ResponseHead) (body : Bytes)
  | complete
  deriving DecidableEq, Inhabited, Repr

/-- Why a part does not fit. -/
inductive Misfit where
  | alreadyComplete | alreadyStarted | dataBeforeHead | endBeforeHead
  deriving DecidableEq, Inhabited, Repr

/-- A response in progress; `π` are the protocols that a connection can switch to. -/
structure Pending (π : Type) where
  slot : Nat
  version : Version
  /-- The connection stays open behind this response. -/
  keepAlive : Bool
  acceptsChunked : Bool := false
  /-- The request asked for the head alone. -/
  headOnly : Bool := false
  sendsBody : Bool := true
  stage : Stage := .waiting
  out : Net.Chain := {}
  /-- The protocol that takes over behind this response. -/
  successor : Option π := none
  deriving DecidableEq, Inhabited, Repr

namespace Pending

variable {π : Type}

def ofRequest (slot : Nat) (r : RequestHead) (keepAlive : Bool) : Pending π where
  slot := slot
  version := r.version
  keepAlive := keepAlive
  acceptsChunked := r.acceptsChunked
  headOnly := r.isMethod "HEAD"

def isComplete (p : Pending π) : Bool := p.stage = .complete

def push (p : Pending π) (bs : Bytes) : Pending π := { p with out := p.out.push bs }

/-- Body bytes, where there is a body. -/
def pushBody (p : Pending π) (body : Bytes) : Pending π :=
  if p.sendsBody && !body.isEmpty then p.push body else p

/-- Decides whether a body is sent. -/
def begin (p : Pending π) (status : Status) : Pending π :=
  { p with sendsBody := !p.headOnly && status.allowsBody }

def connection : Bytes := fieldName "connection"

/-- The response says itself that the connection ends. -/
def asksToClose (head : ResponseHead) : Bool :=
  (head.fields.getAll connection).any (hasToken · (Bytes.ofString "close"))

/-- What is said about the connection: that it ends, or to an old client that it stays. -/
def connectionFields (p : Pending π) (head : ResponseHead) : Fields :=
  if head.status = 101 then head.fields
  else if !p.keepAlive then head.fields.insert connection (Bytes.ofString "close")
  else if p.version = .v10 then head.fields.insert connection (Bytes.ofString "keep-alive")
  else head.fields

/-- Queues the head, in the version of the request. -/
def pushHead (p : Pending π) (head : ResponseHead) (size : BodySize) : Pending π :=
  let p := if head.status ≠ 101 && asksToClose head then { p with keepAlive := false } else p
  let head := { head with version := p.version, fields := p.connectionFields head }
  p.push (head.wire size)

/-- A whole response. -/
def applyFull (p : Pending π) (r : Response) : Pending π :=
  let p := (p.begin r.head.status).pushHead r.head (.ofLength r.body.length)
  { p.pushBody r.body with stage := .complete }

/-- The head of a response in pieces. -/
def applyHead (p : Pending π) (head : ResponseHead) : Pending π :=
  let p := p.begin head.status
  if p.acceptsChunked then { p.pushHead head .chunked with stage := .chunks }
  else { p with stage := .gathering head [] }

/-- A chunk with the lines around it. -/
def pushChunk (p : Pending π) (data : Bytes) : Pending π :=
  ((p.push (Chunked.sizeLine data.length)).push data).push Chunked.chunkEnd

def applyData (p : Pending π) (data : Bytes) : Except Misfit (Pending π) :=
  match p.stage with
  | .waiting => .error .dataBeforeHead
  | .complete => .error .alreadyComplete
  | .chunks => .ok (if p.sendsBody && !data.isEmpty then p.pushChunk data else p)
  | .gathering head body =>
    .ok (if p.sendsBody then { p with stage := .gathering head (body ++ data) } else p)

def applyFinish (p : Pending π) : Except Misfit (Pending π) :=
  match p.stage with
  | .waiting => .error .endBeforeHead
  | .complete => .error .alreadyComplete
  | .chunks =>
    .ok { (if p.sendsBody then p.push Chunked.lastChunk else p) with stage := .complete }
  | .gathering head body =>
    .ok { (p.pushHead head (.ofLength body.length)).pushBody body with stage := .complete }

/-- The responder went away. While nothing is out, the answer is an error; chunks are cut short. In
either case the connection ends. -/
def applyAbort (p : Pending π) : Except Misfit (Pending π) :=
  let p := { p with keepAlive := false }
  match p.stage with
  | .complete => .error .alreadyComplete
  | .chunks => .ok { p with stage := .complete }
  | .waiting | .gathering _ _ =>
    .ok { (p.begin 200).pushHead { status := 500 } .empty with stage := .complete }

/-- Turns a part into output. A part out of sequence is refused and changes nothing. -/
def apply (p : Pending π) : Part → Except Misfit (Pending π)
  | .full r =>
    match p.stage with
    | .waiting => .ok (p.applyFull r)
    | .complete => .error .alreadyComplete
    | _ => .error .alreadyStarted
  | .head head =>
    match p.stage with
    | .waiting => .ok (p.applyHead head)
    | .complete => .error .alreadyComplete
    | _ => .error .alreadyStarted
  | .data bytes => p.applyData bytes
  | .finish => p.applyFinish
  | .abort => p.applyAbort

/-- The same where a refused part is dropped. -/
def accept (p : Pending π) (part : Part) : Pending π :=
  match p.apply part with
  | .ok p => p
  | .error _ => p

/-- A complete error response, which ends the connection. -/
def error (slot : Nat) (version : Version) (status : Status) : Pending π :=
  { slot, version, keepAlive := false : Pending π }.applyFull (.empty status)

end Pending

end WireServer.Http
