import WireServer.Config.Error
import WireServer.Http.Pending
import WireServer.Http.RequestDecoder
import WireServer.Http.Upgrade
import WireServer.Session.Turn

/-! HTTP on one connection. Requests are decoded as they come in and handed to the application with
a responder; responses leave in the order of their requests, whatever order they are given in. -/

namespace WireServer.Http

/-- A request with its whole body. -/
structure Request where
  head : RequestHead
  body : Bytes := []
  deriving DecidableEq, Inhabited, Repr

/-- The protocol as it is served, for an application with state `α`; `π` are the protocols that a
connection can switch to. -/
structure Service (α π : Type) where
  handler : α → Request → Program α
  maxBody : Nat := defaultMaxBody
  upgrades : List (UpgradeHandler π) := []

namespace Service

variable {α π : Type}

/-- A service for a handler, which has to be there, with room for a body. -/
def build (handler : Option (α → Request → Program α)) (maxBody : Nat)
    (upgrades : List (UpgradeHandler π)) : Except StartError (Service α π) :=
  match handler with
  | none => .error (.invalidConfig "http handler must be set")
  | some handler =>
    if maxBody = 0 then .error (.invalidConfig "max_body_size must be positive")
    else .ok { handler, maxBody, upgrades }

/-- The handlers in their order, and then the one for HTTP/2 in plain text. -/
def upgradeChain (s : Service α π) : List (UpgradeHandler π) := s.upgrades ++ [.h2c]

/-- The settings, as a line of text. -/
def describe (s : Service α π) : String :=
  s!"HttpProtocol \x7b max_body_size: {s.maxBody}, upgrades: {s.upgradeChain.length}, .. \x7d"

end Service

inductive Mode where
  | serving
  /-- A switch of protocols is on its way out; input is kept for the next protocol. -/
  | upgrading
  /-- An error response is on its way out; input is thrown away. -/
  | failed
  deriving DecidableEq, Inhabited, Repr

/-- What happens once all output is sent. -/
inductive Ending (π : Type) where
  | shutdown
  | switchTo (next : π)
  deriving DecidableEq, Inhabited, Repr

structure Session (π : Type) where
  /-- Input that is not decoded yet. -/
  buffer : Bytes := []
  decoder : RequestDecoder := {}
  /-- The request whose body is being read. -/
  current : Option Request := none
  /-- Responses in the order of their requests; only the first may go out. -/
  pending : List (Pending π) := []
  nextSlot : Nat := 0
  out : Net.Chain := {}
  mode : Mode := .serving
  /-- False once a request was the last one. -/
  accepting : Bool := true
  ending : Option (Ending π) := none
  deriving DecidableEq, Inhabited, Repr

namespace Session

variable {α π : Type}

abbrev Turn (α π : Type) := WireServer.Turn (Session π) α π

def new (s : Service α π) : Session π := { decoder := { maxBody := s.maxBody } }

/-- Nothing is being read, answered or sent. -/
def isIdle (s : Session π) : Bool :=
  s.pending.isEmpty && s.current.isNone && s.out.buckets.isEmpty && s.ending.isNone

/-- Applies a part to the first response in its slot; a part for no response is dropped. -/
def applyToFirst (slot : Nat) (part : Part) : List (Pending π) → List (Pending π)
  | [] => []
  | p :: ps => if p.slot = slot then p.accept part :: ps else p :: applyToFirst slot part ps

def apply (s : Session π) (slot : Nat) (part : Part) : Session π :=
  { s with pending := applyToFirst slot part s.pending }

/-- An item from the outbox; frames have no place here. -/
def applyItem (s : Session π) : Item → Session π
  | .answer slot part => s.apply slot part
  | .frame _ _ | .close _ => s

/-- Moves the output of the first responses to the front. A response waits until all earlier ones
are complete; one that ends the connection or switches protocols drops what follows it. -/
def flushFront (s : Session π) : List (Pending π) → Session π
  | [] => { s with pending := [] }
  | p :: ps =>
    let s := { s with out := s.out.append p.out }
    if !p.isComplete then { s with pending := { p with out := {} } :: ps }
    else match p.successor with
      | some next =>
        { s with pending := [], ending := some (.switchTo next), accepting := false }
      | none =>
        if p.keepAlive then flushFront s ps
        else { s with pending := [], ending := some .shutdown, accepting := false }

def flushReady (s : Session π) : Session π := s.flushFront s.pending

/-- The end of the exchange, once all output is sent. -/
def finishUp (t : Turn α π) : Turn α π :=
  let t' := t.modify fun s => { s with ending := none }
  match t.session.ending with
  | none => t
  | some .shutdown => t'.shutdown
  | some (.switchTo next) => t'.switchTo next

/-- Output waits for the socket; without any, the exchange may be at its end. -/
def arm (t : Turn α π) : Turn α π := if t.session.out.total > 0 then t.enableTx else finishUp t

/-- Queues an error response that ends the connection; all further input is thrown away. -/
def fail (s : Session π) (version : Version) (status : Status) : Session π :=
  { s with
    pending := s.pending ++ [.error s.nextSlot version status]
    nextSlot := s.nextSlot + 1
    mode := .failed, accepting := false, current := none, buffer := [] }

def continueLine : Bytes := Bytes.ofString "HTTP/1.1 100 Continue\r\n\r\n"

/-- A request head came in. A client that waits before it sends its body is told to go on, unless
an earlier response has to go out first. -/
def startRequest (s : Session π) (head : RequestHead) (size : BodySize) : Session π :=
  let s :=
    if head.expectsContinue && size != .empty && s.pending.isEmpty then
      { s with out := s.out.push continueLine }
    else s
  { s with current := some { head } }

/-- Runs the handler on a request. What it sent before it came back is applied at once; one that
failed aborts its response. -/
def callHandler (service : Service α π) (t : Turn α π) (slot : Nat) (r : Request) : Turn α π :=
  let bench : Bench := ⟨some { slot }, t.desk.outbox, t.desk.shelf⟩
  let (bench, app, outcome) := (service.handler t.desk.app r).run bench
  let (outbox, items) := bench.outbox.take
  let t := { t with desk := { app, outbox, shelf := bench.shelf } }
  let t := t.modify fun s => (items.getD []).foldl applyItem s
  if outcome.failure?.isSome then t.modify (·.apply slot .abort) else t

/-- Answers a request through the handler. -/
def serve (service : Service α π) (t : Turn α π) (p : Pending π) (r : Request) : Turn α π :=
  let t := t.modify fun s => { s with pending := s.pending ++ [p] }
  let t :=
    if p.keepAlive then t else (t.modify fun s => { s with accepting := false }).disableRx
  callHandler service t p.slot r

/-- A complete request: it may ask to switch protocols, else it is served. -/
def dispatch (service : Service α π) (t : Turn α π) (r : Request) : Turn α π :=
  let slot := t.session.nextSlot
  let p : Pending π := .ofRequest slot r.head (r.head.keepAlive && !t.ctx.stopping)
  let t := t.modify fun s => { s with nextSlot := slot + 1 }
  if !r.head.fields.contains (fieldName "upgrade") then serve service t p r
  else match UpgradeHandler.ask service.upgradeChain r.head with
    | .handled response next =>
      let p := { p.applyFull response with successor := some next }
      (t.modify fun s => { s with pending := s.pending ++ [p], mode := .upgrading }).disableRx
    | .ignore => serve service t p r
    | .unknown => t.modify (·.fail r.head.version 501)
    | .refused status => t.modify (·.fail r.head.version status)

/-- One line of a head that is not decoded: an `Expect` field with a value. -/
def isExpectLine (line : Bytes) : Bool :=
  let line := if line.getLast? = some 0x0D then line.dropLast else line
  line.length > 7 && sameIgnoringCase (line.take 7) (Bytes.ofString "expect:")

/-- The bytes in front of the first empty line, or all. -/
def headBytes : Bytes → Bytes
  | [] => []
  | b :: bs =>
    if (b :: bs).take 4 = [0x0D, 0x0A, 0x0D, 0x0A] then [] else b :: headBytes bs

/-- The head at the front of the input has an `Expect` field. -/
def announcesExpect (raw : Bytes) : Bool :=
  ((pieces (· = 0x0A) (headBytes raw)).drop 1).any isExpectLine

/-- The client of the request that is being read announced its body. -/
def expecting (s : Session π) : Bool :=
  match s.current with
  | some r => r.head.hasExpect
  | none => announcesExpect s.buffer

/-- A request that cannot be decoded is answered with the status for its error. -/
def rejectRequest (s : Session π) (expecting : Bool) (e : RequestError) : Session π :=
  let version := match s.current with
    | some r => r.head.version
    | none => .v11
  s.fail version (e.status expecting)

/-- One event of the decoder. -/
def handleEvent (service : Service α π) (t : Turn α π) : RequestEvent → Turn α π
  | .head head size => t.modify (·.startRequest head size)
  | .body (.chunk data) =>
    t.modify fun s => { s with current := s.current.map fun r => { r with body := r.body ++ data } }
  | .body .eof =>
    match t.session.current with
    | none => t
    | some r => dispatch service (t.modify fun s => { s with current := none }) r

/-- Decodes and serves every request in the buffer. -/
def processEvents (service : Service α π) : Nat → Turn α π → Turn α π
  | 0, t => t
  | fuel + 1, t =>
    if t.session.mode ≠ .serving || !t.session.accepting then t
    else match t.session.decoder.decode t.session.buffer with
      | (d, buffer, .error e) =>
        let expecting := t.session.expecting
        t.modify fun s => { s with decoder := d, buffer }.rejectRequest expecting e
      | (d, buffer, .ok none) => t.modify fun s => { s with decoder := d, buffer }
      | (d, buffer, .ok (some event)) =>
        processEvents service fuel
          (handleEvent service (t.modify fun s => { s with decoder := d, buffer }) event)

/-- Two events in a row take at least one byte of the buffer. -/
def process (service : Service α π) (t : Turn α π) : Turn α π :=
  arm ((processEvents service (2 * t.session.buffer.length + 3) t).modify flushReady)

/-- All of the input is used up. -/
def read (service : Service α π) (t : Turn α π) (src : Bytes) : Turn α π :=
  let kept := t.modify fun s => { s with buffer := s.buffer ++ src }
  match t.session.mode with
  | .serving => if t.session.accepting then process service kept else t
  | .upgrading => kept
  | .failed => t

def write {τ : Type} (t : Turn α π) (socket : Net.Sender τ) (io : τ) :
    Turn α π × τ × Except Failure WriteStatus :=
  let t := t.modify flushReady
  match Net.sendChain socket io t.session.out t.ctx.maxIovec with
  | (io, out, result) =>
    let t := t.modify fun s => { s with out }
    match result with
    | .error fault => (t, io, .error (.socket fault))
    | .ok .pending => (t, io, .ok .pending)
    | .ok .drained => (finishUp t, io, .ok .flushed)

def wakeup (t : Turn α π) (items : List Item) : Turn α π :=
  arm (t.modify fun s => (items.foldl applyItem s).flushReady)

/-- The last response ends the connection. -/
def endWithLast (s : Session π) : Session π :=
  match s.pending.getLast? with
  | some last => { s with pending := s.pending.dropLast ++ [{ last with keepAlive := false }] }
  | none => if s.ending.isNone then { s with ending := some .shutdown } else s

/-- The server stops: requests in progress are still answered. One that is still being read is
answered with the news that the connection ends. -/
def stop (t : Turn α π) : Turn α π :=
  if t.session.mode = .serving && t.session.isIdle then t.shutdown
  else if t.session.current.isSome then t
  else arm ((t.modify fun s => { s with accepting := false }.endWithLast).disableRx)

/-- Input that was read but belongs to the next protocol. -/
def takeLeftover (t : Turn α π) : Turn α π × Bytes :=
  (t.modify fun s => { s with buffer := [] }, t.session.buffer)

end Session

end WireServer.Http
