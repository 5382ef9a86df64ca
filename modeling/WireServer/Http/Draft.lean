import WireServer.Http.Pending

/-! A response in progress as a record of flags that each part changes in place. The flags change
before the head is encoded, and an encoder that fails leaves them changed. -/

namespace WireServer.Http

/-- A range of output: an encoded head, or bytes behind it. -/
inductive Segment where
  | head (bytes : Bytes)
  | payload (bytes : Bytes)
  deriving DecidableEq, Inhabited, Repr

namespace Segment

def bytes : Segment → Bytes
  | .head bytes | .payload bytes => bytes

def isHead : Segment → Bool
  | .head _ => true
  | .payload _ => false

end Segment

def Misfit.text : Misfit → String
  | .alreadyComplete => "response already complete"
  | .alreadyStarted => "response already started"
  | .dataBeforeHead => "body before response head"
  | .endBeforeHead => "end before response head"

/-- A part out of sequence is an error of the body. -/
def Misfit.error (misfit : Misfit) : ResponseError := .invalidBody misfit.text

/-- A response in progress; `π` are the protocols that a connection can switch to. -/
structure Draft (π : Type) where
  slot : Nat
  version : Version
  keepAlive : Bool
  acceptsChunked : Bool := false
  headOnly : Bool := false
  sendsBody : Bool := true
  started : Bool := false
  /-- The body goes out in chunks. -/
  chunked : Bool := false
  complete : Bool := false
  /-- The head of a response in pieces that waits for the length of its body. -/
  head : Option ResponseHead := none
  body : Bytes := []
  out : List Segment := []
  successor : Option π := none
  deriving DecidableEq, Inhabited, Repr

namespace Draft

variable {π : Type}

def ofRequest (slot : Nat) (r : RequestHead) (keepAlive : Bool) : Draft π where
  slot := slot
  version := r.version
  keepAlive := keepAlive
  acceptsChunked := r.acceptsChunked
  headOnly := r.isMethod "HEAD"

/-- How far the response is. -/
def stage (d : Draft π) : Stage :=
  if d.complete then .complete
  else if d.chunked then .chunks
  else match d.head with
    | some head => .gathering head d.body
    | none => .waiting

/-- The response as a session keeps it, with the flags read as a stage. -/
def view (d : Draft π) : Pending π where
  slot := d.slot
  version := d.version
  keepAlive := d.keepAlive
  acceptsChunked := d.acceptsChunked
  headOnly := d.headOnly
  sendsBody := d.sendsBody
  stage := d.stage
  out := .ofList (d.out.map Segment.bytes)
  successor := d.successor

def push (d : Draft π) (segment : Segment) : Draft π := { d with out := d.out ++ [segment] }

def pushBody (d : Draft π) (body : Bytes) : Draft π :=
  if d.sendsBody && !body.isEmpty then d.push (.payload body) else d

def pushChunk (d : Draft π) (data : Bytes) : Draft π :=
  ((d.push (.payload (Chunked.sizeLine data.length))).push (.payload data)).push
    (.payload Chunked.chunkEnd)

def begin (d : Draft π) (status : Status) : Draft π :=
  { d with started := true, sendsBody := !d.headOnly && status.allowsBody }

/-- What a step leaves, whether it succeeds or fails. -/
abbrev Step (π : Type) := Draft π × Except ResponseError Unit

def done (d : Draft π) : Step π := (d, .ok ())

def refuse (d : Draft π) (misfit : Misfit) : Step π := (d, .error misfit.error)

/-- Goes on behind a step that succeeded. -/
def Step.andThen (step : Step π) (next : Draft π → Draft π) : Step π :=
  match step.2 with
  | .ok () => (next step.1).done
  | .error _ => step

/-- Queues the head, in the version of the request. -/
def encodeHead (d : Draft π) (head : ResponseHead) (size : BodySize) : Step π :=
  let d := if head.status ≠ 101 && Pending.asksToClose head then { d with keepAlive := false }
    else d
  let head := { head with version := d.version, fields := d.view.connectionFields head }
  match head.encode size with
  | .ok bytes => (d.push (.head bytes)).done
  | .error e => (d, .error e)

def finish (d : Draft π) : Draft π := { d with complete := true }

def applyFull (d : Draft π) (r : Response) : Step π :=
  if d.started then d.refuse .alreadyStarted
  else
    ((d.begin r.head.status).encodeHead r.head (.ofLength r.body.length)).andThen
      fun d => (d.pushBody r.body).finish

def applyHead (d : Draft π) (head : ResponseHead) : Step π :=
  if d.started then d.refuse .alreadyStarted
  else
    let d := d.begin head.status
    if d.acceptsChunked then { d with chunked := true }.encodeHead head .chunked
    else { d with head := some head }.done

def applyData (d : Draft π) (data : Bytes) : Step π :=
  if !d.started then d.refuse .dataBeforeHead
  else if !d.sendsBody || data.isEmpty then d.done
  else if d.chunked then (d.pushChunk data).done
  else { d with body := d.body ++ data }.done

def applyFinish (d : Draft π) : Step π :=
  if !d.started then d.refuse .endBeforeHead
  else match d.head with
    | some head =>
      ({ d with head := none, body := [] }.encodeHead head (.ofLength d.body.length)).andThen
        fun e => (e.pushBody d.body).finish
    | none =>
      (if d.chunked && d.sendsBody then d.push (.payload Chunked.lastChunk) else d).finish.done

def applyAbort (d : Draft π) : Step π :=
  let d := { d with keepAlive := false }
  -- A head that waits is given up, and nothing of it is out.
  if !d.started || d.head.isSome then
    let d := { d with head := if d.started then none else d.head, body := [] }
    ((d.begin 200).encodeHead { status := 500 } .empty).andThen finish
  else d.finish.done

def apply (d : Draft π) (part : Part) : Step π :=
  if d.complete then d.refuse .alreadyComplete
  else match part with
    | .full r => d.applyFull r
    | .head head => d.applyHead head
    | .data data => d.applyData data
    | .finish => d.applyFinish
    | .abort => d.applyAbort

/-- The parts one after the other, refused ones among them. -/
def run (d : Draft π) (parts : List Part) : Draft π := parts.foldl (fun d part => (d.apply part).1) d

/-- What each of the parts gave. -/
def results : Draft π → List Part → List (Except ResponseError Unit)
  | _, [] => []
  | d, part :: parts => (d.apply part).2 :: results (d.apply part).1 parts

/-- Those of the parts that are taken. -/
def accepted : Draft π → List Part → List Part
  | _, [] => []
  | d, part :: parts =>
    match (d.apply part).2 with
    | .ok () => part :: accepted (d.apply part).1 parts
    | .error _ => accepted (d.apply part).1 parts

end Draft

end WireServer.Http
