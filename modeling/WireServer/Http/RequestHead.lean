import WireServer.Http.Fields
import WireServer.Http.Status
import WireServer.Http.Uri

/-! Request heads and what a connection asks about them. -/

namespace WireServer.Http

structure RequestHead where
  method : Bytes
  uri : Uri
  version : Version
  fields : Fields
  deriving DecidableEq, Inhabited, Repr

namespace RequestHead

def isMethod (r : RequestHead) (name : String) : Bool := r.method = Bytes.ofString name

/-- The method may come with a body. -/
def mayHaveBody (r : RequestHead) : Bool :=
  !(["GET", "HEAD", "DELETE", "OPTIONS", "CONNECT"].any r.isMethod)

/-- Some `Connection` field lists the option. -/
def connectionHas (r : RequestHead) (option : String) : Bool :=
  (r.fields.getAll (fieldName "connection")).any (hasToken · (Bytes.ofString option))

/-- The connection stays open: by default in HTTP/1.1, on demand in HTTP/1.0. -/
def keepAlive (r : RequestHead) : Bool :=
  match r.version with
  | .v11 => !r.connectionHas "close"
  | .v10 => r.connectionHas "keep-alive"
  | _ => false

/-- The protocol that the client wants to switch to. -/
def upgrade (r : RequestHead) : Option Bytes :=
  if r.connectionHas "upgrade" then r.fields.get? (fieldName "upgrade") else none

def hasExpect (r : RequestHead) : Bool := r.fields.contains (fieldName "expect")

/-- The client waits for `100 Continue` before it sends its body. -/
def expectsContinue (r : RequestHead) : Bool :=
  match r.fields.get? (fieldName "expect") with
  | some value => sameIgnoringCase value (Bytes.ofString "100-continue")
  | none => false

/-- The client understands a body in chunks. -/
def acceptsChunked (r : RequestHead) : Bool := r.version = .v11

end RequestHead

end WireServer.Http
