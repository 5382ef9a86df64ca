import WireServer.Http.ResponseHead

/-! Responses, whole and in parts. -/

namespace WireServer.Http

/-- A response with its whole body. -/
structure Response where
  head : ResponseHead
  body : Bytes := []
  deriving DecidableEq, Inhabited, Repr

namespace Response

def empty (status : Status) : Response := { head := { status } }

/-- Plain text in UTF-8. -/
def text (status : Status) (body : Bytes) : Response where
  head := {
    status
    fields := Fields.empty.insert (fieldName "content-type")
      (Bytes.ofString "text/plain; charset=utf-8") }
  body := body

end Response

/-- A step of answering a request. -/
inductive Part where
  | full (response : Response)
  /-- The start of a response whose body comes in pieces. -/
  | head (head : ResponseHead)
  | data (bytes : Bytes)
  | finish
  /-- The responder went away before it was done. -/
  | abort
  deriving DecidableEq, Inhabited, Repr

end WireServer.Http
