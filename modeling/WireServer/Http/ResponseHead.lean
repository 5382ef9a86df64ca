import WireServer.Http.Framing

/-! Response heads and their wire form. -/

namespace WireServer.Http

structure ResponseHead where
  status : Status := 200
  version : Version := .v11
  fields : Fields := {}
  deriving DecidableEq, Inhabited, Repr

namespace ResponseHead

/-- The field that announces the framing, in place of any that the application set; a response
that carries no body announces none. -/
def framed (r : ResponseHead) (size : BodySize) : Fields :=
  let length := fieldName "content-length"
  let coding := fieldName "transfer-encoding"
  if r.status.allowsBody then
    match size with
    | .length n => (r.fields.remove coding).insert length (Bytes.ofString (toString n))
    | .chunked => (r.fields.remove length).insert coding (Bytes.ofString "chunked")
    | .empty => (r.fields.remove coding).insert length (Bytes.ofString "0")
  else (r.fields.remove length).remove coding

def statusLine (version : Version) (status : Status) : Bytes :=
  Bytes.ofString s!"{version.text} {status} {status.reason}\r\n"

def fieldLine (field : Bytes × Bytes) : Bytes := field.1 ++ [0x3A, 0x20] ++ field.2 ++ [0x0D, 0x0A]

/-- The bytes of the head: the status line, the fields, and an empty line. -/
def wire (r : ResponseHead) (size : BodySize) : Bytes :=
  statusLine r.version r.status ++ ((r.framed size).toList.map fieldLine).flatten ++ [0x0D, 0x0A]

/-- Only the versions of HTTP/1 can be written. -/
def encode (r : ResponseHead) (size : BodySize) : Except ResponseError Bytes :=
  match r.version with
  | .v10 | .v11 => .ok (r.wire size)
  | v => .error (.unsupportedVersion v)

end ResponseHead

end WireServer.Http
