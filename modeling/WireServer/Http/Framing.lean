import WireServer.Text.Utf8Decode
import WireServer.Http.Fields
import WireServer.Http.RequestError

/-! How the body of a message is framed: by a length, in chunks, or not at all. -/

namespace WireServer.Http

inductive BodySize where
  | length (n : Nat)
  | chunked
  | empty
  deriving DecidableEq, Inhabited, Repr

namespace BodySize

/-- A length of zero is no body. -/
def ofLength (n : Nat) : BodySize := if n = 0 then .empty else .length n

/-- The announced length; none in chunks. -/
def known : BodySize → Option Nat
  | .length n => some n
  | .empty => some 0
  | .chunked => none

/-- A decimal number below 2^64, with an optional plus sign in front. -/
def decimal? (bs : Bytes) : Option Nat :=
  let digits := match bs with
    | 0x2B :: rest => rest
    | _ => bs
  if digits.isEmpty || !digits.all isDigit then none
  else
    let n := digits.foldl (fun n b => n * 10 + (b.toNat - 48)) 0
    if n < UInt64.size then some n else none

/-- `chunked` is the last coding of the value. -/
def endsChunked (value : Bytes) : Bool :=
  let last := ((pieces (· = 0x2C) value).getLast?).getD []
  sameIgnoringCase (trim isBlank last) (Bytes.ofString "chunked")

/-- The framing that the fields announce. Both kinds together are refused: two readers could
disagree about where such a request ends. -/
def ofFields (h : Fields) : Except RequestError BodySize :=
  match h.get? (fieldName "transfer-encoding"), h.get? (fieldName "content-length") with
  | none, none => .ok .empty
  | some coding, none =>
    if endsChunked coding then .ok .chunked
    else .error (.unsupportedCoding (Utf8.decodeLossy coding))
  | none, some value =>
    if !value.all isVisible then .error (.invalidContentLength "value can't to_str")
    else match decimal? (trim isBlank value) with
      | some n => .ok (ofLength n)
      | none =>
        let shown := Utf8.ofWellFormed value
        .error (.invalidContentLength s!"value {shown} is not u64")
  | some _, some _ =>
    .error (.invalidContentLength "transfer_encoding and content_length both present in headers")

end BodySize

end WireServer.Http
