import WireServer.Http.Framing
import WireServer.Http.HeadGrammar
import WireServer.Http.RequestHead

/-! Decoding a request head from the front of a buffer, within limits on its size and on the
number of its fields. -/

namespace WireServer.Http.HeadDecoder

def maxFields : Nat := 64

def maxBytes : Nat := 8 * 1024

/-- No request is shorter than `GET  HTTP/1.1` with a line end. -/
def minBytes : Nat := 14

/-- What a call leaves in the buffer, and the head with its framing once it is complete. -/
abbrev Outcome := Bytes × Except RequestError (Option (RequestHead × BodySize))

/-- The head from its parts. The target is checked while the head is still in the buffer; the
framing once it is out. -/
def assemble (parts : HeadGrammar.Parts) (src rest : Bytes) : Outcome :=
  match Uri.parse parts.target with
  | none => (src, .error .invalidTarget)
  | some uri =>
    let fields := Fields.ofList parts.fields
    match BodySize.ofFields fields with
    | .error e => (rest, .error e)
    | .ok size => (rest, .ok (some (⟨parts.method, uri, parts.version, fields⟩, size)))

def decode (src : Bytes) : Outcome :=
  if src.length < minBytes then (src, .ok none)
  else match HeadGrammar.head maxFields src with
    | .more =>
      if src.length > maxBytes then (src, .error (.headTooLarge src.length maxBytes))
      else (src, .ok none)
    | .bad .tooManyFields => (src, .error (.tooManyFields maxFields))
    | .bad .version => (src, .error (.invalidVersion none))
    | .bad fault => (src, .error (.invalidField fault.text))
    | .done parts rest =>
      let size := src.length - rest.length
      if size > maxBytes then (src, .error (.headTooLarge size maxBytes))
      else assemble parts src rest

end WireServer.Http.HeadDecoder
