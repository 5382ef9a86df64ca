import WireServer.Http.Chunked
import WireServer.Http.HeadDecoder

/-! Decoding requests from a byte stream: a head, the pieces of its body, the end of the body, and
then the next head. -/

namespace WireServer.Http

/-- The decoder of a body with a given framing. -/
inductive BodyDecoder where
  | length (left : Nat)
  | chunked (d : Chunked.Decoder)
  | empty
  deriving DecidableEq, Inhabited, Repr

namespace BodyDecoder

def ofSize : BodySize → BodyDecoder
  | .length n => .length n
  | .chunked => .chunked {}
  | .empty => .empty

/-- The next piece of the body, if the input holds one. -/
def decode (d : BodyDecoder) (src : Bytes) :
    BodyDecoder × Bytes × Except RequestError (Option BodyItem) :=
  match d with
  | .empty => (d, src, .ok (some .eof))
  | .length left =>
    if left = 0 then (d, src, .ok (some .eof))
    else if src.isEmpty then (d, src, .ok none)
    else
      let data := src.take left
      (.length (left - data.length), src.drop left, .ok (some (.chunk data)))
  | .chunked c =>
    match c.decode src with
    | (c', rest, .ok item) => (.chunked c', rest, .ok item)
    | (c', rest, .error fault) => (.chunked c', rest, .error (.invalidBody fault.text))

/-- Pieces decoded one after another, up to the end of the body. -/
def decodeItems : Nat → BodyDecoder → Bytes → List BodyItem →
    BodyDecoder × Bytes × List BodyItem × Option RequestError
  | 0, d, src, items => (d, src, items.reverse, none)
  | fuel + 1, d, src, items =>
    match d.decode src with
    | (d, src, .error e) => (d, src, items.reverse, some e)
    | (d, src, .ok none) => (d, src, items.reverse, none)
    | (d, src, .ok (some .eof)) => (d, src, (.eof :: items).reverse, none)
    | (d, src, .ok (some (.chunk data))) => decodeItems fuel d src (.chunk data :: items)

/-- All pieces that the input holds, then what is left of it and the error met, if any. Each piece
in front of the end takes at least one byte. -/
def decodeAll (d : BodyDecoder) (src : Bytes) :
    BodyDecoder × Bytes × List BodyItem × Option RequestError :=
  decodeItems (src.length + 2) d src []

end BodyDecoder

/-- What a request decoder hands out. -/
inductive RequestEvent where
  | head (head : RequestHead) (size : BodySize)
  | body (item : BodyItem)
  deriving DecidableEq, Inhabited, Repr

/-- The usual limit for a request body. -/
def defaultMaxBody : Nat := 1024 * 1024

/-- A decoder: between requests it has no body decoder. -/
structure RequestDecoder where
  maxBody : Nat := defaultMaxBody
  body : Option BodyDecoder := none
  received : Nat := 0
  deriving DecidableEq, Inhabited, Repr

namespace RequestDecoder

abbrev Outcome := RequestDecoder × Bytes × Except RequestError (Option RequestEvent)

/-- A piece of the body, which must not make it grow past the limit. -/
def decodeBody (d : RequestDecoder) (body : BodyDecoder) (src : Bytes) : Outcome :=
  match body.decode src with
  | (b, rest, .error e) => ({ d with body := some b }, rest, .error e)
  | (b, rest, .ok none) => ({ d with body := some b }, rest, .ok none)
  | (_, rest, .ok (some .eof)) => ({ d with body := none }, rest, .ok (some (.body .eof)))
  | (b, rest, .ok (some (.chunk data))) =>
    let d := { d with body := some b, received := d.received + data.length }
    if d.received > d.maxBody then (d, rest, .error (.bodyTooLarge d.received d.maxBody))
    else (d, rest, .ok (some (.body (.chunk data))))

/-- An announced length is checked at once. -/
def overLimit (d : RequestDecoder) : BodySize → Option RequestError
  | .length n => if n > d.maxBody then some (.bodyTooLarge n d.maxBody) else none
  | _ => none

def decodeHead (d : RequestDecoder) (src : Bytes) : Outcome :=
  match HeadDecoder.decode src with
  | (rest, .error e) => (d, rest, .error e)
  | (rest, .ok none) => (d, rest, .ok none)
  | (rest, .ok (some (head, size))) =>
    match d.overLimit size with
    | some e => (d, rest, .error e)
    | none => ({ d with body := some (.ofSize size), received := 0 }, rest, .ok (some (.head head size)))

/-- The next event, if the input holds one. -/
def decode (d : RequestDecoder) (src : Bytes) : Outcome :=
  match d.body with
  | some body => d.decodeBody body src
  | none => d.decodeHead src

/-- Events decoded one after another. -/
def decodeEvents : Nat → RequestDecoder → Bytes → List RequestEvent →
    RequestDecoder × Bytes × List RequestEvent × Option RequestError
  | 0, d, src, events => (d, src, events.reverse, none)
  | fuel + 1, d, src, events =>
    match d.decode src with
    | (d, src, .error e) => (d, src, events.reverse, some e)
    | (d, src, .ok none) => (d, src, events.reverse, none)
    | (d, src, .ok (some event)) => decodeEvents fuel d src (event :: events)

/-- All events of the input, then what is left of it and the error met, if any. Two events in a
row take at least one byte. -/
def decodeAll (d : RequestDecoder) (src : Bytes) :
    RequestDecoder × Bytes × List RequestEvent × Option RequestError :=
  decodeEvents (2 * src.length + 3) d src []

end RequestDecoder

end WireServer.Http
