import WireServer.Text.Numeral
import WireServer.Http.Grammar
import WireServer.Http.RequestError

/-! The chunked transfer coding: a decoder that reads byte by byte, and the lines around a chunk
that is sent. Extensions and trailer fields are skipped. -/

namespace WireServer.Http

/-- A part of a body as it is decoded. -/
inductive BodyItem where
  | chunk (data : Bytes)
  | eof
  deriving DecidableEq, Inhabited, Repr

namespace Chunked

/-- Where in the coding the next byte belongs. -/
inductive State where
  | size | sizeBlank | ext | sizeLf | data | dataCr | dataLf
  | trailerStart | trailer | trailerLf | endLf | done
  deriving DecidableEq, Inhabited, Repr

def State.name : State → String
  | .size => "Size"
  | .sizeBlank => "SizeWs"
  | .ext => "Extension"
  | .sizeLf => "SizeLf"
  | .data => "Data"
  | .dataCr => "DataCr"
  | .dataLf => "DataLf"
  | .trailerStart => "TrailerStart"
  | .trailer => "Trailer"
  | .trailerLf => "TrailerLf"
  | .endLf => "EndLf"
  | .done => "End"

/-- What breaks the coding. -/
inductive Fault where
  | sizeOverflow | missingSize | bareLfInExtension | bareLfInTrailer
  | unexpected (b : UInt8) (state : State)
  deriving DecidableEq, Inhabited, Repr

def Fault.text : Fault → String
  | .sizeOverflow => "chunk size overflow"
  | .missingSize => "missing chunk size"
  | .bareLfInExtension => "bare LF in chunk extension"
  | .bareLfInTrailer => "bare LF in trailer"
  | .unexpected b state =>
    "unexpected byte " ++ Numeral.byteHex b ++ " in chunked state " ++ state.name

/-- A decoder: its state, the bytes left of the chunk, and whether its size has a digit yet. -/
structure Decoder where
  state : State := .size
  size : Nat := 0
  hasDigit : Bool := false
  deriving DecidableEq, Inhabited, Repr

/-- The value of a hexadecimal digit. -/
def hexDigit? (b : UInt8) : Option Nat :=
  if isDigit b then some (b.toNat - 48)
  else if 0x61 ≤ b && b ≤ 0x66 then some (b.toNat - 87)
  else if 0x41 ≤ b && b ≤ 0x46 then some (b.toNat - 55)
  else none

namespace Decoder

/-- One more digit of the size, which has to stay below 2^64. -/
def digit (d : Decoder) (value : Nat) : Except Fault Decoder :=
  if d.size * 16 + value < UInt64.size then
    .ok { d with size := d.size * 16 + value, hasDigit := true }
  else .error .sizeOverflow

/-- A byte behind the digits of a size, if there were any. -/
def afterSize (d : Decoder) (b : UInt8) : Except Fault Decoder :=
  if isBlank b then .ok { d with state := .sizeBlank }
  else if b = 0x3B then .ok { d with state := .ext }
  else if b = 0x0D then .ok { d with state := .sizeLf }
  else .error (.unexpected b d.state)

/-- A line end byte that has to come next. -/
def expect (d : Decoder) (wanted b : UInt8) (next : Decoder) : Except Fault Decoder :=
  if b = wanted then .ok next else .error (.unexpected b d.state)

/-- One byte that is not chunk data. -/
def step (d : Decoder) (b : UInt8) : Except Fault Decoder :=
  match d.state with
  | .size =>
    match hexDigit? b with
    | some value => d.digit value
    | none => if d.hasDigit then d.afterSize b else .error .missingSize
  | .sizeBlank => d.afterSize b
  | .ext =>
    if b = 0x0D then .ok { d with state := .sizeLf }
    else if b = 0x0A then .error .bareLfInExtension
    else .ok d
  | .sizeLf => d.expect 0x0A b { d with state := if d.size = 0 then .trailerStart else .data }
  | .dataCr => d.expect 0x0D b { d with state := .dataLf }
  | .dataLf => d.expect 0x0A b { d with state := .size, hasDigit := false }
  | .trailerStart =>
    if b = 0x0D then .ok { d with state := .endLf }
    else if b = 0x0A then .error .bareLfInTrailer
    else .ok { d with state := .trailer }
  | .trailer =>
    if b = 0x0D then .ok { d with state := .trailerLf }
    else if b = 0x0A then .error .bareLfInTrailer
    else .ok d
  | .trailerLf => d.expect 0x0A b { d with state := .trailerStart }
  | .endLf => d.expect 0x0A b { d with state := .done }
  | .data | .done => .error (.unexpected b d.state)

/-- The data at hand of the current chunk. -/
def takeData (d : Decoder) (src : Bytes) : Decoder × Bytes × Bytes :=
  let data := src.take d.size
  let left := d.size - data.length
  ({ d with size := left, state := if left = 0 then .dataCr else .data }, data, src.drop d.size)

/-- The next piece of the body, if the input holds one. A byte that breaks the coding is taken. -/
def decode (d : Decoder) (src : Bytes) : Decoder × Bytes × Except Fault (Option BodyItem) :=
  match d.state, src with
  | .done, src => (d, src, .ok (some .eof))
  | _, [] => (d, [], .ok none)
  | .data, src =>
    let (d', data, rest) := d.takeData src
    (d', rest, .ok (some (.chunk data)))
  | _, b :: rest =>
    match d.step b with
    | .error fault => (d, rest, .error fault)
    | .ok d' => decode d' rest
  termination_by structural src

end Decoder

/-- The line in front of a chunk of `n` bytes. -/
def sizeLine (n : Nat) : Bytes :=
  (Nat.toDigits 16 n).map (fun c => UInt8.ofNat c.toUpper.toNat) ++ [0x0D, 0x0A]

/-- What follows the data of a chunk. -/
def chunkEnd : Bytes := [0x0D, 0x0A]

/-- The last chunk, with no trailer. -/
def lastChunk : Bytes := Bytes.ofString "0\r\n\r\n"

end Chunked

end WireServer.Http
