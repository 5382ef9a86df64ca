import WireServer.Text.Utf8
import WireServer.Http.Grammar
import WireServer.Http.Status

/-! The grammar of a request head, read from the front of a buffer. Each reader takes its part,
asks for more bytes, or says what is wrong; bytes behind the part never change the verdict. The
grammar is that of `httparse` 1.10, the head parser which the server calls and does not contain. -/

namespace WireServer.Http

/-- What is wrong with a head. -/
inductive HeadFault where
  | token | version | newLine | fieldName | fieldValue | tooManyFields
  deriving DecidableEq, Inhabited, Repr

def HeadFault.text : HeadFault → String
  | .token => "invalid token"
  | .version => "invalid HTTP version"
  | .newLine => "invalid new line"
  | .fieldName => "invalid header name"
  | .fieldValue => "invalid header value"
  | .tooManyFields => "too many headers"

/-- The result of a reader. -/
inductive Scan (α : Type) where
  | done (a : α) (rest : Bytes)
  | more
  | bad (fault : HeadFault)
  deriving DecidableEq, Inhabited, Repr

/-- The next reader, on what the last one left. -/
def Scan.andThen {α β : Type} (s : Scan α) (next : α → Bytes → Scan β) : Scan β :=
  match s with
  | .done a rest => next a rest
  | .more => .more
  | .bad fault => .bad fault

namespace HeadGrammar

/-- Empty lines in front of the request line. -/
def skipEmptyLines : Bytes → Scan Unit
  | [] => .more
  | 0x0D :: 0x0A :: rest => skipEmptyLines rest
  | [0x0D] => .more
  | 0x0D :: _ => .bad .newLine
  | 0x0A :: rest => skipEmptyLines rest
  | src => .done () src

/-- A line end: LF, with or without CR in front. -/
def lineEnd (fault : HeadFault) : Bytes → Scan Unit
  | [] => .more
  | 0x0D :: 0x0A :: rest => .done () rest
  | [0x0D] => .more
  | 0x0A :: rest => .done () rest
  | _ => .bad fault

/-- One or more bytes of a class and the space behind them. -/
def word (cls : UInt8 → Bool) (src : Bytes) : Scan Bytes :=
  match src.dropWhile cls with
  | [] => .more
  | 0x20 :: rest =>
    let w := src.takeWhile cls
    if w.isEmpty then .bad .token else .done w rest
  | _ => .bad .token

def method (src : Bytes) : Scan Bytes := word isToken src

/-- The target has to be text. -/
def target (src : Bytes) : Scan Bytes :=
  (word isTarget src).andThen fun t rest => if Utf8.valid t then .done t rest else .bad .token

/-- Decided on eight bytes; fewer can only be the start of a version or wrong. -/
def version (src : Bytes) : Scan Version :=
  if src.length < 8 then
    if src.isPrefixOf (Bytes.ofString "HTTP/1.") then .more else .bad .version
  else if src.take 8 = Bytes.ofString "HTTP/1.1" then .done .v11 (src.drop 8)
  else if src.take 8 = Bytes.ofString "HTTP/1.0" then .done .v10 (src.drop 8)
  else .bad .version

/-- A field's value: blanks around it are dropped. -/
def fieldValue (src : Bytes) : Scan Bytes :=
  let src := src.dropWhile isBlank
  (lineEnd .fieldValue (src.dropWhile isFieldValue)).andThen fun _ rest =>
    .done (trim isBlank (src.takeWhile isFieldValue)) rest

/-- A field line: a name, directly behind it a colon, and a value. -/
def fieldLine (src : Bytes) : Scan (Bytes × Bytes) :=
  match src.dropWhile isToken with
  | [] => .more
  | 0x3A :: rest =>
    let name := src.takeWhile isToken
    if name.isEmpty then .bad .fieldName
    else (fieldValue rest).andThen fun value rest => .done (name, value) rest
  | _ => .bad .fieldName

/-- Field lines up to the empty line, not more than `room`. -/
def fieldLines : Nat → Bytes → Scan (List (Bytes × Bytes))
  | room, src =>
    match src with
    | [] => .more
    | b :: _ =>
      if b = 0x0D || b = 0x0A then (lineEnd .newLine src).andThen fun _ rest => .done [] rest
      else (fieldLine src).andThen fun field rest =>
        match room with
        | 0 => .bad .tooManyFields
        | room + 1 => (fieldLines room rest).andThen fun fields rest => .done (field :: fields) rest

/-- A head in its parts. -/
structure Parts where
  method : Bytes
  target : Bytes
  version : Version
  fields : List (Bytes × Bytes)
  deriving DecidableEq, Inhabited, Repr

/-- A whole head with at most `room` fields. -/
def head (room : Nat) (src : Bytes) : Scan Parts :=
  (skipEmptyLines src).andThen fun _ src =>
  (method src).andThen fun method src =>
  (target src).andThen fun target src =>
  (version src).andThen fun version src =>
  (lineEnd .newLine src).andThen fun _ src =>
  (fieldLines room src).andThen fun fields rest => .done ⟨method, target, version, fields⟩ rest

end HeadGrammar

end WireServer.Http
