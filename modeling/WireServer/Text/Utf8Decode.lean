import WireServer.Text.Utf8

/-! Reading bytes as text: the first place where they are ill formed, and a reading that puts
U+FFFD for each ill-formed piece. -/

namespace WireServer.Utf8

/-- A piece of a byte string: a character, bytes that start none, or a character cut off by the
end. -/
inductive Piece where
  | character (bs : Bytes)
  | broken (bs : Bytes)
  | cut (bs : Bytes)
  deriving DecidableEq, Inhabited, Repr

def Piece.bytes : Piece → Bytes
  | .character bs | .broken bs | .cut bs => bs

/-- What a byte does at the start of a piece: whole pieces go to the front of `done`. -/
def startPiece (b : UInt8) (done : List Piece) : State × Bytes × List Piece :=
  match lead b with
  | some .boundary => (.boundary, [], .character [b] :: done)
  | some s => (s, [b], done)
  | none => (.boundary, [], .broken [b] :: done)

/-- One byte; `held` is the piece so far, last byte first. -/
def splitByte : State × Bytes × List Piece → UInt8 → State × Bytes × List Piece
  | (_, [], done), b => startPiece b done
  | (s, held, done), b =>
    match step s b with
    | some .boundary => (.boundary, [], .character (b :: held).reverse :: done)
    | some s' => (s', b :: held, done)
    | none => startPiece b (.broken held.reverse :: done)

/-- A broken piece is the longest that could have started a character. -/
def pieces (bs : Bytes) : List Piece :=
  match bs.foldl splitByte (.boundary, [], []) with
  | (_, [], done) => done.reverse
  | (_, held, done) => (.cut held.reverse :: done).reverse

/-- Where a byte string stops being text. -/
structure Fault where
  index : Nat
  /-- The length of the ill-formed piece; none if the end came inside a character. -/
  length : Option Nat
  deriving DecidableEq, Inhabited, Repr

def Fault.text : Fault → String
  | ⟨index, some n⟩ => s!"invalid utf-8 sequence of {n} bytes from index {index}"
  | ⟨index, none⟩ => s!"incomplete utf-8 byte sequence from index {index}"

/-- The first piece that is no character. -/
def faultIn : Nat → List Piece → Option Fault
  | _, [] => none
  | i, .character bs :: ps => faultIn (i + bs.length) ps
  | i, .broken bs :: _ => some ⟨i, some bs.length⟩
  | i, .cut _ :: _ => some ⟨i, none⟩

/-- The text that well-formed bytes spell. -/
def ofWellFormed (bs : Bytes) : String := (String.fromUTF8? ⟨bs.toArray⟩).getD ""

def decode (bs : Bytes) : Except Fault String :=
  match faultIn 0 (pieces bs) with
  | some fault => .error fault
  | none => .ok (ofWellFormed bs)

def Piece.repaired : Piece → Bytes
  | .character bs => bs
  | .broken _ | .cut _ => [0xEF, 0xBF, 0xBD]

/-- The text with U+FFFD for every piece that is no character. -/
def decodeLossy (bs : Bytes) : String := ofWellFormed ((pieces bs).map Piece.repaired).flatten

end WireServer.Utf8
