import WireServer.Http.Grammar

/-! Request targets: origin form, absolute form, authority form and the asterisk, as the `http`
library, which the server calls and does not contain, reads them. -/

namespace WireServer.Http

/-- A request target in its parts. -/
structure Uri where
  scheme : Option Bytes := none
  authority : Bytes := []
  /-- Empty in authority form. -/
  pathPart : Bytes := []
  query : Option Bytes := none
  deriving DecidableEq, Inhabited, Repr

namespace Uri

/-- The bytes of a path; quotes and braces pass, as many clients send them bare. -/
def isPath (b : UInt8) : Bool :=
  b = 0x21 || b = 0x22 || (0x24 ≤ b && b ≤ 0x3B) || b = 0x3D || (0x40 ≤ b && b ≤ 0x5F) ||
    (0x61 ≤ b && b ≤ 0x7E) || 0x80 ≤ b

def isQuery (b : UInt8) : Bool :=
  b = 0x21 || (0x24 ≤ b && b ≤ 0x3B) || b = 0x3D || (0x3F ≤ b && b ≤ 0x7E) || 0x80 ≤ b

def isScheme (b : UInt8) : Bool :=
  isLetter b || isDigit b || (Bytes.ofString "+-.~").contains b

/-- Unreserved and reserved bytes, those that end an authority apart. -/
def isAuthority (b : UInt8) : Bool :=
  isLetter b || isDigit b || (Bytes.ofString "!$&'()*+,-.:;=@[]_~").contains b

def endsAuthority (b : UInt8) : Bool := b = 0x2F || b = 0x3F || b = 0x23

/-- What an authority has shown so far. -/
structure AuthorityScan where
  colons : Nat := 0
  opened : Bool := false
  closed : Bool := false
  percent : Bool := false
  atSign : Bool := false
  deriving DecidableEq, Inhabited, Repr

namespace AuthorityScan

/-- One byte. Colons and percent signs in front of `@` belong to the user part, those in front of
`]` to an address, and are forgotten. -/
def step (s : AuthorityScan) (b : UInt8) : Option AuthorityScan :=
  let s' := { s with atSign := false }
  if b = 0x3A then if s.colons ≥ 8 then none else some { s' with colons := s.colons + 1 }
  else if b = 0x5B then if s.percent || s.opened then none else some { s' with opened := true }
  else if b = 0x5D then
    if !s.opened || s.closed then none
    else some { s' with closed := true, colons := 0, percent := false }
  else if b = 0x40 then some { s' with atSign := true, colons := 0, percent := false }
  else if b = 0x25 then some { s' with percent := true }
  else if isAuthority b then some s'
  else none

/-- Brackets pair up, at most one colon is left, and neither `@` ends it nor a percent sign is
left over. -/
def accepts (s : AuthorityScan) : Bool :=
  s.opened == s.closed && s.colons ≤ 1 && !s.atSign && !s.percent

end AuthorityScan

/-- The authority in front of the first `/`, `?` or `#`, and the rest. -/
def takeAuthority (bs : Bytes) : Option (Bytes × Bytes) := do
  let authority := bs.takeWhile fun b => !endsAuthority b
  let s ← authority.foldlM AuthorityScan.step {}
  if s.accepts then some (authority, bs.dropWhile fun b => !endsAuthority b) else none

/-- A path and, behind the first `?`, a query; from `#` on all is dropped. -/
def ofPathAndQuery (bs : Bytes) : Option Uri :=
  let shown := bs.takeWhile (· ≠ 0x23)
  let path := shown.takeWhile (· ≠ 0x3F)
  match shown.dropWhile (· ≠ 0x3F) with
  | [] => if path.all isPath then some { pathPart := path } else none
  | _ :: query =>
    if path.all isPath && query.all isQuery then some { pathPart := path, query := some query }
    else none

/-- What a target says about its scheme. -/
inductive SchemePart where
  | absent
  | tooLong
  | found (scheme rest : Bytes)
  deriving DecidableEq, Inhabited, Repr

/-- The scheme in front of `://`: the two known ones in lowercase, any other as written. -/
def takeScheme (bs : Bytes) : SchemePart :=
  if sameIgnoringCase (bs.take 7) (Bytes.ofString "http://") then
    .found (Bytes.ofString "http") (bs.drop 7)
  else if sameIgnoringCase (bs.take 8) (Bytes.ofString "https://") then
    .found (Bytes.ofString "https") (bs.drop 8)
  else if bs.length ≤ 3 then .absent
  else
    let scheme := bs.takeWhile isScheme
    match bs.dropWhile isScheme with
    | 0x3A :: 0x2F :: 0x2F :: rest => if scheme.length > 64 then .tooLong else .found scheme rest
    | _ => .absent

/-- Without a scheme, the authority is the whole target. -/
def ofAuthority (bs : Bytes) : Option Uri := do
  let (authority, rest) ← takeAuthority bs
  if rest.isEmpty then some { authority } else none

def ofAbsolute (scheme bs : Bytes) : Option Uri := do
  let (authority, rest) ← takeAuthority bs
  if authority.isEmpty then none
  else
    let u ← ofPathAndQuery rest
    return { u with scheme := some scheme, authority }

def parse (bs : Bytes) : Option Uri :=
  match bs with
  | [] => none
  | [0x2A] => some { pathPart := [0x2A] }
  | 0x2F :: _ => ofPathAndQuery bs
  | _ =>
    match takeScheme bs with
    | .tooLong => none
    | .found scheme rest => ofAbsolute scheme rest
    | .absent => ofAuthority bs

/-- The path: none in authority form, and `/` where it was left out. -/
def path (u : Uri) : Bytes :=
  if u.pathPart.isEmpty && (u.scheme.isSome || u.query.isSome) then [0x2F] else u.pathPart

/-- The target as text. -/
def toBytes (u : Uri) : Bytes :=
  (u.scheme.map (· ++ Bytes.ofString "://")).getD [] ++ u.authority ++ u.path ++
    (u.query.map (0x3F :: ·)).getD []

end Uri

end WireServer.Http
