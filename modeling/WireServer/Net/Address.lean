import WireServer.Number.Decimal
import WireServer.Text.Numeral

/-! Socket addresses and their text. -/

namespace WireServer.Net

/-- An address and a port. -/
inductive Address where
  | v4 (octets : List Nat) (port : Nat)
  | v6 (groups : List Nat) (scope port : Nat)
  deriving DecidableEq, Inhabited, Repr

namespace Address

/-- The pieces between separators. -/
def splitOn (sep : Char) : List Char → List (List Char)
  | [] => [[]]
  | c :: cs =>
    match splitOn sep cs with
    | [] => [[c]]
    | w :: ws => if c = sep then [] :: w :: ws else (c :: w) :: ws

/-- A decimal number below the bound; zeros in front of it do not count. -/
def decimal? (bound : Nat) (cs : List Char) : Option Nat :=
  if cs.isEmpty || !cs.all Decimal.isDigit then none
  else if Decimal.natOf cs < bound then some (Decimal.natOf cs) else none

/-- One of four octets. No zero stands in front of another digit, as some readers would take such a
number for an octal one. -/
def octet? (cs : List Char) : Option Nat :=
  if cs.length > 1 && cs.head? == some '0' then none else decimal? 256 cs

def hexDigit? (c : Char) : Option Nat :=
  if Decimal.isDigit c then some (Decimal.digitValue c)
  else if 'a' ≤ c ∧ c ≤ 'f' then some (c.toNat - 87)
  else if 'A' ≤ c ∧ c ≤ 'F' then some (c.toNat - 55)
  else none

/-- A group: one to four hexadecimal digits. -/
def group? (cs : List Char) : Option Nat :=
  if cs.isEmpty || cs.length > 4 then none
  else cs.foldlM (fun n c => (hexDigit? c).map (n * 16 + ·)) 0

def octets? (cs : List Char) : Option (List Nat) :=
  let parts := splitOn '.' cs
  if parts.length = 4 then parts.mapM octet? else none

/-- Groups between colons. -/
def groups? (cs : List Char) : Option (List Nat) :=
  if cs.isEmpty then some [] else (splitOn ':' cs).mapM group?

/-- Groups at the end of an address: the last may be four octets, which make two groups. -/
def lastGroups? (cs : List Char) : Option (List Nat) :=
  let parts := splitOn ':' cs
  match (parts.getLast?.getD []).contains '.' with
  | false => groups? cs
  | true => do
    let front ← parts.dropLast.mapM group?
    match ← octets? (parts.getLast?.getD []) with
    | [a, b, c, d] => some (front ++ [a * 256 + b, c * 256 + d])
    | _ => none

/-- What stands in front of the first double colon, and what behind it. -/
def splitGap : List Char → List Char × Option (List Char)
  | [] => ([], none)
  | ':' :: ':' :: cs => ([], some cs)
  | c :: cs => let (front, back) := splitGap cs; (c :: front, back)

/-- Eight groups, a double colon standing for one or more zeros. -/
def v6Groups? (cs : List Char) : Option (List Nat) := do
  match splitGap cs with
  | (whole, none) =>
    let gs ← lastGroups? whole
    if gs.length = 8 then some gs else none
  | (front, some back) =>
    let xs ← groups? front
    let ys ← lastGroups? back
    if xs.length + ys.length < 8 then
      some (xs ++ List.replicate (8 - xs.length - ys.length) 0 ++ ys)
    else none

/-- What stands in front of the first separator, and what behind it. -/
def cut (sep : Char) (cs : List Char) : List Char × Option (List Char) :=
  match cs.dropWhile (· ≠ sep) with
  | [] => (cs, none)
  | _ :: back => (cs.takeWhile (· ≠ sep), some back)

/-- `[address]:port` or `[address%scope]:port`. -/
def parseV6? (cs : List Char) : Option Address := do
  let (inside, back) := cut ']' cs
  match back with
  | some (':' :: port) =>
    let port ← decimal? 65536 port
    let (address, scope) := cut '%' inside
    let groups ← v6Groups? address
    match scope with
    | none => some (.v6 groups 0 port)
    | some scope => (decimal? UInt32.size scope).map fun scope => .v6 groups scope port
  | _ => none

def parse? (s : String) : Option Address :=
  match s.toList with
  | '[' :: cs => parseV6? cs
  | cs => do
    let (address, port) := cut ':' cs
    let octets ← octets? address
    let port ← decimal? 65536 (← port)
    some (.v4 octets port)

def v4Text (octets : List Nat) : String := ".".intercalate (octets.map toString)

/-- The zeros at the front. -/
def zeroRun (gs : List Nat) : Nat := (gs.takeWhile (· = 0)).length

/-- Where the first longest run of zeros starts, and how long it is. -/
def longestRun : Nat → List Nat → Nat × Nat
  | i, [] => (i, 0)
  | i, g :: gs =>
    let n := zeroRun (g :: gs)
    let rest := longestRun (i + 1) gs
    if n ≥ rest.2 then (i, n) else rest

def groupsText (gs : List Nat) : String := ":".intercalate (gs.map Numeral.hex)

/-- A mapped address shows its octets; else the first longest run of two or more zeros is left
out. -/
def v6Text (gs : List Nat) : String :=
  match gs with
  | [0, 0, 0, 0, 0, 0xFFFF, a, b] => "::ffff:" ++ v4Text [a / 256, a % 256, b / 256, b % 256]
  | _ =>
    let (start, n) := longestRun 0 gs
    if n < 2 then groupsText gs
    else groupsText (gs.take start) ++ "::" ++ groupsText (gs.drop (start + n))

def text : Address → String
  | .v4 octets port => s!"{v4Text octets}:{port}"
  | .v6 groups 0 port => s!"[{v6Text groups}]:{port}"
  | .v6 groups scope port => s!"[{v6Text groups}%{scope}]:{port}"

end Address

end WireServer.Net
