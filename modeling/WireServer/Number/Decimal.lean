/-! Unsigned decimal numbers: digits with an optional point and an optional exponent. -/

namespace WireServer

/-- The number `digits * 10 ^ exponent`. -/
structure Decimal where
  digits : Nat
  exponent : Int
  deriving DecidableEq, Inhabited, Repr

namespace Decimal

/-- `10 ^ e` for a nonnegative exponent, else one. -/
def tens (e : Int) : Nat := Nat.pow 10 e.toNat

def isDigit (c : Char) : Bool := '0' ≤ c && c ≤ '9'

def digitValue (c : Char) : Nat := c.toNat - '0'.toNat

def natOf (cs : List Char) : Nat := cs.foldl (fun n c => n * 10 + digitValue c) 0

/-- An exponent's size; it stops growing where no number could tell the difference. -/
def exponentOf (cs : List Char) : Nat :=
  cs.foldl (fun n c => if n < 65536 then n * 10 + digitValue c else n) 0

/-- The exponent behind the letter: a sign or none, and at least one digit. -/
def exponent? (cs : List Char) : Option Int :=
  let (negative, ds) := match cs with
    | '-' :: ds => (true, ds)
    | '+' :: ds => (false, ds)
    | ds => (false, ds)
  if ds.isEmpty || !ds.all isDigit then none
  else some (if negative then -(exponentOf ds : Int) else exponentOf ds)

/-- What stands behind the digits: nothing or an exponent. -/
def scale? : List Char → Option Int
  | [] => some 0
  | c :: cs => if c = 'e' || c = 'E' then exponent? cs else none

/-- A number without a sign; there is a digit on at least one side of the point. -/
def parse? (cs : List Char) : Option Decimal :=
  let whole := cs.takeWhile isDigit
  let rest := cs.dropWhile isDigit
  let (fraction, rest) := match rest with
    | '.' :: rest => (rest.takeWhile isDigit, rest.dropWhile isDigit)
    | rest => ([], rest)
  if whole.isEmpty && fraction.isEmpty then none
  else (scale? rest).map fun e => ⟨natOf (whole ++ fraction), e - fraction.length⟩

end Decimal

end WireServer
