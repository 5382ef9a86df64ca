import WireServer.Number.Decimal

/-! The binary floating-point number nearest to a fraction, in exact arithmetic: 53 bits, a unit
not below 2^-1074, and ties to the even neighbour. -/

namespace WireServer

/-- The whole number nearest to a quotient; a tie goes to the even neighbour. -/
def roundHalfEven (num den : Nat) : Nat :=
  let q := num / den
  let r := num % den
  if den < 2 * r ∨ (2 * r = den ∧ q % 2 = 1) then q + 1 else q

/-- The number `mantissa * 2 ^ exponent`. -/
structure Binary64 where
  mantissa : Nat
  exponent : Int
  deriving DecidableEq, Inhabited, Repr

namespace Binary64

/-- `2 ^ e` for a nonnegative exponent, else one. -/
def up (e : Int) : Nat := 1 <<< e.toNat

/-- The greatest `l` with `2 ^ l ≤ num / den`, for a positive quotient. -/
def floorLog2 (num den : Nat) : Int :=
  let l : Int := (num.log2 : Int) - den.log2
  if den * up l ≤ num * up (-l) then l else l - 1

/-- The nearest number to a quotient. -/
def nearest (num den : Nat) : Binary64 :=
  if num = 0 then ⟨0, 0⟩
  else
    let e := max (-1074) (floorLog2 num den - 52)
    ⟨roundHalfEven (num * up (-e)) (den * up e), e⟩

def ofDecimal (d : Decimal) : Binary64 :=
  nearest (d.digits * Decimal.tens d.exponent) (Decimal.tens (-d.exponent))

/-- `x * k` to the nearest whole number. -/
def scaled (x : Binary64) (k : Nat) : Nat :=
  roundHalfEven (x.mantissa * up x.exponent * k) (up (-x.exponent))

/-- The number is at least `n`. -/
def atLeast (x : Binary64) (n : Nat) : Bool := n * up (-x.exponent) ≤ x.mantissa * up x.exponent

end Binary64

end WireServer
