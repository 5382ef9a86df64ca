import WireServer.Config.Error
import WireServer.Number.Binary64
import WireServer.Text.Quoted

/-! The idle timeout, as a length of time and as text in seconds. -/

namespace WireServer

/-- A length of time in whole nanoseconds. -/
structure Duration where
  nanoseconds : Nat
  deriving DecidableEq, Inhabited, Repr

namespace Duration

/-- Nanoseconds in a second. -/
def perSecond : Nat := 1000000000

def ofSeconds (n : Nat) : Duration := ⟨n * perSecond⟩

def ofMilliseconds (n : Nat) : Duration := ⟨n * 1000000⟩

/-- Whole seconds. -/
def seconds (d : Duration) : Nat := d.nanoseconds / perSecond

/-- The nanoseconds beyond whole seconds. -/
def subsecond (d : Duration) : Nat := d.nanoseconds % perSecond

/-- The nearest nanosecond; the seconds have to stay below 2^64. -/
def ofBinary64? (x : Binary64) : Option Duration :=
  if x.atLeast UInt64.size then none else some ⟨x.scaled perSecond⟩

end Duration

namespace IdleTimeout

/-- The environment variable that overrides the configured timeout. -/
def variableName : String := "MICRO_SERVER_IDLE_TIMEOUT"

/-- White space as Unicode has it. -/
def isSpace (c : Char) : Bool :=
  (9 ≤ c.toNat && c.toNat ≤ 13) || (0x2000 ≤ c.toNat && c.toNat ≤ 0x200A) ||
    [0x20, 0x85, 0xA0, 0x1680, 0x2028, 0x2029, 0x202F, 0x205F, 0x3000].contains c.toNat

def trim (cs : List Char) : List Char :=
  ((cs.dropWhile isSpace).reverse.dropWhile isSpace).reverse

/-- The number behind an optional plus sign. -/
def unsigned : List Char → List Char
  | '+' :: cs => cs
  | cs => cs

/-- A positive number of seconds, as its nearest binary floating-point number has it. No negative
number is a timeout, and neither are zero, infinity and what is no number. -/
def seconds? (value : String) : Option Duration := do
  let d ← Decimal.parse? (unsigned (trim value.toList))
  let x := Binary64.ofDecimal d
  if x.mantissa = 0 then none else Duration.ofBinary64? x

def parse (value : String) : Except StartError Duration :=
  match seconds? value with
  | some d => .ok d
  | none => .error (.invalidConfig
      (variableName ++ "=" ++ Quoted.quote value ++ " is not a positive number of seconds"))

end IdleTimeout

end WireServer
