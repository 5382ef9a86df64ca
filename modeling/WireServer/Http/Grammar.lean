import WireServer.Bytes

/-! The byte classes of HTTP, comparison without regard to case, and lists of tokens. -/

namespace WireServer.Http

def isDigit (b : UInt8) : Bool := 0x30 ≤ b && b ≤ 0x39

def isUpper (b : UInt8) : Bool := 0x41 ≤ b && b ≤ 0x5A

def isLetter (b : UInt8) : Bool := isUpper b || (0x61 ≤ b && b ≤ 0x7A)

/-- Space and tab. -/
def isBlank (b : UInt8) : Bool := b = 0x20 || b = 0x09

/-- The bytes of methods and field names. -/
def isToken (b : UInt8) : Bool :=
  isLetter b || isDigit b || (Bytes.ofString "!#$%&'*+-.^_\x60|~").contains b

/-- The bytes of a request target. -/
def isTarget (b : UInt8) : Bool := (0x21 ≤ b && b ≤ 0x7E) || 0x80 ≤ b

/-- The bytes of a field value. -/
def isFieldValue (b : UInt8) : Bool := b = 0x09 || (0x20 ≤ b && b ≤ 0x7E) || 0x80 ≤ b

/-- The bytes that text may show: tab and printable ASCII. -/
def isVisible (b : UInt8) : Bool := b = 0x09 || (0x20 ≤ b && b ≤ 0x7E)

def toLower (b : UInt8) : UInt8 := if isUpper b then b + 0x20 else b

def lowercase (bs : Bytes) : Bytes := bs.map toLower

def sameIgnoringCase (xs ys : Bytes) : Bool := lowercase xs = lowercase ys

/-- Without the bytes of the class at either end. -/
def trim (cls : UInt8 → Bool) (bs : Bytes) : Bytes :=
  ((bs.dropWhile cls).reverse.dropWhile cls).reverse

/-- The pieces between separators; there is always one more than there are separators. -/
def pieces (sep : UInt8 → Bool) : Bytes → List Bytes
  | [] => [[]]
  | b :: bs =>
    match pieces sep bs with
    | [] => [[b]]
    | w :: ws => if sep b then [] :: w :: ws else (b :: w) :: ws

/-- Space, comma, tab and the line ends. -/
def isListSeparator (b : UInt8) : Bool :=
  b = 0x20 || b = 0x2C || b = 0x09 || b = 0x0A || b = 0x0D

/-- A field value lists a token, in any case. -/
def hasToken (value token : Bytes) : Bool :=
  (pieces isListSeparator value).any fun item => !item.isEmpty && sameIgnoringCase item token

end WireServer.Http
