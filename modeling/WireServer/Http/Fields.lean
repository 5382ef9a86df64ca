import WireServer.Http.Grammar

/-! Header fields, kept as the header map of the `http` library keeps them, which the server calls
and does not contain. Names stand in the order in which they first came, each with all its values.
Removing a name moves the last one into its place. -/

namespace WireServer.Http

/-- Header fields; names are lowercase. -/
structure Fields where
  groups : List (Bytes × List Bytes) := []
  deriving DecidableEq, Inhabited, Repr

namespace Fields

def empty : Fields := {}

/-- All values of a name. -/
def getAll (h : Fields) (name : Bytes) : List Bytes :=
  ((h.groups.find? fun g => g.1 == name).map Prod.snd).getD []

/-- The first value of a name. -/
def get? (h : Fields) (name : Bytes) : Option Bytes := (h.getAll name).head?

def contains (h : Fields) (name : Bytes) : Bool := h.groups.any fun g => g.1 == name

/-- One more value for a name. -/
def append (h : Fields) (name value : Bytes) : Fields :=
  if h.contains name then
    ⟨h.groups.map fun g => if g.1 == name then (g.1, g.2 ++ [value]) else g⟩
  else ⟨h.groups ++ [(name, [value])]⟩

/-- The only value of a name from now on; a name that is there keeps its place. -/
def insert (h : Fields) (name value : Bytes) : Fields :=
  if h.contains name then ⟨h.groups.map fun g => if g.1 == name then (g.1, [value]) else g⟩
  else ⟨h.groups ++ [(name, [value])]⟩

/-- Takes a name out and puts the last one into the gap. -/
def remove (h : Fields) (name : Bytes) : Fields :=
  if h.contains name then
    match h.groups.getLast? with
    | none => h
    | some last =>
      if last.1 == name then ⟨h.groups.dropLast⟩
      else ⟨h.groups.dropLast.map fun g => if g.1 == name then last else g⟩
  else h

/-- The field lines in order. -/
def toList (h : Fields) : List (Bytes × Bytes) :=
  h.groups.flatMap fun g => g.2.map fun v => (g.1, v)

/-- The fields of a list of lines, names in any case. -/
def ofList (lines : List (Bytes × Bytes)) : Fields :=
  lines.foldl (fun h l => h.append (lowercase l.1) l.2) empty

/-- The number of values. -/
def size (h : Fields) : Nat := h.toList.length

end Fields

/-- The bytes of a field name that the server itself looks at. -/
def fieldName (s : String) : Bytes := Bytes.ofString s

end WireServer.Http
