/-! Counting the connections that are not over. At most one notice that none is left is stored,
however often that came about. -/

namespace WireServer.Server

structure Live where
  count : Nat := 0
  /-- A notice that none is left is stored. -/
  drained : Bool := false
  deriving DecidableEq, Inhabited, Repr

namespace Live

def enter (l : Live) : Live := { l with count := l.count + 1 }

/-- The last one leaves a notice. -/
def leave (l : Live) : Live := ⟨l.count - 1, l.drained || l.count ≤ 1⟩

/-- Uses up the stored notice. -/
def settle (l : Live) : Live := { l with drained := false }

end Live

end WireServer.Server
