import WireServer.Net.Chain
import WireServer.Net.Fault

/-! Sending the front of a chain with one vectored send. -/

namespace WireServer.Net

/-- What a socket says to a vectored send. -/
inductive SendAnswer where
  | accepted (n : Nat)
  | failed (fault : Fault)
  deriving DecidableEq, Inhabited, Repr

/-- A socket's sending side, over the state of the socket. -/
structure Sender (σ : Type) where
  send : σ → List Bytes → σ × SendAnswer

inductive SendStatus where
  | drained | pending
  deriving DecidableEq, Inhabited, Repr

/-- Sends at most `maxSlices` ranges. A socket that cannot take any now leaves the chain as it is;
one that takes zero bytes counts as broken. With nothing left to send there is no call at all. -/
def sendChain {σ : Type} (t : Sender σ) (s : σ) (c : Chain) (maxSlices : Nat) :
    σ × Chain × Except Fault SendStatus :=
  if c.total = 0 then (s, .empty, .ok .drained)
  else
    match t.send s (c.slices (max maxSlices 1)) with
    | (s, .accepted 0) => (s, c, .error .writeZero)
    | (s, .accepted n) =>
      let c := (c.consume n).1
      if c.total = 0 then (s, .empty, .ok .drained) else (s, c, .ok .pending)
    | (s, .failed fault) => if fault.transient then (s, c, .ok .pending) else (s, c, .error fault)

/-- A socket that follows a script, then takes everything. It keeps the bytes it took and the
number of ranges in each call. -/
structure ScriptedSocket where
  script : List SendAnswer := []
  written : Bytes := []
  sliceCounts : List Nat := []
  deriving DecidableEq, Inhabited, Repr

namespace ScriptedSocket

/-- Takes the first `n` bytes of the ranges. -/
def take (s : ScriptedSocket) (n : Nat) (slices : List Bytes) : ScriptedSocket × SendAnswer :=
  let data := slices.flatten.take n
  ({ s with written := s.written ++ data }, .accepted data.length)

def send (s : ScriptedSocket) (slices : List Bytes) : ScriptedSocket × SendAnswer :=
  let s := { s with sliceCounts := s.sliceCounts ++ [slices.length] }
  match s.script with
  | [] => s.take slices.flatten.length slices
  | .accepted n :: script => { s with script }.take n slices
  | .failed fault :: script => ({ s with script }, .failed fault)

def sender : Sender ScriptedSocket := ⟨send⟩

end ScriptedSocket

end WireServer.Net
