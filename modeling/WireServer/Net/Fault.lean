/-! Socket faults by kind. -/

namespace WireServer.Net

/-- Why a socket operation failed. -/
inductive Fault where
  | wouldBlock | interrupted | connectionReset | brokenPipe | writeZero
  | addressNotAvailable
  deriving DecidableEq, Inhabited, Repr

namespace Fault

def text : Fault → String
  | .wouldBlock => "operation would block"
  | .interrupted => "operation interrupted"
  | .connectionReset => "connection reset"
  | .brokenPipe => "broken pipe"
  | .writeZero => "write zero"
  | .addressNotAvailable => "Cannot assign requested address (os error 99)"

/-- The operation may be tried again later. -/
def transient : Fault → Bool
  | .wouldBlock | .interrupted => true
  | _ => false

end Fault

end WireServer.Net
