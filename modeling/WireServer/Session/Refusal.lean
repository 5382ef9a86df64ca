/-! Why output could not be queued. -/

namespace WireServer

/-- Why the outbox of a connection could not be locked. -/
inductive LockFault where
  /-- Another holder has the lock right now. -/
  | contended
  /-- The connection is closing. -/
  | gone
  deriving DecidableEq, Inhabited, Repr

def LockFault.message : LockFault → String
  | .contended => "connection lock is contended"
  | .gone => "connection is closing"

/-- Why a session would not send. -/
inductive Refusal where
  | closing | closed | aborted | busy | invalidOpcode | controlTooLong
  deriving DecidableEq, Inhabited, Repr

namespace Refusal

def message : Refusal → String
  | .closing => "session is closing"
  | .closed => "session is closed"
  | .aborted => "session aborted after an error"
  | .busy => "connection is busy"
  | .invalidOpcode => "opcode can't be sent through this call"
  | .controlTooLong => "control frame payload exceeds 125 bytes"

def ofLockFault : LockFault → Refusal
  | .contended => .busy
  | .gone => .closed

end Refusal

end WireServer
