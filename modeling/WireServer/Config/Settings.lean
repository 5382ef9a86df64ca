import WireServer.Config.IdleTimeout
import WireServer.Net.Address

/-! Server settings and the checks they have to pass. -/

namespace WireServer

structure Settings where
  address : Net.Address := .v4 [0, 0, 0, 0] 8081
  listenBacklog : Nat := 128
  reusePort : Bool := false
  idleTimeout : Duration := .ofSeconds 5
  recvBufferSize : Nat := 16 * 1024
  maxIovec : Nat := 64
  deriving DecidableEq, Inhabited, Repr

namespace Settings

def maxIovecLimit : Nat := 1024

/-- The first setting out of range, if any. -/
def fault? (s : Settings) : Option String :=
  if s.idleTimeout.nanoseconds = 0 then some "idle_timeout must be positive"
  else if s.recvBufferSize = 0 then some "recv_buffer_size must be positive"
  else if s.listenBacklog = 0 then some "listen_backlog must be positive"
  else if s.maxIovec = 0 ∨ maxIovecLimit < s.maxIovec then
    some s!"max_iovec must be within 1..={maxIovecLimit}"
  else none

def validate (s : Settings) : Except StartError Settings :=
  match s.fault? with
  | some reason => .error (.invalidConfig reason)
  | none => .ok s

/-- Settings to start with: the override of the idle timeout counts before any check. -/
def build (s : Settings) (idleOverride : Option String) : Except StartError Settings :=
  match idleOverride with
  | none => s.validate
  | some value =>
    match IdleTimeout.parse value with
    | .error e => .error e
    | .ok d => { s with idleTimeout := d }.validate

end Settings

end WireServer
