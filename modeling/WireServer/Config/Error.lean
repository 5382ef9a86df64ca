import WireServer.Net.Fault

/-! What can keep a server from starting. -/

namespace WireServer

/-- Failures of configuration and startup. -/
inductive StartError where
  | bind (address : String) (fault : Net.Fault)
  | socket (fault : Net.Fault)
  | invalidConfig (reason : String)
  | invalidState (state : String)
  | runtime (component reason : String)
  deriving DecidableEq, Inhabited, Repr

def StartError.message : StartError → String
  | .bind address fault => "failed to bind " ++ address ++ ": " ++ fault.text
  | .socket fault => "io error: " ++ fault.text
  | .invalidConfig reason => "invalid config: " ++ reason
  | .invalidState state => "operation not allowed in server state " ++ state
  | .runtime component reason => "failed to initialize " ++ component ++ ": " ++ reason

end WireServer
