import WireServer.Text.Quoted

/-! What can be wrong with MQTT input. -/

namespace WireServer.Mqtt

inductive Error where
  | malformedLength
  | tooLarge (size limit : Nat)
  | unsupportedProtocol (name : String) (level : UInt8)
  | malformed (reason : String)
  | notConnected (packetType : Nat)
  deriving DecidableEq, Inhabited, Repr

namespace Error

def message : Error → String
  | .malformedLength => "remaining length uses more than 4 bytes"
  | .tooLarge size limit => s!"packet of {size} bytes exceed the limit {limit}"
  | .unsupportedProtocol name level =>
    "unsupported protocol " ++ Quoted.quote name ++ s!" level {level.toNat}"
  | .malformed reason => "malformed packet: " ++ reason
  | .notConnected packetType => s!"packet type {packetType} before CONNECT"

def exhausts : Error → Bool
  | .tooLarge _ _ => true
  | _ => false

end Error

end WireServer.Mqtt
