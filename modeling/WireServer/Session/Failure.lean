import WireServer.Http.RequestError
import WireServer.Mqtt.Error
import WireServer.WebSocket.Violation

/-! Failures that end one connection. -/

namespace WireServer

inductive Failure where
  | socket (fault : Net.Fault)
  | request (error : Http.RequestError)
  | response (error : Http.ResponseError)
  | webSocket (violation : WebSocket.Violation)
  | mqtt (error : Mqtt.Error)
  | callback (cause : String)
  | exhausted (reason : String)
  deriving DecidableEq, Inhabited, Repr

namespace Failure

def message : Failure → String
  | .socket fault => "io error: " ++ fault.text
  | .request error => "http error: request error: " ++ error.message
  | .response error => "http error: response error: " ++ error.message
  | .webSocket violation => "websocket error: " ++ violation.message
  | .mqtt error => "mqtt error: " ++ error.message
  | .callback cause => "callback failed: " ++ cause
  | .exhausted reason => "resource exhausted: " ++ reason

/-- A size limit was passed; the input was not malformed. -/
def exhausts : Failure → Bool
  | .exhausted _ => true
  | .webSocket violation => violation.exhausts
  | .mqtt error => error.exhausts
  | .request (.bodyTooLarge _ _) => true
  | _ => false

end Failure

/-- How a callback of the application ended. -/
inductive Outcome where
  | ok
  | failed (cause : String)
  | panicked (cause : String)
  deriving DecidableEq, Inhabited, Repr

/-- A callback that panicked counts as one that failed. -/
def Outcome.failure? : Outcome → Option String
  | .ok => none
  | .failed cause => some cause
  | .panicked cause => some ("panicked: " ++ cause)

end WireServer
