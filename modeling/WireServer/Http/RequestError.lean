import WireServer.Http.Status
import WireServer.Net.Fault

/-! What can be wrong with a request, and the status that answers it. -/

namespace WireServer.Http

inductive RequestError where
  | headTooLarge (size limit : Nat)
  | tooManyFields (limit : Nat)
  | invalidField (reason : String)
  | invalidVersion (minor : Option Nat)
  | invalidMethod
  | invalidTarget
  | invalidContentLength (reason : String)
  | bodyTooLarge (size limit : Nat)
  | invalidBody (reason : String)
  | unsupportedCoding (coding : String)
  | socket (fault : Net.Fault)
  deriving DecidableEq, Inhabited, Repr

namespace RequestError

def message : RequestError → String
  | .headTooLarge size limit => s!"header size too large, current: {size} exceed the limit {limit}"
  | .tooManyFields limit => s!"header number exceed the limit {limit}"
  | .invalidField reason => "invalid header: " ++ reason
  | .invalidVersion none => "invalid http version: None"
  | .invalidVersion (some minor) => s!"invalid http version: Some({minor})"
  | .invalidMethod => "invalid http method"
  | .invalidTarget => "invalid http uri"
  | .invalidContentLength reason => "invalid content-length header: " ++ reason
  | .bodyTooLarge size limit => s!"body size {size} exceed the limit {limit}"
  | .invalidBody reason => "invalid body: " ++ reason
  | .unsupportedCoding coding => "unsupported transfer-encoding: " ++ coding
  | .socket fault => "io error: " ++ fault.text

/-- The status of the answer. A client that announced its body with `Expect` has not sent it yet,
so a body over the limit fails the expectation. -/
def status (expecting : Bool) : RequestError → Status
  | .bodyTooLarge _ _ => if expecting then 417 else 413
  | .headTooLarge _ _ | .tooManyFields _ => 413
  | .invalidVersion _ | .unsupportedCoding _ => 501
  | .socket _ => 500
  | _ => 400

end RequestError

/-- What can be wrong with a response. -/
inductive ResponseError where
  | invalidBody (reason : String)
  | unsupportedVersion (version : Version)
  | socket (fault : Net.Fault)
  deriving DecidableEq, Inhabited, Repr

def ResponseError.message : ResponseError → String
  | .invalidBody reason => "invalid body: " ++ reason
  | .unsupportedVersion version => "unsupported http version: " ++ version.text
  | .socket fault => "io error: " ++ fault.text

end WireServer.Http
