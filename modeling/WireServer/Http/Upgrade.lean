import WireServer.Http.RequestHead
import WireServer.Http.Response
import WireServer.WebSocket.AcceptKey

/-! Requests to switch protocols. Handlers are asked in turn, and the first that knows the protocol
decides. -/

namespace WireServer.Http

/-- A handler's answer. -/
inductive UpgradeStatus (π : Type) where
  /-- Send the response, then go on with the other protocol. -/
  | handled (response : Response) (next : π)
  /-- Serve the request as it is. -/
  | ignore
  /-- Not a protocol of this handler. -/
  | unknown
  | refused (status : Status)
  deriving DecidableEq, Inhabited, Repr

abbrev UpgradeHandler (π : Type) := RequestHead → UpgradeStatus π

namespace UpgradeHandler

variable {π : Type}

/-- The first value of the `Upgrade` field lists the protocol. -/
def asksFor (r : RequestHead) (protocol : String) : Bool :=
  match r.fields.get? (fieldName "upgrade") with
  | some value => hasToken value (Bytes.ofString protocol)
  | none => false

/-- HTTP/2 in plain text is answered in HTTP/1.1. -/
def h2c : UpgradeHandler π := fun r => if asksFor r "h2c" then .ignore else .unknown

/-- The client's key, if the opening handshake is in order. -/
def handshakeKey? (r : RequestHead) : Option Bytes :=
  if !r.isMethod "GET" || !r.fields.contains (fieldName "host") || !r.connectionHas "upgrade" then
    none
  else
    match r.fields.get? (fieldName "sec-websocket-key"),
      r.fields.get? (fieldName "sec-websocket-version") with
    | some key, some version =>
      if version = Bytes.ofString WebSocket.handshakeVersion then some key else none
    | _, _ => none

/-- The response that accepts a handshake. -/
def switching (key : Bytes) : Response where
  head := {
    status := 101
    fields := ((Fields.empty.insert (fieldName "upgrade") (Bytes.ofString "websocket")).insert
      (fieldName "connection") (Bytes.ofString "upgrade")).insert
      (fieldName "sec-websocket-accept") (Bytes.ofString (WebSocket.acceptKey key)) }

/-- Switches to WebSocket behind an opening handshake in order. -/
def webSocket (next : π) : UpgradeHandler π := fun r =>
  if asksFor r "websocket" then
    match handshakeKey? r with
    | some key => .handled (switching key) next
    | none => .refused 426
  else .unknown

/-- Switches whatever is asked for. -/
def always (next : π) : UpgradeHandler π := fun _ => .handled (.empty 101) next

/-- Asks the handlers in turn. -/
def ask : List (UpgradeHandler π) → UpgradeHandler π
  | [], _ => .unknown
  | h :: hs, r =>
    match h r with
    | .unknown => ask hs r
    | status => status

end UpgradeHandler

/-- An answer as a line of text; `name` names the protocol that takes over. -/
def UpgradeStatus.describe {π : Type} (name : π → String) : UpgradeStatus π → String
  | .handled response next =>
    s!"Handled \x7b status: {response.head.status}, next: \"" ++ name next ++ "\" \x7d"
  | .ignore => "Ignore"
  | .unknown => "NoProto"
  | .refused status => s!"Error({status})"

end WireServer.Http
