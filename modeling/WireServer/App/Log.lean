import WireServer.WebSocket.Session
import WireServer.Http.Session

/-! A scripted application: it keeps a log of what it is asked for and of what its actions gave. -/

namespace WireServer.App

/-- An entry of the log. -/
inductive Entry where
  | request (call : Nat) (request : Http.Request)
  /-- An action and the reply to it. -/
  | did (action : String) (reply : Http.Reply)
  | onConnect
  | onMessage (flags : WebSocket.Flags) (payload : Bytes)
  | onClose (code : UInt16)
  | status (standing : WebSocket.Standing) (queued : Nat)
  /-- The counter attached to a session, as a number and as a text. -/
  | count (n : Nat) (text : Option String)
  /-- What a kept sender gave, and whether its connection is closing. -/
  | sender (result : Except Refusal Unit) (closed : Bool)
  | noSender
  /-- No responder is put aside under the number. -/
  | nothingHeld
  | workerFailed (cause : String)
  | connectionOpened (rx tx stopping : Bool)
  | connectionClosed (rx tx stopping shutdown close : Bool)

/-- The application's state; the log has its newest entry first. -/
structure State where
  entries : List Entry := []
  /-- Requests so far. -/
  requests : Nat := 0
  /-- Messages so far. -/
  messages : Nat := 0
  /-- A sender of the session is kept for later. -/
  keepsSender : Bool := false

namespace State

def note (s : State) (e : Entry) : State := { s with entries := e :: s.entries }

/-- The log in order, and the state with an empty one. -/
def takeLog (s : State) : State × List Entry := ({ s with entries := [] }, s.entries.reverse)

end State

end WireServer.App
