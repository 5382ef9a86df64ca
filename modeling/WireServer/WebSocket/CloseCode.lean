import WireServer.WebSocket.Violation
import WireServer.Bytes

/-! Close status codes and the payload of a close frame. -/

namespace WireServer.WebSocket.CloseCode

def normal : UInt16 := 1000
def goingAway : UInt16 := 1001
def messageTooBig : UInt16 := 1009
def internalError : UInt16 := 1011

/-- A peer may send the registered codes and the range of libraries and applications. The
placeholders 1005 and 1006 are never sent. -/
def valid (code : UInt16) : Bool :=
  (1000 ≤ code && code ≤ 1003) || (1007 ≤ code && code ≤ 1011) || (3000 ≤ code && code ≤ 4999)

/-- The code that answers a received close payload; an empty one counts as normal closure. -/
def ofPayload : Bytes → Except Violation UInt16
  | [] => .ok normal
  | [_] => .error .closePayloadCut
  | hi :: lo :: _ =>
    let code := UInt16.ofNat (hi.toNat * 256 + lo.toNat)
    if valid code then .ok code else .error (.invalidCloseCode code)

/-- A close payload: the code and a reason. -/
def payload (code : UInt16) (reason : Bytes) : Bytes := Bytes.ofNatBE 2 code.toNat ++ reason

end WireServer.WebSocket.CloseCode
