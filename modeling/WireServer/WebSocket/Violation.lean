import WireServer.Text.Numeral
import WireServer.Net.Fault

/-! What a peer can do wrong on a WebSocket, the text for it, and the close code that answers it. -/

namespace WireServer.WebSocket

/-- A breach of the framing rules or of a size limit. -/
inductive Violation where
  | reservedBits (bits : UInt8)
  | unknownOpcode (opcode : UInt8)
  | fragmentedControl
  | unexpectedContinuation
  | expectedContinuation
  | unmasked
  | controlTooLong
  | invalidLength
  | frameTooLarge (size limit : Nat)
  | messageTooLarge (size limit : Nat)
  | invalidUtf8
  | closePayloadCut
  | invalidCloseCode (code : UInt16)
  | socket (fault : Net.Fault)
  deriving DecidableEq, Inhabited, Repr

namespace Violation

def message : Violation → String
  | .reservedBits bits =>
    "reserved bits set without a negotiated extension: " ++ Numeral.byteHex bits
  | .unknownOpcode opcode => "unsupported opcode: " ++ Numeral.prefixedHex opcode.toNat
  | .fragmentedControl => "control frame without FIN"
  | .unexpectedContinuation => "continuation frame without an open fragmented message"
  | .expectedContinuation => "new data frame while a fragmented message is still open"
  | .unmasked => "client frame is not masked"
  | .controlTooLong => "control frame payload exceeds 125 bytes"
  | .invalidLength => "invalid extended payload length"
  | .frameTooLarge size limit => s!"frame size {size} exceed the limit {limit}"
  | .messageTooLarge size limit => s!"message size {size} exceed the limit {limit}"
  | .invalidUtf8 => "invalid utf-8 in text payload"
  | .closePayloadCut => "close payload of a single byte"
  | .invalidCloseCode code => s!"invalid close code: {code.toNat}"
  | .socket fault => "io error: " ++ fault.text

/-- The status code of the close frame sent in answer. -/
def closeCode : Violation → UInt16
  | .unknownOpcode _ => 1003
  | .invalidUtf8 => 1007
  | .frameTooLarge _ _ | .messageTooLarge _ _ => 1009
  | .socket _ => 1011
  | _ => 1002

/-- Whether a size limit was passed. -/
def exhausts : Violation → Bool
  | .frameTooLarge _ _ | .messageTooLarge _ _ => true
  | _ => false

end Violation

end WireServer.WebSocket
