import WireServer.Digest.Sha1
import WireServer.Text.Base64

/-! The answer to a client's key in the opening handshake. -/

namespace WireServer.WebSocket

/-- What is hashed behind every key. -/
def handshakeGuid : String := "258EAFA5-E914-47DA-95CA-C5AB0DC85B11"

/-- The only protocol version spoken. -/
def handshakeVersion : String := "13"

def acceptKey (key : Bytes) : String :=
  Base64.encode (Sha1.digest (key ++ Bytes.ofString handshakeGuid))

end WireServer.WebSocket
