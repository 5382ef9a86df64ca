import WireServer.App.Visit
import WireServer.WebSocket.Codec
import WireServer.Proofs.WebSocket.Splitting
import WireServer.Proofs.WebSocket.Acceptance
import WireServer.Proofs.WebSocket.Discipline
import WireServer.Proofs.Connection.Unsent
import WireServer.Proofs.Http.Framing
import WireServer.Proofs.Http.Responding
import WireServer.Proofs.Http.Order
import WireServer.Proofs.Text.Pieces
import WireServer.Proofs.Net.Conservation
import WireServer.Proofs.WebSocket.RoundTrip
import WireServer.Proofs.Http.RequestPieces
import WireServer.Proofs.Http.Opening
import WireServer.Proofs.Connection.Traffic
import WireServer.Proofs.Connection.HandOver
import WireServer.Proofs.Http.ChunkedGrammar
import WireServer.Proofs.Http.SelfFraming
import WireServer.Proofs.Http.RequestText
import WireServer.Proofs.Http.Serving
import WireServer.Proofs.WebSocket.Echo
import WireServer.Proofs.WebSocket.Delivery
import WireServer.Proofs.Http.Interim
import WireServer.Proofs.Connection.Lifecycle
import WireServer.Proofs.Connection.Stopping
import WireServer.Proofs.Session.Wakeups
import WireServer.Proofs.Server.Draining
import WireServer.Proofs.Mqtt.Conversation
import WireServer.Proofs.Http.Oversize
import WireServer.Proofs.Http.HeadCuts
import WireServer.Proofs.Http.ExpectScan
import WireServer.Proofs.Http.Mirroring
import WireServer.Proofs.WebSocket.Masking
import WireServer.Proofs.WebSocket.Progress
import WireServer.Proofs.Mqtt.ConnectBytes
import WireServer.Proofs.Http.Persistence
import WireServer.Proofs.Mqtt.Lengths
import WireServer.Proofs.WebSocket.HeaderLengths
