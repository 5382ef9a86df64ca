import WireServer.Mqtt.Connect
import WireServer.Session.Turn

/-! A minimal MQTT session: CONNECT and PINGREQ are answered, DISCONNECT half-closes, and every
other packet is read and dropped. -/

namespace WireServer.Mqtt

/-- The usual limit for a packet behind its fixed header. -/
def defaultMaxPacket : Nat := 64 * 1024

structure Service where
  maxPacket : Nat := defaultMaxPacket
  deriving DecidableEq, Inhabited, Repr

def Service.describe (s : Service) : String :=
  s!"MqttProtocol \x7b max_packet_size: {s.maxPacket} \x7d"

/-- The remaining length takes at most four bytes. -/
def maxLengthBytes : UInt8 := 4

def connackAccepted : Bytes := [0x20, 0x02, 0x00, 0x00]

def pingResponse : Bytes := [0xD0, 0x00]

/-- Where in a packet the next byte belongs. -/
inductive Phase where
  | control
  /-- `count` bytes of the length are read and spell `value`; the next one counts `weight`. A client
  that goes on behind too many bytes makes these words wrap around. -/
  | length (value : UInt64) (count : UInt8) (weight : UInt64)
  | body (remaining : Nat)
  | complete
  deriving DecidableEq, Inhabited, Repr

structure Session where
  phase : Phase := .control
  /-- The first byte of the packet. -/
  control : UInt8 := 0
  body : Bytes := []
  connect : Option Connect := none
  disconnecting : Bool := false
  out : Net.Chain := {}
  deriving DecidableEq, Inhabited, Repr

namespace Session

variable {α π : Type}

abbrev Turn (α π : Type) := WireServer.Turn Session α π

def packetType (s : Session) : Nat := s.control.toNat / 16

/-- One byte of the remaining length, seven bits of it, low bits first. -/
def readLength (s : Session) (limit : Nat) (value : UInt64) (count : UInt8) (weight : UInt64)
    (b : UInt8) : Session × Option Error :=
  let value := value + (b &&& 0x7F).toUInt64 * weight
  let s := { s with phase := .length value (count + 1) weight }
  if 0x80 ≤ b then
    if count + 1 = maxLengthBytes then (s, some .malformedLength)
    else ({ s with phase := .length value (count + 1) (weight * 128) }, none)
  else if value.toNat > limit then (s, some (.tooLarge value.toNat limit))
  else ({ s with phase := if value = 0 then .complete else .body value.toNat }, none)

/-- Body bytes, up to the end of the packet. -/
def readBody (s : Session) (remaining : Nat) (src : Bytes) : Session × Bytes :=
  let need := remaining - s.body.length
  let body := s.body ++ src.take need
  ({ s with body, phase := if body.length = remaining then .complete else .body remaining },
    src.drop need)

/-- Parses up to the end of a packet, and gives the bytes behind it. -/
def parse (limit : Nat) : Session → Bytes → Session × Except Error Bytes
  | s, [] => (s, .ok [])
  | s, b :: rest =>
    match s.phase with
    | .complete => (s, .ok (b :: rest))
    | .control => parse limit { s with control := b, phase := .length 0 0 1 } rest
    | .length value count weight =>
      match s.readLength limit value count weight b with
      | (s, some e) => (s, .error e)
      | (s, none) => parse limit s rest
    | .body remaining =>
      let (s, rest) := s.readBody remaining (b :: rest)
      (s, .ok rest)

/-- A complete packet. Before CONNECT nothing else is allowed, and then no second one. -/
def completePacket (s : Session) : Session × Except Error Unit :=
  let body := s.body
  let s := { s with body := [] }
  match s.packetType, s.connect with
  | 1, some _ => (s, .error (.malformed "second CONNECT"))
  | 1, none =>
    match Connect.parse body with
    | .error e => (s, .error e)
    | .ok c => ({ s with connect := some c, out := s.out.push connackAccepted }, .ok ())
  | t, none => (s, .error (.notConnected t))
  | 12, some _ => ({ s with out := s.out.push pingResponse }, .ok ())
  | 14, some _ => ({ s with disconnecting := true }, .ok ())
  | _, some _ => (s, .ok ())

/-- Makes room for the next packet. -/
def reset (s : Session) : Session := { s with phase := .control, control := 0 }

/-- Packet after packet; each call takes at least one byte. -/
def readPackets (limit : Nat) : Nat → Session → Bytes → Session × Except Error Unit
  | 0, s, _ => (s, .ok ())
  | fuel + 1, s, src =>
    if src.isEmpty || s.disconnecting then (s, .ok ())
    else match s.parse limit src with
      | (s, .error e) => (s, .error e)
      | (s, .ok rest) =>
        if s.phase = .complete then
          match s.completePacket with
          | (s, .error e) => (s, .error e)
          | (s, .ok ()) => readPackets limit fuel s.reset rest
        else readPackets limit fuel s rest

/-- Output waits for the socket; without any, a session that disconnects half-closes. -/
def arm (t : Turn α π) : Turn α π :=
  if t.session.out.total > 0 then t.enableTx
  else if t.session.disconnecting then t.shutdown
  else t

/-- All of the input is used up; behind DISCONNECT it is thrown away. -/
def read (p : Service) (t : Turn α π) (src : Bytes) : Turn α π × Except Failure Unit :=
  match t.session.readPackets p.maxPacket (src.length + 1) src with
  | (s, .ok ()) => (arm { t with session := s }, .ok ())
  | (s, .error e) => ({ t with session := s }, .error (.mqtt e))

def write {τ : Type} (t : Turn α π) (socket : Net.Sender τ) (io : τ) :
    Turn α π × τ × Except Failure WriteStatus :=
  match Net.sendChain socket io t.session.out t.ctx.maxIovec with
  | (io, out, result) =>
    let t := t.modify fun s => { s with out }
    match result with
    | .error fault => (t, io, .error (.socket fault))
    | .ok .pending => (t, io, .ok .pending)
    | .ok .drained => (if t.session.disconnecting then t.shutdown else t, io, .ok .flushed)

/-- The server stops. -/
def stop (t : Turn α π) : Turn α π := arm (t.modify fun s => { s with disconnecting := true })

end Session

end WireServer.Mqtt
