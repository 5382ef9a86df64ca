import WireServer.Mqtt.Error
import WireServer.Text.Utf8Decode

/-! The CONNECT packet: protocol, flags, keep-alive time and the fields that the flags announce. -/

namespace WireServer.Mqtt

/-- What is published when the client goes away. -/
structure Will where
  topic : String
  message : Bytes
  deriving DecidableEq, Inhabited, Repr

structure Connect where
  level : UInt8
  flags : UInt8
  keepAlive : Nat
  clientId : String
  will : Option Will
  username : Option String
  password : Option Bytes
  deriving DecidableEq, Inhabited, Repr

namespace Connect

/-- The accepted names and levels. -/
def protocols : List (Bytes × UInt8) :=
  [(Bytes.ofString "MQTT", 4), (Bytes.ofString "MQIsdp", 3)]

/-- A reader takes its part from the front of a packet. -/
abbrev Reader (α : Type) := StateT Bytes (Except Error) α

def take (n : Nat) : Reader Bytes := fun bs =>
  if bs.length < n then .error (.malformed s!"need {n} bytes, {bs.length} left")
  else .ok (bs.take n, bs.drop n)

def byte : Reader UInt8 := do return (← take 1).headD 0

def number : Reader Nat := do return Bytes.toNatBE (← take 2)

/-- Bytes behind a length of two bytes. -/
def field : Reader Bytes := do take (← number)

def text : Reader String := do
  match Utf8.decode (← field) with
  | .ok s => return s
  | .error fault => throw (.malformed fault.text)

/-- The reader's result if a flag is set. -/
def optional {α : Type} (present : Bool) (r : Reader α) : Reader (Option α) :=
  if present then some <$> r else pure none

def reader : Reader Connect := do
  let name ← field
  let level ← byte
  if !protocols.contains (name, level) then
    throw (.unsupportedProtocol (Utf8.decodeLossy name) level)
  let flags ← byte
  let keepAlive ← number
  let clientId ← text
  let will ← optional (flags &&& 0x04 != 0) do return ⟨← text, ← field⟩
  let username ← optional (flags &&& 0x80 != 0) text
  let password ← optional (flags &&& 0x40 != 0) field
  return { level, flags, keepAlive, clientId, will, username, password }

/-- The packet in a body; bytes behind it do not count. -/
def parse (body : Bytes) : Except Error Connect := (reader.run body).map Prod.fst

end Connect

end WireServer.Mqtt
