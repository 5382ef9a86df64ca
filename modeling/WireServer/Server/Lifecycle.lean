import WireServer.Config.Settings
import WireServer.Connection.Binding

/-! A server before it serves: what it is built from, and how it starts to listen. -/

namespace WireServer

/-- What the network lets a server do. -/
structure Network where
  /-- Why nothing can listen on an address, if so. -/
  bindFault? : Net.Address → Option Net.Fault
  /-- Clients get through to a server that listens. -/
  reaches : Bool

/-- The addresses of a host that only knows itself. -/
def Network.isLocal : Net.Address → Bool
  | .v4 octets _ => octets.head? = some 127 || octets = [0, 0, 0, 0]
  | .v6 groups _ _ => groups.take 7 = [0, 0, 0, 0, 0, 0, 0] && groups.getD 7 0 ≤ 1

/-- The network of a host that only knows itself, where clients get through or not. -/
def Network.loopback (reaches : Bool) : Network where
  bindFault? a := if isLocal a then none else some .addressNotAvailable
  reaches := reaches

namespace Server

inductive Phase where
  | created
  /-- Listens, but accepts nobody yet. -/
  | initialized
  | started
  /-- Accepts nobody any more, and waits for the connections to end. -/
  | stopGraceful
  | stopped
  deriving DecidableEq, Inhabited, Repr

namespace Phase

def name : Phase → String
  | .created => "created"
  | .initialized => "initialized"
  | .started => "started"
  | .stopGraceful => "stop_graceful"
  | .stopped => "stopped"

def all : List Phase := [.created, .initialized, .started, .stopGraceful, .stopped]

end Phase

end Server

/-- A server that does not serve yet. -/
structure Server (α : Type) where
  settings : Settings
  service : Service α
  phase : Server.Phase := .created

namespace Server

variable {α : Type}

/-- A server for a protocol, which has to be there. -/
def build (service : Option (Service α)) (settings : Settings) : Except StartError (Server α) :=
  match service with
  | none => .error (.invalidConfig "protocol must be set")
  | some service => .ok { settings, service }

/-- Starts to listen, which works only once. -/
def listen (n : Network) (s : Server α) : Except StartError (Server α) :=
  if s.phase ≠ .created then .error (.invalidState s.phase.name)
  else match n.bindFault? s.settings.address with
    | some fault => .error (.bind s.settings.address.text fault)
    | none => .ok { s with phase := .initialized }

end Server

end WireServer
