import WireServer.App.Rehearsal
import WireServer.Server.Serving

/-! A scripted visit to a server: clients connect over a network and have sockets in memory. Who
waits for what does not come at once waits until idle connections were closed. -/

namespace WireServer.App

open Net

/-- What clients do, and what is done to the server. -/
inductive Errand where
  | connect (client : Nat)
  | send (client : Nat) (data : Bytes)
  /-- Reads until the bytes end like this, or the server is done sending. -/
  | readUntil (client : Nat) (ending : Bytes)
  /-- Reads until the server is done sending. -/
  | readAll (client : Nat)
  | drop (client : Nat)
  | stop
  /-- Waits until the server has come to its end. -/
  | wait
  deriving DecidableEq, Inhabited, Repr

inductive Yield where
  | done
  /-- What was read, and whether the server was done sending. -/
  | read (bytes : Bytes) (ended : Bool)
  | stopping
  | served
  deriving DecidableEq, Inhabited, Repr

/-- Why an errand cannot be carried out. -/
inductive Obstacle where
  /-- The client has no connection. -/
  | client
  /-- Nothing will ever come. -/
  | silence
  deriving DecidableEq, Inhabited, Repr

def Obstacle.text : Obstacle → String
  | .client => "client"
  | .silence => "silence"

structure Visit where
  host : SceneHost
  server : Server State
  /-- Clients get through to the server. -/
  reaches : Bool
  serving : Server.Serving MemorySocket (Binding State) State (Successor State)
  /-- Clients, with the places of their connections. -/
  clients : List (Nat × Nat) := []
  now : Nat := 0

namespace Visit

/-- A visit to a server that begins to serve. -/
def new (n : Network) (server : Server State) : Visit where
  host := .new server.settings.idleTimeout server.settings.recvBufferSize true
  server := server
  reaches := n.reaches
  serving := { app := {} }

def drive (v : Visit) : Visit := { v with serving := v.serving.driveAll v.host v.now }

/-- Lets so much time pass that idle connections are closed. -/
def linger (v : Visit) : Visit := { v with now := v.now + v.host.idleTimeout }.drive

def onSocket (v : Visit) (i : Nat) (f : MemorySocket → MemorySocket) : Visit :=
  { v with serving := { v.serving with
    connections := v.serving.connections.modify i fun c => { c with io := f c.io } } }

/-- A client gets a connection, if it gets through. -/
def connect (v : Visit) (client : Nat) : Visit :=
  if !v.reaches then v
  else
    let ctx : Context (Successor State) := { maxIovec := v.server.settings.maxIovec }
    { v with
      serving := v.serving.accept v.host v.now ctx (.new v.server.service) {}
      clients := (client, v.serving.connections.length) :: v.clients }

/-- What a connection has sent, if that is enough. -/
def enough? (v : Visit) (i : Nat) (ending : Option Bytes) : Option Yield :=
  match v.serving.connections[i]? with
  | none => none
  | some c =>
    if ending.any (·.isSuffixOf c.io.written) then some (.read c.io.written false)
    else if c.io.shut ∨ c.phase = .closed then some (.read c.io.written true)
    else none

/-- Reads from a connection, now or after a while. -/
def read (v : Visit) (i : Nat) (ending : Option Bytes) : Visit × Except Obstacle Yield :=
  let taken (v : Visit) : Visit := v.onSocket i fun s => s.takeWritten.1
  match v.enough? i ending with
  | some y => (taken v, .ok y)
  | none =>
    let v := v.linger
    match v.enough? i ending with
    | some y => (taken v, .ok y)
    | none => (v, .error .silence)

/-- The server comes to its end, now or after a while. -/
def wait (v : Visit) : Visit × Except Obstacle Yield :=
  let finish (v : Visit) : Visit := { v with serving := v.serving.turns }
  let v := finish v
  if v.serving.phase = .stopped then (v, .ok .served)
  else
    let v := finish v.linger
    (v, if v.serving.phase = .stopped then .ok .served else .error .silence)

/-- Does something with the connection of a client. -/
def withClient (v : Visit) (client : Nat) (f : Nat → Visit × Except Obstacle Yield) :
    Visit × Except Obstacle Yield :=
  match v.clients.lookup client with
  | none => (v, .error .client)
  | some i => f i

def perform (v : Visit) : Errand → Visit × Except Obstacle Yield
  | .connect client => ((v.connect client).drive, .ok .done)
  | .send client data => v.withClient client fun i =>
    ((v.onSocket i fun s => { s with input := s.input ++ data }).drive, .ok .done)
  | .readUntil client ending => v.withClient client (v.read · (some ending))
  | .readAll client => v.withClient client (v.read · none)
  | .drop client =>
    match v.clients.lookup client with
    | none => (v, .ok .done)
    | some i =>
      let v := { v with clients := v.clients.filter fun c => c.1 != client }
      ((v.onSocket i fun s => { s with ended := true }).drive, .ok .done)
  | .stop => ({ v with serving := { v.serving with stopped := true } }.drive, .ok .stopping)
  | .wait => v.wait

/-- Errands one after another, up to the first obstacle. -/
def performAll : List Errand → Visit → Visit × Except Obstacle (List Yield)
  | [], v => (v, .ok [])
  | errand :: errands, v =>
    match v.perform errand with
    | (v, .error obstacle) => (v, .error obstacle)
    | (v, .ok y) =>
      let (v, rest) := performAll errands v
      (v, rest.map (y :: ·))

end Visit

end WireServer.App
