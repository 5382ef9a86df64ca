import WireServer.Http.Responder
import WireServer.Net.Send
import WireServer.Session.Failure

/-! What a protocol's callback works on: the requests that it leaves for its connection, its own
session, and the application with what others can reach of the connection. -/

namespace WireServer

/-- Requests to the connection, carried out when the callback is over. `π` are the protocols that a
connection can switch to. -/
structure Context (π : Type) where
  maxIovec : Nat := 64
  /-- Input is wanted. -/
  rx : Bool := true
  /-- Output waits for the socket. -/
  tx : Bool := false
  shutdown : Bool := false
  close : Bool := false
  /-- The server is stopping. -/
  stopping : Bool := false
  transition : Option π := none
  deriving DecidableEq, Inhabited, Repr

/-- The application's state, the outbox, and the responders put aside. -/
structure Desk (α : Type) where
  app : α
  outbox : Outbox := {}
  shelf : Http.Shelf := []
  deriving DecidableEq, Inhabited, Repr

/-- A callback's whole working area. -/
structure Turn (σ α π : Type) where
  ctx : Context π
  session : σ
  desk : Desk α
  deriving DecidableEq, Inhabited, Repr

namespace Turn

variable {σ α π : Type}

def disableRx (t : Turn σ α π) : Turn σ α π := { t with ctx := { t.ctx with rx := false } }

def enableTx (t : Turn σ α π) : Turn σ α π := { t with ctx := { t.ctx with tx := true } }

/-- Asks for a half-close: nothing more is sent, input is still read and thrown away. -/
def shutdown (t : Turn σ α π) : Turn σ α π := { t with ctx := { t.ctx with shutdown := true } }

def close (t : Turn σ α π) : Turn σ α π := { t with ctx := { t.ctx with close := true } }

/-- Asks to go on with another protocol. -/
def switchTo (t : Turn σ α π) (next : π) : Turn σ α π :=
  { t with ctx := { t.ctx with transition := some next } }

/-- Changes the session. -/
def modify (t : Turn σ α π) (f : σ → σ) : Turn σ α π := { t with session := f t.session }

/-- The same working area around another session. -/
def around {ρ : Type} (t : Turn σ α π) (s : ρ) : Turn ρ α π := ⟨t.ctx, s, t.desk⟩

/-- Wraps the session. -/
def wrap {ρ : Type} (t : Turn σ α π) (f : σ → ρ) : Turn ρ α π := t.around (f t.session)

end Turn

/-- What a protocol's write came to. -/
inductive WriteStatus where
  | flushed | pending
  deriving DecidableEq, Inhabited, Repr

end WireServer
