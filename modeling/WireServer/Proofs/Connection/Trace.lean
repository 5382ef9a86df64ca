import WireServer.Proofs.Connection.Projection

/-! The calls that a connection makes to its sessions, one after another. A traced connection keeps
them beside the application's state, where no callback gets to see them. Nothing else changes,
whatever the protocol and the socket are. -/

namespace WireServer

variable {τ σ α β π : Type}

/-- The desk with something put beside the application's state. -/
def Desk.carry (d : Desk α) (b : β) : Desk (α × β) :=
  { app := (d.app, b), outbox := d.outbox, shelf := d.shelf }

def Desk.bare (d : Desk (α × β)) : Desk α :=
  { app := d.app.1, outbox := d.outbox, shelf := d.shelf }

def Turn.carry (t : Turn σ α π) (b : β) : Turn σ (α × β) π := ⟨t.ctx, t.session, t.desk.carry b⟩

def Turn.bare (t : Turn σ (α × β) π) : Turn σ α π := ⟨t.ctx, t.session, t.desk.bare⟩

namespace Connection

/-- What a session is called for. -/
inductive Reason (τ : Type) where
  | ready
  | read (src : Bytes)
  /-- The socket is in this state then. -/
  | write (io : τ)
  | wakeup (items : List Item)
  | stop
  | takeLeftover
  | cleanup

/-- One call, with what it found and what it left. -/
structure Call (τ σ α π : Type) where
  reason : Reason τ
  before : Turn σ α π
  after : Turn σ α π

abbrev Trace (τ σ α π : Type) := List (Call τ σ α π)

/-- The traced turn behind a call. -/
def traceCall (r : Reason τ) (t : Turn σ (α × Trace τ σ α π) π) (u : Turn σ α π) :
    Turn σ (α × Trace τ σ α π) π :=
  ⟨u.ctx, u.session, u.desk.carry (t.desk.app.2 ++ [⟨r, t.bare, u⟩])⟩

/-- The same protocol with its calls traced. -/
def Protocol.traced (p : Protocol τ σ α π) : Protocol τ σ (α × Trace τ σ α π) π where
  bind successor t := Prod.map (Turn.carry · t.desk.app.2) id (p.bind successor t.bare)
  ready t := Prod.map (traceCall .ready t) id (p.ready t.bare)
  read t src := Prod.map (traceCall (.read src) t) id (p.read t.bare src)
  write t io := Prod.map (traceCall (.write io) t) id (p.write t.bare io)
  wakeup t items := Prod.map (traceCall (.wakeup items) t) id (p.wakeup t.bare items)
  stop t := Prod.map (traceCall .stop t) id (p.stop t.bare)
  takeLeftover t := Prod.map (traceCall .takeLeftover t) id (p.takeLeftover t.bare)
  cleanup t := Prod.map (traceCall .cleanup t) id (p.cleanup t.bare)

def Host.traced (h : Host τ σ α π) : Host τ σ (α × Trace τ σ α π) π where
  socket := h.socket
  protocol := h.protocol.traced
  idleTimeout := h.idleTimeout
  recvBuffer := h.recvBuffer
  onOpen ctx app := (h.onOpen ctx app.1, app.2)
  onClose ctx app := (h.onClose ctx app.1, app.2)
  onHalfClose app := (h.onHalfClose app.1, app.2)
  further := h.further

/-- The connection without the trace. -/
def bare (c : Connection τ σ (α × β) π) : Connection τ σ α π where
  phase := c.phase
  ctx := c.ctx
  session := c.session
  desk := c.desk.bare
  io := c.io
  lastActive := c.lastActive

/-- The calls so far. -/
def trace (c : Connection τ σ (α × Trace τ σ α π) π) : Trace τ σ α π := c.desk.app.2

/-! ### Nothing else changes -/

section Bare

variable (h : Host τ σ α π)

theorem projects_traced : h.traced.Projects h id Prod.fst where
  protocol := by constructor <;> intros <;> rfl
  recv _ _ := rfl
  shutdownWrite _ := Option.map_id_apply
  backlog _ := rfl
  recvBuffer := rfl
  onOpen _ _ := rfl
  onClose _ _ := rfl
  onHalfClose _ := rfl
  further := rfl

theorem bare_start (ctx : Context π) (s : σ) (app : α) (io : τ) (now : Nat) :
    (start h.traced ctx s (app, []) io now).bare = start h ctx s app io now :=
  map_start (projects_traced h) ctx s (app, []) io now

theorem bare_handle (now : Nat) (c : Connection τ σ (α × Trace τ σ α π) π) (e : Event) :
    (c.handle h.traced now e).bare = c.bare.handle h now e :=
  map_handle (projects_traced h) c now e

end Bare

/-! ### Runs -/

/-- What happens to a connection: one of its events, or a change by others to what they share with
it. -/
inductive Happening (τ α : Type) where
  | event (now : Nat) (e : Event)
  | outside (io : τ) (desk : Desk α)

def follow (h : Host τ σ α π) (c : Connection τ σ α π) : Happening τ α → Connection τ σ α π
  | .event now e => c.handle h now e
  | .outside io desk => { c with io, desk }

/-- A connection on which all this happens, in this order. -/
def followAll (h : Host τ σ α π) (c : Connection τ σ α π) (hs : List (Happening τ α)) :
    Connection τ σ α π :=
  hs.foldl (follow h) c

/-- Nobody else can reach the trace. -/
def Happening.carry {β : Type} (b : β) : Happening τ α → Happening τ (α × β)
  | .event now e => .event now e
  | .outside io desk => .outside io (desk.carry b)

def followTraced (h : Host τ σ α π) (c : Connection τ σ (α × Trace τ σ α π) π)
    (x : Happening τ α) : Connection τ σ (α × Trace τ σ α π) π :=
  c.follow h.traced (x.carry c.trace)

def followAllTraced (h : Host τ σ α π) (c : Connection τ σ (α × Trace τ σ α π) π)
    (hs : List (Happening τ α)) : Connection τ σ (α × Trace τ σ α π) π :=
  hs.foldl (followTraced h) c

theorem bare_followTraced (h : Host τ σ α π) (c : Connection τ σ (α × Trace τ σ α π) π)
    (x : Happening τ α) : (c.followTraced h x).bare = c.bare.follow h x := by
  cases x with
  | event now e => exact bare_handle h now c e
  | outside io desk => rfl

/-- The trace is one of the connection. -/
theorem bare_followAllTraced (h : Host τ σ α π) (c : Connection τ σ (α × Trace τ σ α π) π)
    (hs : List (Happening τ α)) : (c.followAllTraced h hs).bare = c.bare.followAll h hs := by
  induction hs generalizing c with
  | nil => rfl
  | cons x hs ih =>
    rw [followAllTraced, followAll, List.foldl_cons, List.foldl_cons, ← bare_followTraced]
    exact ih _

end Connection

end WireServer
