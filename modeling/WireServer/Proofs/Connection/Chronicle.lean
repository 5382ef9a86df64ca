import WireServer.Proofs.Connection.Trace

/-! The history of a connection: sessions come, are called and go, the sending side is shut, and the
application is told of the beginning and the end. A chronicled connection keeps all of this in its
order, beside the application's state, where nobody gets to see it. Nothing else changes, whatever
the protocol and the socket are. -/

namespace WireServer.Connection

variable {τ σ α π : Type}

inductive Moment (τ σ α π : Type) where
  /-- The application is told of the connection. -/
  | opened
  /-- A session comes. -/
  | bound (s : σ)
  /-- A session is refused. -/
  | refused
  | called (k : Call τ σ α π)
  /-- The sending side is about to be shut. -/
  | halfClosing
  /-- The application is told that the connection is over. -/
  | over

abbrev History (τ σ α π : Type) := List (Moment τ σ α π)

abbrev Chronicled (τ σ α π : Type) := Connection τ σ (α × History τ σ α π) π

/-- The chronicled turn behind a call. -/
def chronicleCall (r : Reason τ) (t : Turn σ (α × History τ σ α π) π) (u : Turn σ α π) :
    Turn σ (α × History τ σ α π) π :=
  u.carry (t.desk.app.2 ++ [.called ⟨r, t.bare, u⟩])

/-- The moment in which a session comes or not. -/
def Moment.ofBind : Except Failure σ → Moment τ σ α π
  | .ok s => .bound s
  | .error _ => .refused

/-- The same protocol with its history. -/
def Protocol.chronicled (p : Protocol τ σ α π) : Protocol τ σ (α × History τ σ α π) π where
  bind successor t :=
    let (u, result) := p.bind successor t.bare
    (u.carry (t.desk.app.2 ++ [.ofBind result]), result)
  ready t := Prod.map (chronicleCall .ready t) id (p.ready t.bare)
  read t src := Prod.map (chronicleCall (.read src) t) id (p.read t.bare src)
  write t io := Prod.map (chronicleCall (.write io) t) id (p.write t.bare io)
  wakeup t items := Prod.map (chronicleCall (.wakeup items) t) id (p.wakeup t.bare items)
  stop t := Prod.map (chronicleCall .stop t) id (p.stop t.bare)
  takeLeftover t := Prod.map (chronicleCall .takeLeftover t) id (p.takeLeftover t.bare)
  cleanup t := Prod.map (chronicleCall .cleanup t) id (p.cleanup t.bare)

def Host.chronicled (h : Host τ σ α π) : Host τ σ (α × History τ σ α π) π where
  socket := h.socket
  protocol := h.protocol.chronicled
  idleTimeout := h.idleTimeout
  recvBuffer := h.recvBuffer
  onOpen ctx app := (h.onOpen ctx app.1, app.2 ++ [.opened])
  onClose ctx app := (h.onClose ctx app.1, app.2 ++ [.over])
  onHalfClose app := (h.onHalfClose app.1, app.2 ++ [.halfClosing])
  further := h.further

/-- What happened so far. -/
def history (c : Chronicled τ σ α π) : History τ σ α π := c.desk.app.2

/-- The session behind a moment. -/
def Moment.leave (s : Option σ) : Moment τ σ α π → Option σ
  | .bound s => some s
  | .called ⟨.cleanup, _, _⟩ => none
  | .called k => some k.after.session
  | .opened | .refused | .halfClosing | .over => s

/-- The session that is there behind all that happened. -/
def History.session? (H : History τ σ α π) : Option σ := H.foldl Moment.leave none

@[simp] theorem session?_nil : History.session? ([] : History τ σ α π) = none := rfl

@[simp] theorem session?_append (front back : History τ σ α π) :
    History.session? (front ++ back) = back.foldl Moment.leave front.session? :=
  List.foldl_append

/-! ### Nothing else changes -/

section Bare

variable (h : Host τ σ α π)

theorem projects_chronicled : h.chronicled.Projects h id Prod.fst where
  protocol := by constructor <;> intros <;> rfl
  recv _ _ := rfl
  shutdownWrite _ := Option.map_id_apply
  backlog _ := rfl
  recvBuffer := rfl
  onOpen _ _ := rfl
  onClose _ _ := rfl
  onHalfClose _ := rfl
  further := rfl

def followChronicled (c : Chronicled τ σ α π) (x : Happening τ α) : Chronicled τ σ α π :=
  c.follow h.chronicled (x.carry c.history)

def followAllChronicled (c : Chronicled τ σ α π) (xs : List (Happening τ α)) :
    Chronicled τ σ α π :=
  xs.foldl (followChronicled h) c

/-- The history of a connection from its beginning. -/
def chronicle (ctx : Context π) (first : π) (app : α) (io : τ) (now : Nat)
    (xs : List (Happening τ α)) : Chronicled τ σ α π :=
  (launch h.chronicled ctx first (app, []) io now).followAllChronicled h xs

theorem bare_launch (ctx : Context π) (first : π) (app : α) (io : τ) (now : Nat) :
    (launch h.chronicled ctx first (app, []) io now).bare = launch h ctx first app io now :=
  map_launch (projects_chronicled h) ctx first (app, []) io now

theorem bare_followChronicled (c : Chronicled τ σ α π) (x : Happening τ α) :
    (c.followChronicled h x).bare = c.bare.follow h x := by
  cases x with
  | event now e => exact map_handle (projects_chronicled h) c now e
  | outside io desk => rfl

theorem bare_followAllChronicled (c : Chronicled τ σ α π) (xs : List (Happening τ α)) :
    (c.followAllChronicled h xs).bare = c.bare.followAll h xs := by
  induction xs generalizing c with
  | nil => rfl
  | cons x xs ih =>
    rw [followAllChronicled, followAll, List.foldl_cons, List.foldl_cons, ← bare_followChronicled]
    exact ih _

/-- The history is one of the connection. -/
theorem bare_chronicle (ctx : Context π) (first : π) (app : α) (io : τ) (now : Nat)
    (xs : List (Happening τ α)) :
    (chronicle h ctx first app io now xs).bare =
      (launch h ctx first app io now).followAll h xs := by
  rw [chronicle, bare_followAllChronicled, bare_launch]

end Bare

/-! ### One step of the history -/

/-- The connection when its sending side is about to be shut. -/
def aboutToHalfClose (h : Host τ σ α π) (c : Chronicled τ σ α π) : Chronicled τ σ α π :=
  { c with
    ctx := { c.ctx with shutdown := false }
    desk := { c.desk with app := h.chronicled.onHalfClose c.desk.app } }

/-- The connection behind a call of the session `s`. -/
def after (c : Chronicled τ σ α π) (r : Reason τ) (s : σ) (u : Turn σ α π) :
    Chronicled τ σ α π :=
  c.put (chronicleCall r ⟨c.ctx, s, c.desk⟩ u)

section Step

variable (c : Chronicled τ σ α π) (r : Reason τ) (s : σ) (u : Turn σ α π)

@[simp] theorem phase_after : (c.after r s u).phase = c.phase := rfl

@[simp] theorem ctx_after : (c.after r s u).ctx = u.ctx := rfl

@[simp] theorem session_after : (c.after r s u).session = some u.session := rfl

@[simp] theorem history_after :
    (c.after r s u).history = c.history ++ [.called ⟨r, ⟨c.ctx, s, c.bare.desk⟩, u⟩] := rfl

@[simp] theorem bare_desk_after : (c.after r s u).bare.desk = u.desk := rfl

end Step

section Close

variable {h : Host τ σ α π} {c : Chronicled τ σ α π}

theorem close_of_closed (hphase : c.phase = .closed) : c.close h.chronicled = c := by
  simp [close, hphase]

/-- Without a session, the connection is over at once. -/
theorem close_of_none (hphase : c.phase = .open ∨ c.phase = .halfClosed) (hs : c.session = none) :
    c.close h.chronicled = { c with
      phase := .closed
      desk := { c.desk with
        app := (h.onClose c.ctx c.desk.app.1, c.history ++ [.over])
        outbox := c.desk.outbox.shut } } := by
  rcases hphase with hphase | hphase
  all_goals simp [close, release, dismiss, setOutbox, hphase, hs, Host.chronicled, history]

/-- Before that, the session goes away. -/
theorem close_of_some {s : σ} (hphase : c.phase = .open ∨ c.phase = .halfClosed)
    (hs : c.session = some s) :
    let t : Turn σ α π := ⟨c.ctx, s, { c.bare.desk with outbox := c.desk.outbox.shut }⟩
    let u := (h.protocol.cleanup t).1
    c.close h.chronicled = { c with
      phase := .closed, ctx := u.ctx, session := none
      desk := { u.desk with
        app := (h.onClose u.ctx u.desk.app,
          c.history ++ [.called ⟨.cleanup, t, u⟩] ++ [.over]) } } := by
  rcases hphase with hphase | hphase
  all_goals
    simp [close, release, dismiss, setOutbox, hphase, hs, Host.chronicled, Protocol.chronicled,
      history, chronicleCall, Turn.carry, Turn.bare, Desk.carry, Desk.bare, Connection.bare]

end Close

end WireServer.Connection
