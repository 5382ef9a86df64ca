import WireServer.Connection.Machine

/-! Two hosts of which one keeps more than the other, in the state of its socket or beside the
application's. If the operations of both agree about what is common to them, the connections do so
all along. -/

namespace WireServer

variable {τ ρ σ α β π : Type}

def Desk.map (g : β → α) (d : Desk β) : Desk α :=
  { app := g d.app, outbox := d.outbox, shelf := d.shelf }

def Turn.mapApp (g : β → α) (t : Turn σ β π) : Turn σ α π := ⟨t.ctx, t.session, t.desk.map g⟩

namespace Connection

/-- What the connection has in common with one on the other host. -/
def map (f : ρ → τ) (g : β → α) (c : Connection ρ σ β π) : Connection τ σ α π where
  phase := c.phase
  ctx := c.ctx
  session := c.session
  desk := c.desk.map g
  io := f c.io
  lastActive := c.lastActive

section Map

variable (f : ρ → τ) (g : β → α) (c : Connection ρ σ β π)

@[simp] theorem map_phase : (c.map f g).phase = c.phase := rfl

@[simp] theorem map_ctx : (c.map f g).ctx = c.ctx := rfl

@[simp] theorem map_session : (c.map f g).session = c.session := rfl

@[simp] theorem map_io : (c.map f g).io = f c.io := rfl

/-- What a callback works on. -/
theorem mapApp_turn (s : σ) : (⟨c.ctx, s, (c.map f g).desk⟩ : Turn σ α π) =
    Turn.mapApp g ⟨c.ctx, s, c.desk⟩ := rfl

end Map

/-- The callbacks agree about what is common. -/
structure Protocol.Projects (p : Protocol ρ σ β π) (q : Protocol τ σ α π) (f : ρ → τ) (g : β → α) :
    Prop where
  bind : ∀ successor t, Prod.map (Turn.mapApp g) id (p.bind successor t) =
    q.bind successor (t.mapApp g)
  ready : ∀ t, Prod.map (Turn.mapApp g) id (p.ready t) = q.ready (t.mapApp g)
  read : ∀ src t, Prod.map (Turn.mapApp g) id (p.read t src) = q.read (t.mapApp g) src
  write : ∀ t io, Prod.map (Turn.mapApp g) (Prod.map f id) (p.write t io) =
    q.write (t.mapApp g) (f io)
  wakeup : ∀ items t, Prod.map (Turn.mapApp g) id (p.wakeup t items) = q.wakeup (t.mapApp g) items
  stop : ∀ t, Prod.map (Turn.mapApp g) id (p.stop t) = q.stop (t.mapApp g)
  takeLeftover : ∀ t, Prod.map (Turn.mapApp g) id (p.takeLeftover t) =
    q.takeLeftover (t.mapApp g)
  cleanup : ∀ t, Prod.map (Turn.mapApp g) id (p.cleanup t) = q.cleanup (t.mapApp g)

/-- So do all operations that a host has. -/
structure Host.Projects (k : Host ρ σ β π) (h : Host τ σ α π) (f : ρ → τ) (g : β → α) : Prop where
  protocol : k.protocol.Projects h.protocol f g
  recv : ∀ io room, Prod.map f id (k.socket.recv io room) = h.socket.recv (f io) room
  shutdownWrite : ∀ io, (k.socket.shutdownWrite io).map f = h.socket.shutdownWrite (f io)
  backlog : ∀ io, k.socket.backlog io = h.socket.backlog (f io)
  recvBuffer : k.recvBuffer = h.recvBuffer
  onOpen : ∀ ctx app, g (k.onOpen ctx app) = h.onOpen ctx (g app)
  onClose : ∀ ctx app, g (k.onClose ctx app) = h.onClose ctx (g app)
  onHalfClose : ∀ app, g (k.onHalfClose app) = h.onHalfClose (g app)
  further : k.further = h.further

section Projects

variable {k : Host ρ σ β π} {h : Host τ σ α π} {f : ρ → τ} {g : β → α}
variable (hp : k.Projects h f g) (c : Connection ρ σ β π)

include hp

theorem map_dismiss : Prod.map (map f g) id (c.dismiss k) = (c.map f g).dismiss h := by
  unfold dismiss
  rcases hs : c.session with _ | s
  · simp [hs]
  · simp only [map_session, map_ctx, hs, mapApp_turn, ← hp.protocol.cleanup]
    rfl

theorem map_release : (c.release k).map f g = (c.map f g).release h :=
  congrArg Prod.fst (map_dismiss hp c)

theorem map_close : (c.close k).map f g = (c.map f g).close h := by
  unfold close
  rw [map_phase]
  by_cases hphase : c.phase = .closing ∨ c.phase = .closed
  · rw [if_pos hphase, if_pos hphase]
  rw [if_neg hphase, if_neg hphase]
  have hrelease : (({ c with phase := .closing }.setOutbox c.desk.outbox.shut).release k).map f g =
      ({ c.map f g with phase := .closing }.setOutbox (c.map f g).desk.outbox.shut).release h :=
    map_release hp _
  rw [← hrelease]
  simp only [map, Desk.map, hp.onClose]

theorem map_callback {a : Turn σ β π → Turn σ β π × Except Failure Unit}
    {b : Turn σ α π → Turn σ α π × Except Failure Unit}
    (hcall : ∀ t, Prod.map (Turn.mapApp g) id (a t) = b (t.mapApp g))
    {next : Connection ρ σ β π → Connection ρ σ β π}
    {next' : Connection τ σ α π → Connection τ σ α π}
    (hnext : ∀ c, (next c).map f g = next' (c.map f g)) :
    (callback k a next c).map f g = callback h b next' (c.map f g) := by
  unfold callback
  rcases hs : c.session with _ | s
  · simp [hs]
  simp only [map_session, map_ctx, hs, mapApp_turn, ← hcall]
  rcases a ⟨c.ctx, s, c.desk⟩ with ⟨u, e | ⟨⟩⟩
  · exact map_close hp _
  · exact hnext _

theorem map_halfClose : (c.halfClose k).map f g = (c.map f g).halfClose h := by
  have happ (d : Connection ρ σ β π) :
      ({ d with desk := { d.desk with app := k.onHalfClose d.desk.app } } : Connection ρ σ β π).map
          f g =
        { d.map f g with
          desk := { (d.map f g).desk with app := h.onHalfClose (d.map f g).desk.app } } := by
    simp only [map, Desk.map, hp.onHalfClose]
  unfold halfClose
  simp only [map_io, ← hp.shutdownWrite]
  rcases k.socket.shutdownWrite c.io with _ | io
  · exact (map_close hp _).trans (congrArg (close h) (happ c))
  · exact happ { c with io, phase := .halfClosed, ctx := { c.ctx with tx := false, rx := true } }

theorem map_settle : (c.settle k).map f g = (c.map f g).settle h := by
  unfold settle
  simp only [apply_ite (map f g), map_close hp, map_halfClose hp]
  rfl

section Next

variable {next : Connection ρ σ β π → Connection ρ σ β π}
variable {next' : Connection τ σ α π → Connection τ σ α π}
variable (hnext : ∀ c, (next c).map f g = next' (c.map f g))

include hnext

theorem map_feedUpTo (n : Nat) (data : Bytes) :
    (feedUpTo k next n data c).map f g = feedUpTo h next' n data (c.map f g) := by
  induction n generalizing data c with
  | zero => rfl
  | succ n ih =>
    unfold feedUpTo
    rw [map_phase, map_session]
    by_cases hdone : data.isEmpty ∨ c.phase ≠ .open
    · rw [if_pos hdone, if_pos hdone]
    rw [if_neg hdone, if_neg hdone]
    rcases c.session with _ | s
    · rfl
    simp only [map_ctx, mapApp_turn, ← hp.protocol.read]
    rcases k.protocol.read ⟨c.ctx, s, c.desk⟩ data with ⟨u, e | used⟩
    · exact map_close hp _
    · have hput : (next (c.put u)).map f g = next' ((c.map f g).put (u.mapApp g)) := hnext _
      simp only [Prod.map, id, ← hput, ← ih]
      exact apply_ite (map f g) _ _ _

theorem map_feed (data : Bytes) :
    (feed k data next c).map f g = feed h data next' (c.map f g) := by
  unfold feed
  rw [hp.further]
  exact map_feedUpTo hp c hnext _ data

theorem map_install (successor : π) :
    (c.install k next successor).map f g = (c.map f g).install h next' successor := by
  unfold install
  rw [show (⟨(c.map f g).ctx, (), (c.map f g).desk⟩ : Turn Unit α π) =
    Turn.mapApp g ⟨c.ctx, (), c.desk⟩ from rfl, ← hp.protocol.bind]
  rcases k.protocol.bind successor ⟨c.ctx, (), c.desk⟩ with ⟨u, e | s⟩
  · exact map_close hp _
  · exact map_callback hp _ hp.protocol.ready hnext

theorem map_resume (leftover : Bytes) :
    (c.resume k next leftover).map f g = (c.map f g).resume h next' leftover := by
  simp only [resume, apply_ite (map f g), map_feed hp _ hnext]
  rfl

theorem map_switch (successor : π) :
    (c.switch k next successor).map f g = (c.map f g).switch h next' successor := by
  unfold switch
  rcases hs : c.session with _ | s
  · simp [hs]
  have htake := hp.protocol.takeLeftover ⟨c.ctx, s, c.desk⟩
  rcases hk : k.protocol.takeLeftover ⟨c.ctx, s, c.desk⟩ with ⟨u, leftover⟩
  rw [hk] at htake
  simp only [map_session, map_ctx, hs, mapApp_turn, hk, ← htake]
  rw [show (c.map f g).put (Prod.map (Turn.mapApp g) id (u, leftover)).1 =
    (c.put u).map f g from rfl, ← map_dismiss hp]
  rcases (c.put u).dismiss k with ⟨d, e | ⟨⟩⟩
  · exact map_close hp d
  · exact (map_resume hp _ hnext leftover).trans
      (congrArg _ (map_install hp d hnext successor))

end Next

theorem map_applyUpTo (n : Nat) : (c.applyUpTo k n).map f g = (c.map f g).applyUpTo h n := by
  induction n generalizing c with
  | zero => exact map_settle hp c
  | succ n ih =>
    unfold applyUpTo
    rw [map_ctx]
    by_cases hclose : c.ctx.close
    · simp only [hclose, if_true]
      exact map_close hp c
    simp only [hclose, Bool.false_eq_true, if_false]
    rcases c.ctx.transition with _ | successor
    · exact map_settle hp c
    · simp only [map_settle hp, map_switch hp _ ih]
      rfl

theorem map_apply : (c.apply k).map f g = (c.map f g).apply h := by
  unfold apply
  rw [hp.further]
  exact map_applyUpTo hp c _

omit c in
theorem map_launch (ctx : Context π) (first : π) (app : β) (io : ρ) (now : Nat) :
    (launch k ctx first app io now).map f g = launch h ctx first (g app) (f io) now := by
  unfold launch
  rw [map_install hp _ (map_apply hp)]
  simp only [map, Desk.map, hp.onOpen]

theorem map_start (ctx : Context π) (s : σ) (app : β) (io : ρ) (now : Nat) :
    (start k ctx s app io now).map f g = start h ctx s (g app) (f io) now := by
  have hcallback := map_callback hp {
    ctx := { ctx with rx := true }, session := some s, desk := { app := k.onOpen ctx app }
    io, lastActive := now } hp.protocol.ready (map_apply hp)
  unfold start
  rw [hcallback]
  simp only [map, Desk.map, hp.onOpen]

omit c in
theorem map_drain (n : Nat) (io : ρ) : f (drain k n io) = drain h n (f io) := by
  induction n generalizing io with
  | zero => rfl
  | succ n ih =>
    rw [drain, drain, ← hp.recv, hp.recvBuffer]
    rcases k.socket.recv io h.recvBuffer with ⟨io', ⟨_ | ⟨b, bs⟩⟩ | fault⟩
    · rfl
    · exact ih io'
    · cases fault <;> first | exact ih io' | rfl

theorem map_onReadable : (c.onReadable k).map f g = (c.map f g).onReadable h := by
  unfold onReadable
  rw [map_phase, map_io, ← hp.recv, ← hp.recvBuffer, ← hp.backlog, ← map_drain hp]
  by_cases hphase : c.phase = .halfClosed
  · rw [if_pos hphase, if_pos hphase]
    exact map_close hp _
  rw [if_neg hphase, if_neg hphase]
  rcases k.socket.recv c.io k.recvBuffer with ⟨io, ⟨_ | ⟨b, bs⟩⟩ | fault⟩
  · exact map_close hp _
  · exact map_feed hp _ (map_apply hp) (b :: bs)
  · simp only [apply_ite (map f g), map_close hp]
    rfl

theorem map_onWritable : (c.onWritable k).map f g = (c.map f g).onWritable h := by
  unfold onWritable
  rcases hs : c.session with _ | s
  · simp only [map, hs]
  simp only [map_session, map_ctx, map_io, hs, mapApp_turn, ← hp.protocol.write]
  rcases k.protocol.write ⟨c.ctx, s, c.desk⟩ c.io with ⟨u, io, e | status⟩
  · exact map_close hp _
  · exact map_apply hp _

theorem map_onWakeup : (c.onWakeup k).map f g = (c.map f g).onWakeup h := by
  unfold onWakeup
  rw [show (c.map f g).desk.outbox = c.desk.outbox from rfl]
  rcases c.desk.outbox.settle.take with ⟨o, _ | ⟨_ | ⟨item, items⟩⟩⟩
  · rfl
  · rfl
  · exact map_callback hp _ (hp.protocol.wakeup (item :: items)) (map_apply hp)

theorem map_onStop : (c.onStop k).map f g = (c.map f g).onStop h := by
  unfold onStop
  simp only [apply_ite (map f g)]
  congr 1
  exact map_callback hp _ hp.protocol.stop (map_apply hp)

theorem map_handle (now : Nat) (e : Event) :
    (c.handle k now e).map f g = (c.map f g).handle h now e := by
  have hawaits : (c.map f g).awaits e = c.awaits e := by cases e <;> rfl
  unfold handle
  rw [hawaits, map_phase]
  by_cases hpass : c.phase = .closed ∨ !c.awaits e
  · rw [if_pos hpass, if_pos hpass]
  rw [if_neg hpass, if_neg hpass]
  cases e with
  | stop => exact map_onStop hp c
  | wakeup => exact map_onWakeup hp c
  | readable broken =>
    cases broken with
    | none => exact map_onReadable hp _
    | some fault => exact map_close hp c
  | writable broken =>
    cases broken with
    | none => exact map_onWritable hp _
    | some fault => exact map_close hp c
  | idle => exact map_close hp c

end Projects

end Connection

end WireServer
