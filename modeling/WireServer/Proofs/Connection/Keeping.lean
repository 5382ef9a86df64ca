import WireServer.Proofs.Connection.Chronicle

/-! What holds of a connection all along. Whoever wants to show that something holds between any two
events has to look at the calls that a connection makes, and at what happens to it in between, once
each; the walk through the connection is done here. -/

namespace WireServer.Connection

variable {τ σ α π : Type}

/-- Between two calls everything can change but what the history tells, what the session asked for
and whether the outbox is shut. -/
structure Idles (c d : Chronicled τ σ α π) : Prop where
  phase : d.phase = c.phase
  session : d.session = c.session
  history : d.history = c.history
  ctx : d.ctx = c.ctx ∨ d.ctx = { c.ctx with stopping := true } ∨
    c.session = none ∧ d.ctx = { c.ctx with tx := false }
  shut : d.desk.outbox.closing = c.desk.outbox.closing

/-- A callback that comes back is followed by `P`, and one that fails by the end of the connection.
`d` is the connection behind a callback that leaves this turn. -/
def Ensues (h : Host τ σ α π) (Rest P : Chronicled τ σ α π → Prop)
    (d : Turn σ α π → Chronicled τ σ α π) {β : Type} : Turn σ α π × Except Failure β → Prop
  | (t, .ok _) => P (d t)
  | (t, .error _) => Rest ((d t).close h.chronicled)

theorem Ensues.of {h : Host τ σ α π} {Rest P : Chronicled τ σ α π → Prop}
    {d : Turn σ α π → Chronicled τ σ α π} {β : Type} (hd : ∀ t, P (d t))
    (hclose : ∀ t, Rest ((d t).close h.chronicled)) (r : Turn σ α π × Except Failure β) :
    Ensues h Rest P d r := by
  obtain ⟨t, e | b⟩ := r
  · exact hclose t
  · exact hd t

/-- The connection between two sessions. -/
def vacate (c : Chronicled τ σ α π) (s : σ) (t u : Turn σ α π) : Chronicled τ σ α π :=
  { c with
    ctx := u.ctx, session := none
    desk := u.desk.carry (c.history ++
      [.called ⟨.takeLeftover, ⟨c.ctx, s, c.bare.desk⟩, t⟩, .called ⟨.cleanup, t, u⟩]) }

/-- The connection when a session came. -/
def seat (c : Chronicled τ σ α π) (t : Turn Unit α π) (s : σ) : Chronicled τ σ α π :=
  { c with
    ctx := t.ctx, session := some s
    desk := t.desk.carry (c.history ++ [.bound s]) }

/-- The connection when a session was refused. -/
def refuse (c : Chronicled τ σ α π) (t : Turn Unit α π) : Chronicled τ σ α π :=
  { c with ctx := t.ctx, desk := t.desk.carry (c.history ++ [.refused]) }

section Between

variable (c : Chronicled τ σ α π) (s : σ) (t u : Turn σ α π) (v : Turn Unit α π)

@[simp] theorem history_vacate : (c.vacate s t u).history = c.history ++
    [.called ⟨.takeLeftover, ⟨c.ctx, s, c.bare.desk⟩, t⟩, .called ⟨.cleanup, t, u⟩] := rfl

@[simp] theorem history_seat : (c.seat v s).history = c.history ++ [.bound s] := rfl

@[simp] theorem history_refuse : (c.refuse v).history = c.history ++ [.refused] := rfl

end Between

/-- `Rest` holds between two events, `Asked` behind a callback, and `Steady` behind one that does
not make another protocol take over, or not while one takes over already. `Vacant` holds between two
sessions, and `Others` are the changes that others make. -/
structure Keeps (h : Host τ σ α π) (Others : Desk α → Desk α → Prop)
    (Rest Steady Asked Vacant : Chronicled τ σ α π → Prop) : Prop where
  idle : ∀ {c d}, Rest c → Idles c d → Rest d
  others : ∀ {c} (io : τ) {desk}, Rest c → Others c.bare.desk desk →
    Rest { c with io, desk := desk.carry c.history }
  steady : ∀ {c}, Rest c → Steady c
  asked : ∀ {c}, Steady c → Asked c
  stays : ∀ {c}, Asked c → c.ctx.transition = none → Steady c
  close : ∀ {c}, Asked c → Rest (c.close h.chronicled)
  settle : ∀ {c}, Steady c → Rest (c.settle h.chronicled)
  nobody : ∀ {c}, Asked c → c.session = none →
    Rest { c with ctx := { c.ctx with transition := none } }
  vacate : ∀ {c s successor}, Asked c → c.ctx.close = false →
    c.ctx.transition = some successor → c.session = some s → ∀ {t leftover},
    h.protocol.takeLeftover ⟨{ c.ctx with transition := none }, s, c.bare.desk⟩ = (t, leftover) →
    Ensues h Rest Vacant ({ c with ctx := { c.ctx with transition := none } }.vacate s t)
      (h.protocol.cleanup t)
  bind : ∀ {c}, Vacant c → ∀ successor,
    match h.protocol.bind successor ⟨c.ctx, (), c.bare.desk⟩ with
    | (t, .ok s) =>
      Ensues h Rest Steady ((c.seat t s).after .ready s) (h.protocol.ready ⟨t.ctx, s, t.desk⟩)
    | (t, .error _) => Rest ((c.refuse t).close h.chronicled)
  read : ∀ {c s}, Rest c → c.phase = .open → c.session = some s → ∀ {src}, src ≠ [] →
    Ensues h Rest Steady (c.after (.read src) s) (h.protocol.read ⟨c.ctx, s, c.bare.desk⟩ src)
  write : ∀ {c s}, Rest c → c.phase = .open → c.ctx.tx = true → c.session = some s →
    ∀ {t io result}, h.protocol.write ⟨c.ctx, s, c.bare.desk⟩ c.io = (t, io, result) →
    Ensues h Rest Asked ({ c with io }.after (.write c.io) s) (t, result)
  wakeup : ∀ {c s}, Rest c → c.session = some s → ∀ items,
    Ensues h Rest Asked (c.after (.wakeup items) s)
      (h.protocol.wakeup ⟨c.ctx, s, c.bare.desk⟩ items)
  stop : ∀ {c s}, Rest c → c.phase = .open → c.ctx.stopping = true → c.session = some s →
    Ensues h Rest Asked (c.after .stop s) (h.protocol.stop ⟨c.ctx, s, c.bare.desk⟩)

/-- How the requests of a callback are carried out, a switch of protocols apart. -/
theorem settle_induction {h : Host τ σ α π} {P : Chronicled τ σ α π → Prop}
    (c : Chronicled τ σ α π) (hclose : c.ctx.close = true → P (c.close h.chronicled))
    (hstays : c.ctx.close = false → ¬(c.ctx.shutdown = true ∧ c.phase = .open) →
      P { c with ctx := { c.ctx with shutdown := false } })
    (hhalf : c.ctx.close = false → c.ctx.shutdown = true → c.phase = .open →
      P ((c.aboutToHalfClose h).close h.chronicled) ∧
        ∀ io, P { c.aboutToHalfClose h with
          io, phase := .halfClosed
          ctx := { (c.aboutToHalfClose h).ctx with tx := false, rx := true } }) :
    P (c.settle h.chronicled) := by
  unfold settle halfClose
  split
  · exact hclose ‹_›
  rename_i hopen
  have hopen : c.ctx.close = false := by simpa using hopen
  simp only
  split
  · rename_i hdone
    obtain ⟨hbroken, hshut⟩ := hhalf hopen hdone.1 hdone.2
    split
    · exact hbroken
    · exact hshut _
  · exact hstays hopen ‹_›

section Keeps

variable {h : Host τ σ α π} {Others : Desk α → Desk α → Prop}
variable {Rest Steady Asked Vacant : Chronicled τ σ α π → Prop}
variable {c : Chronicled τ σ α π}

/-- A callback, unless there is no session any more. -/
theorem callback_keeps {P : Chronicled τ σ α π → Prop} {r : Reason τ}
    {f : Turn σ α π → Turn σ α π × Except Failure Unit}
    {next : Chronicled τ σ α π → Chronicled τ σ α π} (hnone : c.session = none → Rest c)
    (hcall : ∀ s, c.session = some s →
      Ensues h Rest P (c.after r s) (f ⟨c.ctx, s, c.bare.desk⟩))
    (hnext : ∀ d, P d → Rest (next d)) :
    Rest (callback h.chronicled (fun t => Prod.map (chronicleCall r t) id (f t.bare)) next c) := by
  unfold callback
  rcases hs : c.session with _ | s
  · exact hnone hs
  have hcall := hcall s hs
  rw [show (⟨c.ctx, s, c.bare.desk⟩ : Turn σ α π) = (⟨c.ctx, s, c.desk⟩ : Turn _ _ _).bare from rfl]
    at hcall
  simp only [Prod.map]
  rcases hf : f (Turn.bare ⟨c.ctx, s, c.desk⟩) with ⟨u, e | ⟨⟩⟩ <;> rw [hf] at hcall
  · exact hcall
  · exact hnext _ hcall

variable (hk : Keeps h Others Rest Steady Asked Vacant)

include hk

theorem Keeps.end (hc : Rest c) : Rest (c.close h.chronicled) := hk.close (hk.asked (hk.steady hc))

section Next

variable {next : Chronicled τ σ α π → Chronicled τ σ α π} (hnext : ∀ d, Steady d → Rest (next d))

include hnext

theorem Keeps.feedUpTo (n : Nat) (data : Bytes) (hc : Rest c) :
    Rest (feedUpTo h.chronicled next n data c) := by
  induction n generalizing data c with
  | zero => exact hc
  | succ n ih =>
    unfold Connection.feedUpTo
    split
    · exact hc
    rename_i hmore
    rw [not_or, Decidable.not_not, List.isEmpty_iff] at hmore
    rcases hs : c.session with _ | s
    · exact hc
    have hread := hk.read hc hmore.2 hs hmore.1
    dsimp only
    rw [show h.chronicled.protocol.read ⟨c.ctx, s, c.desk⟩ data =
      Prod.map (chronicleCall (.read data) ⟨c.ctx, s, c.desk⟩) id
        (h.protocol.read ⟨c.ctx, s, c.bare.desk⟩ data) from rfl]
    rcases hr : h.protocol.read ⟨c.ctx, s, c.bare.desk⟩ data with ⟨t, e | used⟩ <;> rw [hr] at hread
    · exact hread
    · -- what the call asked for is carried out before the rest of the input is looked at
      have hgoes := hnext _ hread
      simp only [Prod.map, id]
      split
      · exact hgoes
      · exact ih _ hgoes

theorem Keeps.install (hc : Vacant c) (successor : π) :
    Rest (c.install h.chronicled next successor) := by
  have hbind := hk.bind hc successor
  unfold Connection.install
  rw [show h.chronicled.protocol.bind successor ⟨c.ctx, (), c.desk⟩ =
    (((h.protocol.bind successor ⟨c.ctx, (), c.bare.desk⟩).1.carry (c.history ++
      [.ofBind (h.protocol.bind successor ⟨c.ctx, (), c.bare.desk⟩).2]),
      (h.protocol.bind successor ⟨c.ctx, (), c.bare.desk⟩).2)) from rfl]
  generalize h.protocol.bind successor ⟨c.ctx, (), c.bare.desk⟩ = r at hbind ⊢
  obtain ⟨t, e | s⟩ := r
  · exact hbind
  · refine callback_keeps (c := c.seat t s) (r := .ready) (f := h.protocol.ready) nofun
      (fun s' hs' => ?_) hnext
    cases hs'
    exact hbind

theorem Keeps.resume (hc : Rest c) (leftover : Bytes) :
    Rest (c.resume h.chronicled next leftover) := by
  unfold Connection.resume
  split
  · exact hc
  · exact hk.feedUpTo hnext _ _ hc

/-- The old session goes, and the new one comes and goes on. -/
theorem Keeps.switch (hnobody : c.session = none → Rest c)
    (hvacate : ∀ s, c.session = some s → ∀ t leftover,
      h.protocol.takeLeftover ⟨c.ctx, s, c.bare.desk⟩ = (t, leftover) →
      Ensues h Rest Vacant (c.vacate s t) (h.protocol.cleanup t)) (successor : π) :
    Rest (c.switch h.chronicled next successor) := by
  rcases hs : c.session with _ | s
  · rw [show c.switch h.chronicled next successor = c by simp [Connection.switch, hs]]
    exact hnobody hs
  rcases htake : h.protocol.takeLeftover ⟨c.ctx, s, c.bare.desk⟩ with ⟨t, leftover⟩
  have hvacate := hvacate s hs t leftover htake
  have htake : h.chronicled.protocol.takeLeftover ⟨c.ctx, s, c.desk⟩ =
      (chronicleCall .takeLeftover ⟨c.ctx, s, c.desk⟩ t, leftover) :=
    congrArg (Prod.map (chronicleCall .takeLeftover ⟨c.ctx, s, c.desk⟩) id) htake
  have hdismiss : (c.put (chronicleCall .takeLeftover ⟨c.ctx, s, c.desk⟩ t)).dismiss h.chronicled =
      (c.vacate s t (h.protocol.cleanup t).1, (h.protocol.cleanup t).2) := by
    simp [dismiss, put, Connection.vacate, Host.chronicled, Protocol.chronicled, chronicleCall,
      history, Turn.carry, Turn.bare, Desk.carry, Desk.bare, Connection.bare]
  simp only [Connection.switch, hs, htake, hdismiss]
  rcases hclean : h.protocol.cleanup t with ⟨u, e | ⟨⟩⟩ <;> simp only [hclean] at hvacate ⊢
  · exact hvacate
  · exact hk.resume hnext (hk.install hnext hvacate successor) leftover

end Next

/-- What a callback asked for is carried out. -/
theorem Keeps.take (n : Nat) (hnext : ∀ d, Steady d → Rest (d.applyUpTo h.chronicled n))
    (hc : Asked c) : Rest (c.applyUpTo h.chronicled (n + 1)) := by
  -- the request to close comes before the switch, and the half-close behind it
  unfold Connection.applyUpTo
  split
  · exact hk.close hc
  rename_i hopen
  split
  · rename_i hstays
    exact hk.settle (hk.stays hc hstays)
  · rename_i successor htransition
    have hopen : c.ctx.close = false := by simpa using hopen
    exact hk.settle (hk.steady (hk.switch (c := { c with ctx := { c.ctx with transition := none } })
      hnext (hk.nobody (c := c) hc) (fun s hs _ _ htake => hk.vacate hc hopen htransition hs htake)
      successor))

theorem Keeps.applyUpTo (n : Nat) (hc : Steady c) : Rest (c.applyUpTo h.chronicled n) := by
  induction n generalizing c with
  | zero => exact hk.settle hc
  | succ n ih => exact hk.take n (fun _ => ih) (hk.asked hc)

theorem Keeps.apply (hc : Asked c) : Rest (c.apply h.chronicled) :=
  hk.take _ (fun _ => hk.applyUpTo _) hc

theorem Keeps.onReadable (hc : Rest c) : Rest (c.onReadable h.chronicled) := by
  have hio (io : τ) : Rest { c with io } := hk.idle hc ⟨rfl, rfl, rfl, .inl rfl, rfl⟩
  unfold Connection.onReadable
  split
  · exact hk.end (hio _)
  rcases h.chronicled.socket.recv c.io h.chronicled.recvBuffer with ⟨io, ⟨_ | ⟨b, bs⟩⟩ | fault⟩
  · exact hk.end (hio io)
  · exact hk.feedUpTo (fun _ hd => hk.apply (hk.asked hd)) _ _ (hio io)
  · simp only
    split
    · exact hio io
    · exact hk.end (hio io)

theorem Keeps.onWritable (hc : Rest c) (hopen : c.phase = .open) (htx : c.ctx.tx = true) :
    Rest (c.onWritable h.chronicled) := by
  unfold Connection.onWritable
  rcases hs : c.session with _ | s
  · exact hk.idle hc ⟨rfl, hs.symm, rfl, .inr (.inr ⟨hs, rfl⟩), rfl⟩
  simp only
  rw [show h.chronicled.protocol.write ⟨c.ctx, s, c.desk⟩ c.io =
    Prod.map (chronicleCall (.write c.io) ⟨c.ctx, s, c.desk⟩) id
      (h.protocol.write ⟨c.ctx, s, c.bare.desk⟩ c.io) from rfl]
  rcases hwrite : h.protocol.write ⟨c.ctx, s, c.bare.desk⟩ c.io with ⟨t, io, e | status⟩
  · exact hk.write hc hopen htx hs hwrite
  · exact hk.apply (hk.write hc hopen htx hs hwrite)

theorem Keeps.onWakeup (hc : Rest c) : Rest (c.onWakeup h.chronicled) := by
  have hshut : c.desk.outbox.settle.take.1.closing = c.desk.outbox.closing := by
    unfold Outbox.take
    split <;> rfl
  have hbox : Rest (c.setOutbox c.desk.outbox.settle.take.1) :=
    hk.idle hc ⟨rfl, rfl, rfl, .inl rfl, hshut⟩
  unfold Connection.onWakeup
  generalize c.desk.outbox.settle.take = r at hbox ⊢
  obtain ⟨o, _ | ⟨_ | ⟨item, items⟩⟩⟩ := r
  · exact hbox
  · exact hbox
  · exact callback_keeps (c := c.setOutbox o) (r := .wakeup (item :: items))
      (f := (h.protocol.wakeup · (item :: items))) (fun _ => hbox)
      (fun s hs => hk.wakeup hbox hs (item :: items)) fun _ => hk.apply

theorem Keeps.onStop (hc : Rest c) : Rest (c.onStop h.chronicled) := by
  have hstopping : Rest { c with ctx := { c.ctx with stopping := true } } :=
    hk.idle hc ⟨rfl, rfl, rfl, .inr (.inl rfl), rfl⟩
  unfold Connection.onStop
  simp only
  split
  · rename_i hopen
    exact callback_keeps (c := { c with ctx := { c.ctx with stopping := true } }) (r := .stop)
      (f := h.protocol.stop) (fun _ => hstopping)
      (fun s hs => hk.stop hstopping hopen rfl hs) fun _ => hk.apply
  · exact hstopping

theorem Keeps.handle (hc : Rest c) (now : Nat) (e : Event) :
    Rest (c.handle h.chronicled now e) := by
  have hnow : Rest { c with lastActive := now } := hk.idle hc ⟨rfl, rfl, rfl, .inl rfl, rfl⟩
  unfold Connection.handle
  split
  · exact hc
  rename_i hpass
  cases e with
  | stop => exact hk.onStop hc
  | wakeup => exact hk.onWakeup hc
  | readable broken =>
    cases broken with
    | none => exact hk.onReadable hnow
    | some fault => exact hk.end hc
  | writable broken =>
    cases broken with
    | none =>
      simp only [awaits, not_or, Bool.not_eq_true', Bool.not_eq_false, Bool.and_eq_true,
        decide_eq_true_iff] at hpass
      exact hk.onWritable hnow hpass.2.2 hpass.2.1
    | some fault => exact hk.end hc
  | idle => exact hk.end hc

theorem Keeps.launch {ctx : Context π} {app : α} {io : τ} {now : Nat}
    (hfresh : Vacant {
      ctx, session := none, desk := { app := (h.onOpen ctx app, [.opened]) }, io,
      lastActive := now }) (first : π) :
    Rest (Connection.launch h.chronicled ctx first (app, []) io now) :=
  hk.install (fun _ hd => hk.apply (hk.asked hd)) hfresh first

/-- What others do in a run. -/
def Meddle (h : Host τ σ α π) (Others : Desk α → Desk α → Prop) (c : Connection τ σ α π)
    (xs : List (Happening τ α)) : Prop :=
  ∀ front io desk back, xs = front ++ .outside io desk :: back →
    Others (c.followAll h front).desk desk

theorem Keeps.followAll (hc : Rest c) {xs : List (Happening τ α)}
    (hothers : Meddle h Others c.bare xs) : Rest (c.followAllChronicled h xs) := by
  induction xs generalizing c with
  | nil => exact hc
  | cons x xs ih =>
    refine ih ?_ fun front io desk back hsplit => ?_
    · cases x with
      | event now e => exact hk.handle hc now e
      | outside io desk => exact hk.others io hc (hothers [] io desk xs rfl)
    · rw [bare_followChronicled]
      exact hothers (x :: front) io desk back (congrArg (x :: ·) hsplit)

end Keeps

end WireServer.Connection
