import WireServer.Proofs.Connection.Traffic
import WireServer.Proofs.Http.Opening

/-! A connection that opens with a request to go on with WebSocket, before the hand-over. Only the
HTTP session is called; as long as the connection is open, the session has seen all that came in,
and the answer, or what is left of it, waits for the socket. -/

namespace WireServer

namespace Binding

/-- A call of the HTTP session. -/
def OnHttp {τ α : Type} (service : Http.Service α (Successor α)) (c : Call τ α) : Prop :=
  ∃ m, c.before.session = .http service m

end Binding

namespace Connection

open Binding Net

variable {τ α : Type}

/-- The connection behind a call. -/
def called (c : Traced τ α) (r : Reason τ) (b : Binding α) (u : Binding.Turn α) : Traced τ α :=
  c.put (traceCall r ⟨c.ctx, b, c.desk⟩ u)

section Called

variable (c : Traced τ α) (r : Reason τ) (b : Binding α) (u : Binding.Turn α)

@[simp] theorem ctx_called : (c.called r b u).ctx = u.ctx := rfl

@[simp] theorem trace_called :
    (c.called r b u).trace = c.trace ++ [⟨r, ⟨c.ctx, b, c.bare.desk⟩, u⟩] := rfl

variable {c b}

/-- A traced callback is the callback with one call more in the trace. -/
theorem callback_called (h : Host τ (Binding α) α (Successor α)) (hb : c.session = some b)
    (f : Binding.Turn α → Binding.Turn α × Except Failure Unit) (next : Traced τ α → Traced τ α) :
    callback h.traced (fun t => Prod.map (traceCall r t) id (f t.bare)) next c =
      match f ⟨c.ctx, b, c.bare.desk⟩ with
      | (u, .ok ()) => next (c.called r b u)
      | (u, .error _) => (c.called r b u).close h.traced := by
  unfold callback
  simp only [hb]
  rw [show (⟨c.ctx, b, c.bare.desk⟩ : Binding.Turn α) =
    (⟨c.ctx, b, c.desk⟩ : WireServer.Turn _ _ _).bare from rfl]
  simp only [Prod.map]
  rcases f (Turn.bare ⟨c.ctx, b, c.desk⟩) with ⟨u, e | ⟨⟩⟩ <;> rfl

end Called

section Machine

variable {h : Host τ (Binding α) α (Successor α)}

theorem callback_none {σ β π : Type} (k : Host τ σ β π) {c : Connection τ σ β π}
    (hs : c.session = none) (f : Turn σ β π → Turn σ β π × Except Failure Unit)
    (next : Connection τ σ β π → Connection τ σ β π) : callback k f next c = c := by
  simp [callback, hs]

theorem apply_of_stays {σ β π : Type} (k : Host τ σ β π) {c : Connection τ σ β π}
    (hstays : c.ctx.transition = none) : c.apply k = c.settle k := by
  unfold apply applyUpTo
  rw [hstays]
  by_cases hclose : c.ctx.close <;> simp [hclose, settle]

/-- A connection that is asked for nothing stays as it is. -/
theorem apply_of_orders {σ β π : Type} (k : Host τ σ β π) {c : Connection τ σ β π}
    (horders : c.ctx.orders = (false, false, none)) : c.apply k = c := by
  obtain ⟨phase, ⟨maxIovec, rx, tx, shutdown, close, stopping, transition⟩, session, desk, io,
    lastActive⟩ := c
  simp only [Context.orders, Prod.mk.injEq] at horders
  obtain ⟨rfl, rfl, rfl⟩ := horders
  simp [apply, applyUpTo, settle]

/-- The session that goes away is cleaned up. -/
theorem release_calls (hh : Serves h) (c : Traced τ α) :
    ∃ calls, (c.release h.traced).trace = c.trace ++ calls ∧
      ∀ k ∈ calls, k.reason = .cleanup ∧ c.session = some k.before.session := by
  rcases hs : c.session with _ | b
  · exact ⟨[], by simp [release, dismiss, hs], by simp⟩
  · refine ⟨_, trace_release hh hs, fun k hk => ?_⟩
    rw [List.mem_singleton.1 hk]
    exact ⟨rfl, rfl⟩

/-- Closing cleans up the session, unless that is done or under way. -/
theorem close_cases (hh : Serves h) (c : Traced τ α) :
    (c.phase = .closing ∨ c.phase = .closed) ∧ c.close h.traced = c ∨
      (c.close h.traced).phase = .closed ∧ (c.close h.traced).session = none ∧
        (c.close h.traced).ctx = c.ctx ∧ ∃ calls, (c.close h.traced).trace = c.trace ++ calls ∧
          ∀ k ∈ calls, k.reason = .cleanup ∧ c.session = some k.before.session := by
  unfold close
  by_cases hp : c.phase = .closing ∨ c.phase = .closed
  · rw [if_pos hp]
    exact .inl ⟨hp, rfl⟩
  rw [if_neg hp]
  exact .inr ⟨rfl, session_release h _, (release_frame hh _).1, release_calls hh _⟩

end Machine

/-! ### Before the hand-over -/

section Host

variable {h : Host τ (Binding α) α (Successor α)}
variable {service : Http.Service α (Successor α)} {next : WebSocket.Service α}
variable {o : Http.Opening service (.webSocket next)} {c d : Traced (τ × Traffic) α}

/-- There was no other session than the HTTP session. -/
structure Unswitched (o : Http.Opening service (.webSocket next)) (c : Traced (τ × Traffic) α) :
    Prop where
  calls : ∀ k ∈ c.trace, OnHttp service k
  sent : c.io.2.sent <+: o.output
  http : ∀ b ∈ c.session, (c.phase = .open ∨ c.phase = .halfClosed) ∧ ∃ m, b = .http service m

/-- And if the connection is open, it still can switch. Once it is not open any more, the session
has its traffic behind it. -/
structure Before (o : Http.Opening service (.webSocket next)) (c : Traced (τ × Traffic) α) : Prop
    extends Unswitched o c where
  calm : ∀ m, c.session = some (.http service m) → ∃ known : Traffic,
    o.Calm known.received known.sent ⟨c.ctx, m, c.bare.desk⟩ ∧ (c.phase = .open → known = c.io.2)
  whole : c.phase = .open → c.session.isSome ∧ ∀ k ∈ c.trace, k.reason ≠ .cleanup

theorem Before.of_eq (hc : Before o c) (hphase : d.phase = c.phase)
    (hsession : d.session = c.session) (htrace : d.trace = c.trace) (htraffic : d.io.2 = c.io.2)
    (horders : d.ctx.orders = c.ctx.orders) (htx : d.ctx.tx = c.ctx.tx) : Before o d := by
  refine ⟨⟨htrace ▸ hc.calls, htraffic ▸ hc.sent, ?_⟩, fun m hm => ?_, ?_⟩
  · rw [hsession, hphase]
    exact hc.http
  · obtain ⟨known, hcalm, hknown⟩ := hc.calm m (hsession.symm.trans hm)
    rw [hphase, htraffic]
    exact ⟨known, ⟨hcalm.stands, fun hout => htx.trans (hcalm.armed hout),
      horders.trans hcalm.orders⟩, hknown⟩
  · rw [hphase, hsession, htrace]
    exact hc.whole

/-- Nothing is left to carry out. -/
theorem Before.apply (hc : Before o c) {b : Binding α} (hb : c.session = some b) :
    Before o (c.apply h.observed.traced) := by
  obtain ⟨-, m, rfl⟩ := hc.http b hb
  obtain ⟨known, hcalm, -⟩ := hc.calm m hb
  rw [apply_of_orders _ hcalm.orders]
  exact hc

theorem Unswitched.close (hh : Serves h) (hc : Unswitched o c) :
    Before o (c.close h.observed.traced) := by
  rcases close_cases hh.observed c with
    ⟨hphase, hsame⟩ | ⟨hphase, hsession, -, calls, htrace, hcalls⟩
  · rw [hsame]
    refine ⟨hc, fun m hm => ?_, ?_⟩
    · rcases (hc.http _ hm).1 with hopen | hopen <;> simp [hopen] at hphase
    · intro hopen
      simp [hopen] at hphase
  · refine ⟨⟨fun k hk => ?_, ?_, by simp [hsession]⟩, by simp [hsession], by simp [hphase]⟩
    · rw [htrace, List.mem_append] at hk
      rcases hk with hk | hk
      · exact hc.calls k hk
      · exact (hc.http _ (hcalls k hk).2).2
    · rw [io_close]
      exact hc.sent

section Calls

variable {m : Http.Session (Successor α)} {v : Http.Session.Turn α (Successor α)}
variable (r : Reason (τ × Traffic)) (io : τ × Traffic)

/-- Behind any call of the HTTP session. -/
theorem Before.called (hc : Before o c) (hm : c.session = some (.http service m))
    (hsent : io.2.sent <+: o.output) :
    Unswitched o ({ c with io }.called r (.http service m) (v.wrap (.http service))) := by
  refine ⟨fun k hk => ?_, hsent, ?_⟩
  · rw [trace_called, List.mem_append, List.mem_singleton] at hk
    rcases hk with hk | rfl
    · exact hc.calls k hk
    · exact ⟨m, rfl⟩
  · rintro b ⟨⟩
    exact ⟨(hc.http _ hm).1, _, rfl⟩

theorem Before.uncleaned (hc : Before o c) (hopen : c.phase = .open) (hr : r ≠ .cleanup) :
    ∀ k ∈ ({ c with io }.called r (.http service m) (v.wrap (.http service))).trace,
      k.reason ≠ .cleanup := by
  intro k hk
  rw [trace_called, List.mem_append, List.mem_singleton] at hk
  rcases hk with hk | rfl
  · exact (hc.whole hopen).2 k hk
  · exact hr

/-- Behind a call that asks nothing of the connection. -/
theorem Before.calmed (hc : Before o c) (hm : c.session = some (.http service m))
    (hsent : io.2.sent <+: o.output) (hr : r ≠ .cleanup) (known : Traffic)
    (hcalm : o.Calm known.received known.sent v) (hknown : c.phase = .open → known = io.2) :
    Before o ({ c with io }.called r (.http service m) (v.wrap (.http service))) := by
  refine ⟨hc.called r io hm hsent, ?_, fun hopen => ⟨rfl, hc.uncleaned r io hopen hr⟩⟩
  rintro _ ⟨⟩
  exact ⟨known, hcalm, hknown⟩

/-- A call of the HTTP session, unless there is none any more. -/
theorem before_callback (hhttp : ∀ b ∈ c.session, ∃ m, b = .http service m)
    (hnone : c.session = none → Before o c)
    {f : Binding.Turn α → Binding.Turn α × Except Failure Unit}
    {next' : Traced (τ × Traffic) α → Traced (τ × Traffic) α}
    (hf : ∀ m, c.session = some (.http service m) → ∃ v : Http.Session.Turn α (Successor α),
      f ⟨c.ctx, .http service m, c.bare.desk⟩ = (v.wrap (.http service), .ok ()) ∧
        Before o (next' (c.called r (.http service m) (v.wrap (.http service))))) :
    Before o (callback h.observed.traced
      (fun t => Prod.map (traceCall r t) id (f t.bare)) next' c) := by
  rcases hs : c.session with _ | b
  · rw [callback_none _ hs]
    exact hnone hs
  · obtain ⟨m, rfl⟩ := hhttp b hs
    obtain ⟨v, hv, hbefore⟩ := hf m hs
    rw [callback_called r h.observed hs f next', hv]
    exact hbefore

/-- A connection that stops before anything came in is done sending. -/
theorem Unswitched.shutdown (hh : Serves h) (hc : Unswitched o c) (hopen : c.phase = .open)
    (hm : c.session = some (.http service m)) (horders : c.ctx.orders = (true, false, none))
    {came sent : Bytes} (hstands : o.Stands came sent m) (hidle : m.out = {}) :
    Before o (c.apply h.observed.traced) := by
  simp only [Context.orders, Prod.mk.injEq] at horders
  obtain ⟨hshutdown, hclose, hstays⟩ := horders
  rw [apply_of_stays _ hstays]
  unfold settle halfClose
  simp only [hclose, hshutdown, hopen, Bool.false_eq_true, if_false, and_self, if_true]
  split
  · exact Unswitched.close hh ⟨hc.calls, hc.sent, fun b hb => ⟨.inl rfl, (hc.http b hb).2⟩⟩
  rename_i io hio
  have htraffic : io.2 = c.io.2 := Socket.traffic_shutdownWrite c.io io hio
  refine ⟨⟨hc.calls, htraffic ▸ hc.sent, fun b hb => ⟨.inr rfl, (hc.http b hb).2⟩⟩, ?_, by simp⟩
  intro m' hm'
  cases hm.symm.trans hm'
  exact ⟨⟨came, sent⟩, ⟨hstands, fun hout => absurd (hidle ▸ rfl) hout,
    by simp [Context.orders, hstays]⟩, by simp⟩

end Calls

theorem before_onWakeup (hc : Before o c) : Before o (c.onWakeup h.observed.traced) := by
  have hbox (b : Outbox) : Before o (c.setOutbox b) := hc.of_eq rfl rfl rfl rfl rfl rfl
  unfold onWakeup
  split
  · exact hbox _
  · exact hbox _
  rename_i b items _ _
  have hc := hbox b
  refine before_callback (r := .wakeup items) (f := fun t => (Binding.wakeup t items, .ok ()))
    (fun b hb => (hc.http b hb).2) (fun _ => hc) fun m hm => ⟨_, rfl, ?_⟩
  obtain ⟨known, hcalm, hknown⟩ := hc.calm m hm
  have hbefore := hc.calmed (.wakeup items) c.io hm hc.sent nofun known
    (hcalm.wakeup items) hknown
  exact hbefore.apply rfl

theorem before_stop (hh : Serves h) (hc : Before o c) (hopen : c.phase = .open) :
    Before o (callback h.observed.traced h.observed.traced.protocol.stop
      (apply h.observed.traced) c) := by
  refine before_callback (r := .stop) (f := fun t => (Binding.stop t, .ok ()))
    (fun b hb => (hc.http b hb).2) (fun _ => hc)
    fun m hm => ⟨Http.Session.stop ⟨c.ctx, m, c.bare.desk⟩, rfl, ?_⟩
  obtain ⟨known, hcalm, hknown⟩ := hc.calm m hm
  have hstop := hcalm.stop
  generalize Http.Session.stop ⟨c.ctx, m, c.bare.desk⟩ = v at hstop ⊢
  rcases hstop with hstop | ⟨rfl, ⟨left, hreading, -⟩, hidle⟩
  · have hbefore := hc.calmed .stop c.io hm hc.sent nofun known hstop hknown
    exact hbefore.apply rfl
  · have horders := hcalm.orders
    simp only [Context.orders, Prod.mk.injEq] at horders
    have hcalled := hc.called .stop c.io hm hc.sent
      (v := (⟨c.ctx, m, c.bare.desk⟩ : Http.Session.Turn α _).shutdown)
    refine hcalled.shutdown hh hopen rfl ?_ hcalm.stands (hreading.idle hidle)
    simp [Context.orders, Turn.shutdown, Turn.wrap, Turn.around, horders]

theorem before_onStop (hh : Serves h) (hc : Before o c) :
    Before o (c.onStop h.observed.traced) := by
  have hc : Before o { c with ctx := { c.ctx with stopping := true } } :=
    hc.of_eq rfl rfl rfl rfl rfl rfl
  unfold onStop
  simp only
  split
  · rename_i hopen
    exact before_stop hh hc hopen
  · exact hc

/-- More of the opening, or of what follows it. -/
theorem before_read (hh : Serves h) (hc : Before o c) (hhalf : c.phase ≠ .halfClosed)
    {io : τ × Traffic} {bytes : Bytes} (hbytes : bytes ≠ [])
    (htraffic : io.2 = { c.io.2 with received := c.io.2.received ++ bytes })
    (hsrc : io.2.received <+: o.bytes ∨ o.bytes <+: io.2.received) :
    Before o (feed h.observed.traced bytes (apply h.observed.traced) { c with io }) := by
  have hsent : io.2.sent <+: o.output := by
    rw [htraffic]
    exact hc.sent
  by_cases hopen : c.phase = .open
  swap
  · have hnone : c.session = none := Option.eq_none_iff_forall_ne_some.2 fun b hb =>
      (hc.http b hb).1.elim hopen hhalf
    rw [feed_of_done (c := { c with io }) _ (.inr hopen)]
    exact ⟨⟨hc.calls, hsent, hc.http⟩, fun m hm => (nomatch hnone.symm.trans hm),
      fun h => absurd h hopen⟩
  rw [feed_traced (c := { c with io }) hh.observed _ hbytes hopen]
  -- until the session has read the bytes, `{ c with io }` has more traffic than the session knows of,
  -- so the invariant holds of `c` in front of the call and of the result behind it
  refine before_callback (c := { c with io }) (r := .read bytes) (f := (Binding.read · bytes))
    (fun b hb => (hc.http b hb).2) (fun hnone => ?_) fun m hm => ⟨_, rfl, ?_⟩
  · have hsome := (hc.whole hopen).1
    rw [show c.session = none from hnone] at hsome
    cases hsome
  · obtain ⟨known, hcalm, hknown⟩ := hc.calm m hm
    rw [hknown hopen] at hcalm
    have hreceived : io.2.received = c.io.2.received ++ bytes := congrArg Traffic.received htraffic
    rw [hreceived] at hsrc
    have hbefore := hc.calmed (.read bytes) io hm hsent nofun
      { c.io.2 with received := c.io.2.received ++ bytes } (hcalm.read hsrc)
      fun _ => htraffic.symm
    exact hbefore.apply rfl

theorem before_onReadable (hh : Serves h) (hc : Before o c) {w : Bytes}
    (hfits : (c.onReadable h.observed.traced).io.2.received <+: o.bytes ++ w) :
    Before o (c.onReadable h.observed.traced) := by
  have htraffic := traffic_recv h c.io
  have hclose (io : τ × Traffic) (hsent : io.2.sent = c.io.2.sent) :
      Before o ({ c with io }.close h.observed.traced) :=
    Unswitched.close hh ⟨hc.calls, hsent ▸ hc.sent, hc.http⟩
  unfold onReadable at hfits ⊢
  by_cases hhalf : c.phase = .halfClosed
  · rw [if_pos hhalf]
    obtain ⟨more, hdrain⟩ := traffic_drain h (h.observed.traced.socket.backlog c.io) c.io
    exact hclose _ (by rw [hdrain])
  rw [if_neg hhalf] at hfits ⊢
  rcases hrecv : h.observed.traced.socket.recv c.io h.observed.traced.recvBuffer with
    ⟨io, ⟨_ | ⟨b, bs⟩⟩ | fault⟩
  all_goals simp only [hrecv] at hfits htraffic ⊢
  · exact hclose io (by rw [htraffic])
  · have hpast := (respects_feed (respects_received h) { c with io }
      (respects_apply (respects_received h)) _).trans hfits
    exact before_read hh hc hhalf (List.cons_ne_nil _ _) htraffic
      (List.prefix_or_prefix_of_prefix hpast (List.prefix_append _ _))
  · split
    · exact hc.of_eq rfl rfl rfl htraffic rfl rfl
    · exact hclose io (by rw [htraffic])

end Host

end Connection

end WireServer
