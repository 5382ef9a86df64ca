import WireServer.Proofs.Connection.HalfClosing
import WireServer.Proofs.Http.LastRequest

/-! What becomes of an HTTP connection once the server stops. At most one more request is
dispatched, the one that is being read then. And the connection does not wait for others: unless
another protocol takes over, it stays open only while something is read, answered or sent. -/

namespace WireServer.Connection

open Http (AtMost)
open Http.Session (Settles)

variable {τ α : Type}

/-- The requests that a call of an HTTP session dispatches. -/
def Moment.requests : Moment τ (Binding α) α (Successor α) → List Http.Request
  | .called ⟨.read src, ⟨ctx, .http s m, desk⟩, _⟩ => Http.Session.readRequests s ⟨ctx, m, desk⟩ src
  | _ => []

/-- Another session came. -/
def Replaced (H : History τ (Binding α) α (Successor α)) : Prop := ∃ b, .bound b ∈ H

/-- The requests that are dispatched until another session comes. -/
def dispatched : History τ (Binding α) α (Successor α) → List Http.Request
  | [] => []
  | .bound _ :: _ => []
  | m :: H => m.requests ++ dispatched H

section Dispatched

variable {front back : History τ (Binding α) α (Successor α)}

theorem dispatched_of_replaced (h : Replaced front) :
    dispatched (front ++ back) = dispatched front := by
  obtain ⟨b, hb⟩ := h
  induction front with
  | nil => cases hb
  | cons m front ih =>
    cases m with
    | bound b' => rfl
    | _ =>
      rcases List.mem_cons.1 hb with hm | hb
      · cases hm
      · simp [dispatched, ih hb]

theorem dispatched_append (h : ¬ Replaced front) :
    dispatched (front ++ back) = dispatched front ++ dispatched back := by
  induction front with
  | nil => rfl
  | cons m front ih =>
    have hfront : ¬ Replaced front := fun ⟨b, hb⟩ => h ⟨b, List.mem_cons_of_mem _ hb⟩
    cases m with
    | bound b => exact absurd ⟨b, List.mem_cons_self⟩ h
    | _ => simp [dispatched, ih hfront]

/-- What does not read dispatches nothing. -/
theorem dispatched_of_silent (h : dispatched back = []) :
    dispatched (front ++ back) = dispatched front := by
  by_cases hfront : Replaced front
  · exact dispatched_of_replaced hfront
  · rw [dispatched_append hfront, h, List.append_nil]

end Dispatched

section Stopped

variable (service : Http.Service α (Successor α)) (q? : Option Http.Request)
  (past : History τ (Binding α) α (Successor α))

/-- The session of an open connection on which the server stopped. -/
structure Winds (rs : List Http.Request) (c : Bound τ α) (m : Http.Session (Successor α)) :
    Prop where
  session : c.session = some (.http service m)
  poised : Http.Session.Poised True ⟨c.ctx, m, c.bare.desk⟩
  settles : c.ctx.Calm → Settles q? rs m

/-- What holds of a connection once the server stopped. `past` is what had happened until then, and
`P` is known of what is asked for. -/
def Stopped (P : Context (Successor α) → Prop) (c : Bound τ α) : Prop :=
  ∃ later, c.history = past ++ later ∧ AtMost q? (dispatched later) ∧
    (Replaced later ∨ (c.phase = .open → P c.ctx ∧ ∃ m, Winds service q? (dispatched later) c m))

/-- Since then, at most the request that was being read has been dispatched. -/
def Since (c : Bound τ α) : Prop :=
  ∃ later, c.history = past ++ later ∧ AtMost q? (dispatched later)

variable {service q? past} {P Q : Context (Successor α) → Prop} {c d : Bound τ α} {b : Binding α}

theorem Stopped.mono (h : Stopped service q? past P c) (hP : ∀ ctx, P ctx → Q ctx) :
    Stopped service q? past Q c := by
  obtain ⟨later, hhistory, hmost, hrest⟩ := h
  exact ⟨later, hhistory, hmost, hrest.imp id fun hlive hopen => (hlive hopen).imp (hP _) id⟩

theorem Stopped.since (h : Stopped service q? past P c) : Since q? past c := by
  obtain ⟨later, hhistory, hmost, -⟩ := h
  exact ⟨later, hhistory, hmost⟩

/-- More happens, but no read. -/
theorem Since.more (h : Since q? past c) (more : History τ (Binding α) α (Successor α))
    (hmore : d.history = c.history ++ more) (hsilent : dispatched more = []) :
    Since q? past d := by
  obtain ⟨later, hhistory, hmost⟩ := h
  refine ⟨later ++ more, by rw [hmore, hhistory, List.append_assoc], ?_⟩
  rwa [dispatched_of_silent hsilent]

theorem Since.over (h : Since q? past c) (hphase : c.phase ≠ .open) :
    Stopped service q? past P c := by
  obtain ⟨later, hhistory, hmost⟩ := h
  exact ⟨later, hhistory, hmost, .inr fun hopen => absurd hopen hphase⟩

theorem Since.close {h : Host τ (Binding α) α (Successor α)} (hc : Since q? past c) :
    Stopped service q? past P (c.close h.chronicled) := by
  by_cases hdone : c.phase = .closing ∨ c.phase = .closed
  · rw [show c.close h.chronicled = c from if_pos hdone]
    exact hc.over fun hopen => by simp [hopen] at hdone
  have hlive : c.phase = .open ∨ c.phase = .halfClosed := by
    cases hphase : c.phase <;> simp [hphase] at hdone ⊢
  rcases hs : c.session with _ | b
  · rw [close_of_none hlive hs]
    exact (hc.more [.over] rfl rfl).over nofun
  · rw [close_of_some hlive hs]
    exact (hc.more [.called ⟨.cleanup, _, _⟩, .over] (List.append_assoc _ _ _) rfl).over
      nofun

/-- A call of an open connection's session dispatches at most what was being read. -/
theorem Stopped.after (h : Stopped service q? past Context.Calm c) (hb : c.session = some b)
    {r : Reason τ} {u : Binding.Turn α}
    (hm : ∀ rs m, c.phase = .open → c.ctx.Calm → b = .http service m →
      Http.Session.Poised True ⟨c.ctx, m, c.bare.desk⟩ → Settles q? rs m →
      P u.ctx ∧ ∃ m', u.session = .http service m' ∧ Http.Session.Poised True ⟨u.ctx, m', u.desk⟩ ∧
        Settles q? (rs ++ Moment.requests (.called ⟨r, ⟨c.ctx, b, c.bare.desk⟩, u⟩)) m')
    (hsilent : c.phase ≠ .open →
      Moment.requests (.called ⟨r, ⟨c.ctx, b, c.bare.desk⟩, u⟩ : Moment τ _ α _) = []) :
    Stopped service q? past P (c.after r b u) := by
  obtain ⟨later, hhistory, hmost, hrest⟩ := h
  have hlater : (c.after r b u).history =
      past ++ (later ++ [.called ⟨r, ⟨c.ctx, b, c.bare.desk⟩, u⟩]) := by
    rw [history_after, hhistory, List.append_assoc]
  refine ⟨_, hlater, ?_⟩
  -- behind another session, nothing that is dispatched counts
  by_cases hover : Replaced later
  · rw [dispatched_of_replaced hover]
    obtain ⟨b', hb'⟩ := hover
    exact ⟨hmost, .inl ⟨b', List.mem_append_left _ hb'⟩⟩
  rw [dispatched_append hover, show dispatched [_] = _ ++ [] from rfl, List.append_nil]
  by_cases hopen : c.phase = .open
  · obtain ⟨hcalm, m, hwinds⟩ := hrest.resolve_left hover hopen
    obtain rfl : b = .http service m := Option.some.inj (hb.symm.trans hwinds.session)
    obtain ⟨hP, m', hsession, hpoised, hsettles⟩ :=
      hm _ m hopen hcalm rfl hwinds.poised (hwinds.settles hcalm)
    refine ⟨hsettles.atMost, .inr fun _ => ⟨hP, m', ?_⟩⟩
    exact ⟨congrArg some hsession, hpoised, fun _ => hsettles⟩
  · rw [hsilent hopen, List.append_nil]
    exact ⟨hmost, .inr fun hphase => absurd hphase hopen⟩

/-- Another session comes. -/
theorem Since.handOver (h : Since q? past c) (t : Turn Unit α (Successor α)) (b : Binding α)
    (u : Binding.Turn α) : Stopped service q? past P ((c.seat t b).after .ready b u) := by
  obtain ⟨later, hhistory, hmost⟩ := h
  have hlater : ((c.seat t b).after .ready b u).history = past ++ (later ++
      [.bound b, .called ⟨.ready, ⟨(c.seat t b).ctx, b, (c.seat t b).bare.desk⟩, u⟩]) := by
    simp [hhistory]
  refine ⟨_, hlater, ?_, .inl ⟨b, by simp⟩⟩
  rwa [dispatched_of_silent rfl]

/-- A write that comes back, of a session on which the server stopped. -/
theorem send_poised {ctx : Context (Successor α)} {m : Http.Session (Successor α)} {desk : Desk α}
    (h : Http.Session.Poised True ⟨ctx, m, desk⟩) (hcalm : ctx.Calm) (htx : ctx.tx = true)
    {socket : Net.Sender τ} {io io' : τ} {u : Binding.Turn α} {status : WriteStatus}
    (hsend : Binding.send ⟨ctx, .http service m, desk⟩ socket io = (u, io', .ok status)) :
    ∃ m', u.session = .http service m' ∧ Http.Session.Poised True ⟨u.ctx, m', u.desk⟩ ∧
      Http.Session.Narrows m m' := by
  have hnarrows := Http.Session.narrows_write ⟨ctx, m, desk⟩ socket io
  rcases hwrite : Http.Session.write ⟨ctx, m, desk⟩ socket io with ⟨v, io'', e | ⟨⟨⟩ | ⟨⟩⟩⟩
  all_goals
    rw [hwrite] at hnarrows
    simp only [Binding.send, Binding.write, Turn.around, hwrite] at hsend
    cases hsend
  · have hv := (h.write hcalm htx hwrite).disarm (by rw [Http.Session.out_of_flushed hwrite]; rfl)
    exact ⟨v.session, rfl, hv, hnarrows⟩
  · exact ⟨v.session, rfl, h.write hcalm htx hwrite, hnarrows⟩

/-- A call that does not read. -/
theorem Stopped.call (h : Stopped service q? past Context.Calm c) (hb : c.session = some b)
    {r : Reason τ} {u : Binding.Turn α}
    (hsilent : Moment.requests (.called ⟨r, ⟨c.ctx, b, c.bare.desk⟩, u⟩ : Moment τ _ α _) = [])
    (hm : ∀ m, b = .http service m → Http.Session.Poised True ⟨c.ctx, m, c.bare.desk⟩ →
      c.ctx.Calm → ∃ m', u.session = .http service m' ∧
        Http.Session.Poised True ⟨u.ctx, m', u.desk⟩ ∧ Http.Session.Narrows m m') :
    Stopped service q? past (fun _ => True) (c.after r b u) := by
  refine h.after hb (fun rs m _ hcalm hb' hpoised hsettles => ?_) fun _ => hsilent
  obtain ⟨m', hsession, hpoised', hnarrows⟩ := hm m hb' hpoised hcalm
  rw [hsilent, List.append_nil]
  exact ⟨trivial, m', hsession, hpoised', hsettles.mono hnarrows⟩

theorem Since.after (h : Since q? past c) {r : Reason τ} {u : Binding.Turn α}
    (hsilent : Moment.requests (.called ⟨r, ⟨c.ctx, b, c.bare.desk⟩, u⟩ : Moment τ _ α _) = []) :
    Since q? past (c.after r b u) :=
  h.more _ (history_after c r b u) ((List.append_nil _).trans hsilent)

theorem Stopped.idle (h : Stopped service q? past Context.Calm c) (hd : Idles c d) :
    Stopped service q? past Context.Calm d := by
  obtain ⟨later, hhistory, hmost, hrest⟩ := h
  refine ⟨later, hd.history.trans hhistory, hmost, hrest.imp id fun hlive hopen => ?_⟩
  obtain ⟨hcalm, m, hwinds⟩ := hlive (hd.phase.symm.trans hopen)
  have hsession := hd.session.trans hwinds.session
  rcases hd.ctx with hctx | hctx | ⟨hnone, -⟩
  · rw [hctx]
    exact ⟨hcalm, m, hsession, hctx ▸ hwinds.poised.recast hcalm hcalm rfl hwinds.poised.stopping,
      fun _ => hwinds.settles hcalm⟩
  · have hcalm' : d.ctx.Calm := hctx ▸ ⟨hcalm.1, hcalm.2⟩
    refine ⟨hcalm', m, hsession, ?_, fun _ => hwinds.settles hcalm⟩
    exact hwinds.poised.recast hcalm hcalm' (by rw [hctx]) fun _ => by rw [hctx]
  · cases hnone.symm.trans hwinds.session

end Stopped

section Keeps

variable (service : Http.Service α (Successor α)) (q? : Option Http.Request)
  (past : History τ (Binding α) α (Successor α)) {c : Bound τ α}
  {h : Host τ (Binding α) α (Successor α)} (hh : h.protocol = Binding.protocol h.socket.toSender)

include hh

theorem keeps_stopped : Keeps h (fun _ _ => True) (Stopped service q? past Context.Calm)
    (Stopped service q? past fun ctx => ctx.transition = none)
    (Stopped service q? past fun _ => True) (Since q? past) where
  idle := Stopped.idle
  others := by
    rintro c io desk ⟨later, hhistory, hmost, hrest⟩ -
    refine ⟨later, hhistory, hmost, hrest.imp id fun hlive hopen => ?_⟩
    obtain ⟨hcalm, m, hwinds⟩ := hlive hopen
    exact ⟨hcalm, m, hwinds.session,
      hwinds.poised.recast hcalm hcalm rfl hwinds.poised.stopping, hwinds.settles⟩
  steady hc := hc.mono fun _ hcalm => hcalm.transition
  asked hc := hc.mono fun _ _ => trivial
  stays := by
    rintro c ⟨later, hhistory, hmost, hrest⟩ hstays
    exact ⟨later, hhistory, hmost, hrest.imp id fun hlive hopen => ⟨hstays, (hlive hopen).2⟩⟩
  close hc := hc.since.close
  settle := by
    rintro c hc
    refine settle_induction c (fun _ => hc.since.close) (fun _ hstays => ?_) fun _ _ hopen => ?_
    · obtain ⟨later, hhistory, hmost, hrest⟩ := hc
      refine ⟨later, hhistory, hmost, hrest.imp id fun hlive hopen => ?_⟩
      obtain ⟨htransition, m, hwinds⟩ := hlive hopen
      have hshutdown : c.ctx.shutdown = false :=
        Bool.eq_false_iff.2 fun hasked => hstays ⟨hasked, hopen⟩
      have hcalm : c.ctx.Calm := ⟨hshutdown, htransition⟩
      exact ⟨⟨rfl, htransition⟩, m, hwinds.session,
        hwinds.poised.recast hcalm ⟨rfl, htransition⟩ rfl hwinds.poised.stopping,
        fun _ => hwinds.settles hcalm⟩
    · have habout (d : Bound τ α) (hd : d.history = c.history ++ [.halfClosing]) :
          Since q? past d := hc.since.more _ hd rfl
      exact ⟨(habout _ rfl).close, fun io => (habout _ rfl).over nofun⟩
  nobody := by
    rintro c ⟨later, hhistory, hmost, hrest⟩ hnone
    refine ⟨later, hhistory, hmost, hrest.imp id fun hlive hopen => ?_⟩
    obtain ⟨-, m, hwinds⟩ := hlive hopen
    cases hnone.symm.trans hwinds.session
  vacate := by
    rintro c b successor hc _ _ _ t leftover _
    rw [hh]
    exact hc.since.more _ (history_vacate _ b t t) rfl
  bind := by
    intro c hc successor
    rw [hh]
    have hready (t : Turn Unit α (Successor α)) (b : Binding α) :
        Stopped service q? past (fun ctx => ctx.transition = none)
          ((c.seat t b).after .ready b (Binding.ready ⟨t.ctx, b, t.desk⟩)) :=
      hc.handOver t b _
    exact hready _ _
  read := by
    rintro c b hc hopen hb src -
    rw [hh]
    simp only [Binding.protocol]
    rcases hread : Binding.read ⟨c.ctx, b, c.bare.desk⟩ src with ⟨u, result⟩
    have hafter : Stopped service q? past (fun ctx => ctx.transition = none)
        (c.after (.read src) b u) := by
      refine hc.after hb (fun rs m _ hcalm hm hpoised hsettles => ?_) (absurd hopen)
      subst hm
      cases hread
      obtain ⟨hread, hstays⟩ := hpoised.read service hcalm src
      exact ⟨hstays, _, rfl, hread,
        hsettles.read (hpoised.calm hcalm) (hpoised.stopping trivial) src⟩
    rcases result with e | ⟨⟩
    · exact hafter.since.close
    · exact hafter
  write := by
    rintro c b hc hopen htx hb t io result hwrite
    rw [hh] at hwrite
    have hio : Stopped service q? past Context.Calm { c with io } :=
      hc.idle ⟨rfl, rfl, rfl, .inl rfl, rfl⟩
    rcases result with e | status
    · exact (hio.since.after rfl).close
    have hcall : Stopped service q? past (fun _ => True)
        ({ c with io }.after (.write c.io) b t) := by
      refine hio.call hb rfl fun m hm hpoised hcalm => ?_
      subst hm
      exact send_poised hpoised hcalm htx hwrite
    exact hcall
  wakeup := by
    rintro c b hc hb items
    rw [hh]
    have hcall : Stopped service q? past (fun _ => True)
        (c.after (.wakeup items) b (Binding.wakeup ⟨c.ctx, b, c.bare.desk⟩ items)) := by
      refine hc.call hb rfl fun m hm hpoised hcalm => ?_
      subst hm
      exact ⟨_, rfl, (hpoised.wakeup hcalm items).1,
        Http.Session.narrows_wakeup ⟨c.ctx, m, c.bare.desk⟩ items⟩
    exact hcall
  stop := by
    rintro c b hc _ hstopping hb
    rw [hh]
    have hcall : Stopped service q? past (fun _ => True)
        (c.after .stop b (Binding.stop ⟨c.ctx, b, c.bare.desk⟩)) := by
      refine hc.call hb rfl fun m hm hpoised hcalm => ?_
      subst hm
      exact ⟨_, rfl, (hpoised.weaken.stop hcalm fun _ => hstopping).1,
        Http.Session.narrows_stop ⟨c.ctx, m, c.bare.desk⟩⟩
    exact hcall

/-- The server stops. -/
theorem stopped_onStop (hc : Resting c) {m : Http.Session (Successor α)}
    (hb : c.session = some (.http service m)) :
    Stopped service m.current c.history Context.Calm (c.onStop h.chronicled) := by
  have hnow : Since m.current c.history c := ⟨[], (List.append_nil _).symm, .inl rfl⟩
  unfold onStop
  dsimp only
  split
  · refine callback_keeps (c := { c with ctx := { c.ctx with stopping := true } }) (r := .stop)
      (f := h.protocol.stop) (fun hnone => ?_) (fun b hb' => ?_)
      fun _ => (keeps_stopped service m.current c.history hh).apply
    · cases hnone.symm.trans hb
    obtain rfl : b = .http service m := Option.some.inj (hb'.symm.trans hb)
    have hcalm := hc.calm _ hb
    have hpoised : Http.Session.Poised False ⟨c.ctx, m, c.bare.desk⟩ := hc.tidy _ hb
    have hcalm' : Context.Calm { c.ctx with stopping := true } := ⟨hcalm.1, hcalm.2⟩
    have hrecast : Http.Session.Poised False
        ⟨{ c.ctx with stopping := true }, m, c.bare.desk⟩ :=
      hpoised.recast hcalm hcalm' rfl False.elim
    have hstop := hrecast.stop hcalm' fun _ : True => rfl
    rw [hh]
    exact ⟨[.called ⟨.stop, _, _⟩], rfl, .inl rfl, .inr fun _ =>
      ⟨trivial, _, rfl, hstop.1, Http.Session.settles_stop hstop.1⟩⟩
  · rename_i hclosed
    exact Since.over (c := { c with ctx := { c.ctx with stopping := true } }) hnow hclosed

/-- Once the server stops, an HTTP session dispatches at most one more request, the one whose head
it had decoded. And the connection stays open only while a request is read, a response is in line,
or output is unsent, unless another protocol takes over. -/
theorem winds_down_of_stop (maxIovec : Nat) (stopping : Bool) (first : Successor α) (app : α)
    (io : τ) (now : Nat) (xs ys : List (Happening τ α)) (now' : Nat)
    {m : Http.Session (Successor α)} :
    let c := chronicle h { maxIovec, stopping } first app io now xs
    let d := chronicle h { maxIovec, stopping } first app io now (xs ++ .event now' .stop :: ys)
    c.session = some (.http service m) → c.ctx.stopping = false →
      d.bare = (launch h { maxIovec, stopping } first app io now).followAll h
        (xs ++ .event now' .stop :: ys) ∧
      ∃ later, d.history = c.history ++ later ∧ AtMost m.current (dispatched later) ∧
        (d.phase = .open → Replaced later ∨ ∃ m', d.session = some (.http service m') ∧
          (m'.current.isSome ∨ m'.pending ≠ [] ∨ 0 < m'.out.total)) := by
  intro c d hb hstopping
  refine ⟨bare_chronicle h _ first app io now _, ?_⟩
  have hc : Resting c := resting_chronicle hh maxIovec stopping first app io now xs
  have hlive := hc.live _ hb
  have hstop : Stopped service m.current c.history Context.Calm
      (c.followChronicled h (.event now' .stop)) := by
    have hhandle : c.followChronicled h (.event now' .stop) = c.onStop h.chronicled := by
      rcases hlive with hlive | hlive <;>
        simp [followChronicled, Happening.carry, follow, handle, awaits, hlive, hstopping]
    rw [hhandle]
    exact stopped_onStop service hh hc hb
  have hd : d = (c.followChronicled h (.event now' .stop)).followAllChronicled h ys :=
    List.foldl_append
  obtain ⟨later, hhistory, hmost, hrest⟩ := hd ▸
    (keeps_stopped service m.current c.history hh).followAll hstop fun _ _ _ _ _ => trivial
  refine ⟨later, hhistory, hmost, fun hopen => hrest.imp id fun hlive => ?_⟩
  obtain ⟨hcalm, m', hwinds⟩ := hlive hopen
  exact ⟨m', hwinds.session, hwinds.poised.busy hcalm⟩

end Keeps

/-! The server stops in the middle of a request. Its rest comes together with another one. -/

namespace LateStop

def front : Bytes := Bytes.ofString "POST / HTTP/1.1\r\nContent-Length: 5\r\n\r\nhel"

def back : Bytes := Bytes.ofString "loGET / HTTP/1.1\r\n\r\n"

def early : List (Happening Net.MemorySocket Unit) := [.event 0 (.readable none)]

def late : List (Happening Net.MemorySocket Unit) :=
  [.outside { input := back } { app := () }, .event 2 (.readable none)]

def half : Bound Net.MemorySocket Unit :=
  chronicle SlowPeer.host {} SlowPeer.nodding () { input := front } 0 early

def whole : Bound Net.MemorySocket Unit :=
  chronicle SlowPeer.host {} SlowPeer.nodding () { input := front } 0
    (early ++ .event 1 .stop :: late)

def isHttp : Binding Unit → Bool
  | .http _ _ => true
  | _ => false

/-- The request is dispatched with its whole body, and the one behind it is not. -/
theorem winds_down_of_stop_half_read : ∃ later, whole.history = half.history ++ later ∧
    ∃ q r, dispatched later = [r] ∧ Http.Request.Grows q r ∧ r.body = Bytes.ofString "hello" := by
  have hhttp : half.session.any isHttp ∧ half.ctx.stopping = false := by decide +kernel
  have hbodies : (dispatched (whole.history.drop half.history.length)).map (·.body) =
      [Bytes.ofString "hello"] := by decide +kernel
  rcases hs : half.session with _ | ⟨s, m⟩ | _ | _ <;> rw [hs] at hhttp
  case some.http =>
    obtain ⟨-, later, hhistory, hmost, -⟩ := winds_down_of_stop s (h := SlowPeer.host) rfl 64 false
      SlowPeer.nodding () { input := front } 0 early late 1 hs hhttp.2
    have hhistory : whole.history = half.history ++ later := hhistory
    rw [hhistory, List.drop_left] at hbodies
    rcases hmost with hnone | ⟨q, r, -, hone, hgrows⟩
    · simp [hnone] at hbodies
    · rw [hone] at hbodies
      exact ⟨later, hhistory, q, r, hone, hgrows, by simpa using hbodies⟩
  all_goals cases hhttp.1

end LateStop

end WireServer.Connection
