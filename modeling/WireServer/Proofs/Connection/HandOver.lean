import WireServer.Proofs.Connection.Unswitched

/-! The hand-over from HTTP to WebSocket. However the opening and what follows it come in, and
however the answer goes out, the HTTP session is gone before there is a WebSocket session, the
answer is out before anything else is sent, and the WebSocket session is given what came behind the
opening. -/

namespace WireServer

namespace Binding

variable {τ α : Type}

/-- What a call gave to a WebSocket session. -/
def givenBy (c : Call τ α) : Bytes :=
  match c.reason, c.before.session with
  | .read src, .webSocket _ _ => src
  | _, _ => []

def given (calls : Trace τ α) : Bytes := calls.flatMap givenBy

theorem given_append (calls more : Trace τ α) : given (calls ++ more) = given calls ++ given more :=
  List.flatMap_append

theorem sent_append (socket : Net.Sender τ) (calls more : Trace τ α) :
    sent socket (calls ++ more) = sent socket calls ++ sent socket more :=
  List.flatMap_append

/-- A call of the WebSocket session. -/
def OnWebSocket (next : WebSocket.Service α) (c : Call τ α) : Prop :=
  ∃ l, c.before.session = .webSocket next l

/-- The calls around a hand-over: the HTTP session gives away what it did not use and is cleaned up,
and then a fresh WebSocket session is told that the connection is ready. -/
structure Relay (service : Http.Service α (Successor α)) (next : WebSocket.Service α)
    (front : Trace τ α) (hand clean greet : Call τ α) (later : Trace τ α) : Prop where
  front : ∀ c ∈ front, OnHttp service c ∧ c.reason ≠ .cleanup
  hand : OnHttp service hand ∧ hand.reason = .takeLeftover
  clean : OnHttp service clean ∧ clean.reason = .cleanup
  fresh : greet.before.session = .webSocket next (.new next)
  greet : greet.reason = .ready ∧ greet.after = ready greet.before
  later : ∀ c ∈ later, OnWebSocket next c

end Binding

namespace Connection

open Binding Net

variable {τ α : Type}

section Host

variable {h : Host τ (Binding α) α (Successor α)}
variable {service : Http.Service α (Successor α)} {next : WebSocket.Service α}
variable {o : Http.Opening service (.webSocket next)} {c d : Traced (τ × Traffic) α}

/-! ### Behind the hand-over -/

/-- The hand-over is done; `lost` came in and was not given to the WebSocket session. -/
def HandedOver (socket : Sender (τ × Traffic)) (o : Http.Opening service (.webSocket next))
    (calls : Binding.Trace (τ × Traffic) α) (t : Traffic) (lost : Bytes) : Prop :=
  ∃ front hand clean greet later, calls = front ++ [hand, clean, greet] ++ later ∧
    Relay service next front hand clean greet later ∧
    t.sent = o.output ++ sent socket later ∧ t.received = o.bytes ++ given later ++ lost

section HandedOver

variable {socket : Sender (τ × Traffic)} {calls ks : Binding.Trace (τ × Traffic) α}
variable {t t' : Traffic} {lost lost' : Bytes}

theorem HandedOver.more (ho : HandedOver socket o calls t lost)
    (hks : ∀ k ∈ ks, OnWebSocket next k) (hsent : t'.sent = t.sent ++ sent socket ks)
    (hreceived : t'.received = t.received) (hlost : lost = given ks ++ lost') :
    HandedOver socket o (calls ++ ks) t' lost' := by
  obtain ⟨front, hand, clean, greet, later, hcalls, hrelay, hs, hr⟩ := ho
  refine ⟨front, hand, clean, greet, later ++ ks, by rw [hcalls, List.append_assoc],
    { hrelay with later := fun k hk => ?_ }, ?_, ?_⟩
  · rcases List.mem_append.1 hk with hk | hk
    · exact hrelay.later k hk
    · exact hks k hk
  · rw [hsent, hs, sent_append, List.append_assoc]
  · rw [hreceived, hr, hlost, given_append]
    simp only [List.append_assoc]

/-- It is done once the fresh session is told. -/
theorem HandedOver.start {front : Binding.Trace (τ × Traffic) α}
    {hand clean : Binding.Call (τ × Traffic) α} {g : Binding.Turn α}
    (hfront : ∀ k ∈ front, OnHttp service k ∧ k.reason ≠ .cleanup)
    (hhand : OnHttp service hand ∧ hand.reason = .takeLeftover)
    (hclean : OnHttp service clean ∧ clean.reason = .cleanup)
    (hfresh : g.session = .webSocket next (.new next)) (hsent : t.sent = o.output)
    (hreceived : t.received = o.bytes ++ lost) :
    HandedOver socket o (front ++ [hand, clean] ++ [⟨.ready, g, ready g⟩]) t lost :=
  ⟨front, hand, clean, ⟨.ready, g, ready g⟩, [], by simp,
    ⟨hfront, hhand, hclean, hfresh, ⟨rfl, rfl⟩, by simp⟩, by simpa [sent] using hsent,
    by simpa [given] using hreceived⟩

theorem HandedOver.receive (ho : HandedOver socket o calls t lost) (more : Bytes) :
    HandedOver socket o calls { t with received := t.received ++ more } (lost ++ more) := by
  obtain ⟨front, hand, clean, greet, later, hcalls, hrelay, hs, hr⟩ := ho
  exact ⟨front, hand, clean, greet, later, hcalls, hrelay, hs,
    by rw [hr, List.append_assoc _ lost more]⟩

end HandedOver

/-- There is no other session than the WebSocket session any more. As long as the connection is
open, `due` is what that session is still to be given. -/
structure Over (h : Host τ (Binding α) α (Successor α)) (o : Http.Opening service (.webSocket next))
    (due : Bytes) (c : Traced (τ × Traffic) α) : Prop where
  past : ∃ lost, HandedOver h.observed.socket.toSender o c.trace c.io.2 lost ∧
    (c.phase = .open → lost = due)
  stays : c.ctx.transition = none
  webSocket : ∀ b ∈ c.session,
    (c.phase = .open ∨ c.phase = .halfClosed) ∧ ∃ l, b = .webSocket next l
  present : c.phase = .open → c.session.isSome

/-- The same between two events. -/
structure Behind (h : Host τ (Binding α) α (Successor α))
    (o : Http.Opening service (.webSocket next)) (due : Bytes) (c : Traced (τ × Traffic) α) : Prop
    extends Over h o due c where
  unclosed : ∀ b ∈ c.session, c.ctx.close = false

section Behind

variable {due due' : Bytes}

theorem Over.of_eq (hc : Over h o due c) (hphase : d.phase = c.phase)
    (hsession : d.session = c.session) (htrace : d.trace = c.trace) (htraffic : d.io.2 = c.io.2)
    (hstays : d.ctx.transition = c.ctx.transition) : Over h o due d := by
  obtain ⟨hpast, hnone, hweb, hpresent⟩ := hc
  constructor
  · rwa [htrace, htraffic, hphase]
  · rwa [hstays]
  · rwa [hsession, hphase]
  · rwa [hsession, hphase]

theorem Behind.of_eq (hc : Behind h o due c) (hphase : d.phase = c.phase)
    (hsession : d.session = c.session) (htrace : d.trace = c.trace) (htraffic : d.io.2 = c.io.2)
    (hstays : d.ctx.transition = c.ctx.transition) (hclose : d.ctx.close = c.ctx.close) :
    Behind h o due d :=
  ⟨hc.toOver.of_eq hphase hsession htrace htraffic hstays,
    fun b hb => hclose.trans (hc.unclosed b (hsession ▸ hb))⟩

/-- Once the connection is not open, nothing is due. -/
theorem Over.of_dead (hc : Over h o due c) (hdead : c.phase ≠ .open) (due' : Bytes) :
    Over h o due' c := by
  obtain ⟨lost, hpast, -⟩ := hc.past
  exact { hc with past := ⟨lost, hpast, fun hopen => absurd hopen hdead⟩ }

theorem sent_cleanup (socket : Sender τ) {ks : Binding.Trace τ α}
    (hks : ∀ k ∈ ks, k.reason = .cleanup) : sent socket ks = [] ∧ given ks = [] := by
  constructor
  all_goals
    refine List.flatMap_eq_nil_iff.2 fun k hk => ?_
    simp [sentBy, givenBy, hks k hk]

theorem Over.close (hh : Serves h) (hc : Over h o due c) (due' : Bytes) :
    Behind h o due' (c.close h.observed.traced) := by
  rcases close_cases hh.observed c with ⟨hphase, hsame⟩ | ⟨hphase, hsession, hctx, ks, htrace, hks⟩
  · rw [hsame]
    refine ⟨hc.of_dead (fun hopen => by simp [hopen] at hphase) due', fun b hb => ?_⟩
    rcases (hc.webSocket b hb).1 with hlive | hlive <;> simp [hlive] at hphase
  · obtain ⟨lost, hpast, -⟩ := hc.past
    obtain ⟨hsent, hgiven⟩ := sent_cleanup h.observed.socket.toSender
      fun k hk => (hks k hk).1
    refine ⟨⟨⟨lost, ?_, by simp [hphase]⟩, hctx ▸ hc.stays, by simp [hsession], by simp [hphase]⟩,
      by simp [hsession]⟩
    rw [htrace, io_close]
    exact hpast.more (fun k hk => (hc.webSocket _ (hks k hk).2).2) (by rw [hsent, List.append_nil])
      rfl (by rw [hgiven, List.nil_append])

theorem Over.settle (hh : Serves h) (hc : Over h o due c) :
    Behind h o due (c.settle h.observed.traced) := by
  unfold Connection.settle halfClose
  split
  · exact hc.close hh due
  rename_i hclose
  have hsettled : Over h o due { c with ctx := { c.ctx with shutdown := false } } :=
    hc.of_eq rfl rfl rfl rfl rfl
  have hnoted : Over h o due { c with
      ctx := { c.ctx with shutdown := false }
      desk := { c.desk with app := h.observed.traced.onHalfClose c.desk.app } } :=
    hc.of_eq rfl rfl rfl rfl rfl
  simp only
  split
  · split
    · exact hnoted.close hh due
    · rename_i io hio
      have htraffic : io.2 = c.io.2 := Socket.traffic_shutdownWrite c.io io hio
      obtain ⟨lost, hpast, -⟩ := hc.past
      exact ⟨⟨⟨lost, htraffic ▸ hpast, nofun⟩, hc.stays,
        fun b hb => ⟨.inr rfl, (hc.webSocket b hb).2⟩, nofun⟩, fun _ _ => by simpa using hclose⟩
  · exact ⟨hsettled, fun _ _ => by simpa using hclose⟩

/-- A WebSocket session never asks for another protocol. -/
theorem Over.applyUpTo (hh : Serves h) (hc : Over h o due c) (n : Nat) :
    Behind h o due (c.applyUpTo h.observed.traced n) := by
  cases n with
  | zero => exact hc.settle hh
  | succ n =>
    unfold Connection.applyUpTo
    rw [hc.stays]
    split
    · exact hc.close hh due
    · exact hc.settle hh

theorem Over.apply (hh : Serves h) (hc : Over h o due c) :
    Behind h o due (c.apply h.observed.traced) :=
  hc.applyUpTo hh _

variable {l : WebSocket.Link} {r : Reason (τ × Traffic)} {u : Binding.Turn α} {io : τ × Traffic}

theorem Behind.unasked (hc : Behind h o due c) {b : Binding α} (hb : c.session = some b) :
    Unasked (⟨c.ctx, b, c.bare.desk⟩ : Binding.Turn α) :=
  ⟨fun _ _ => hc.stays, hc.unclosed b hb⟩

/-- Behind a call of the WebSocket session. -/
theorem Behind.called (hc : Behind h o due c) (due' : Bytes) (io : τ × Traffic)
    (hl : c.session = some (.webSocket next l)) (hu : ∃ l', u.session = .webSocket next l')
    (horderly : Orderly h.observed.socket.toSender
      ⟨r, ⟨c.ctx, .webSocket next l, c.bare.desk⟩, u⟩)
    (hsent : io.2.sent = c.io.2.sent ++ sentBy h.observed.socket.toSender
      ⟨r, ⟨c.ctx, .webSocket next l, c.bare.desk⟩, u⟩)
    (hreceived : io.2.received = c.io.2.received)
    (hgiven : givenBy ⟨r, ⟨c.ctx, .webSocket next l, c.bare.desk⟩, u⟩ = [] ∧ due' = due ∨
      c.phase = .open ∧ due = givenBy ⟨r, ⟨c.ctx, .webSocket next l, c.bare.desk⟩, u⟩ ++ due') :
    Over h o due' ({ c with io }.called r (.webSocket next l) u) := by
  obtain ⟨l', hl'⟩ := hu
  obtain ⟨lost, hpast, hlost⟩ := hc.past
  have hmodest := horderly.modest l' (by simp [hl'])
  refine ⟨?_, hmodest.stays, ?_, fun _ => rfl⟩
  · rw [trace_called]
    have hmore (lost' : Bytes)
        (hlost' : lost = given [⟨r, ⟨c.ctx, .webSocket next l, c.bare.desk⟩, u⟩] ++ lost') :
        HandedOver h.observed.socket.toSender o
          (c.trace ++ [⟨r, ⟨c.ctx, .webSocket next l, c.bare.desk⟩, u⟩]) io.2 lost' :=
      hpast.more (by simpa using ⟨l, rfl⟩) (by simpa [sent] using hsent) hreceived hlost'
    rcases hgiven with ⟨hnone, rfl⟩ | ⟨hopen, hdue⟩
    · exact ⟨lost, hmore lost (by simp [given, hnone]), hlost⟩
    · exact ⟨due', hmore due' (by simpa [given, hdue] using hlost hopen), fun _ => rfl⟩
  · rintro b ⟨⟩
    exact ⟨(hc.webSocket _ hl).1, l', hl'⟩

/-- A call of the WebSocket session, unless there is none any more. -/
theorem behind_callback (hh : Serves h) (hc : Behind h o due c)
    {f : Binding.Turn α → Binding.Turn α × Except Failure Unit}
    {next' : Traced (τ × Traffic) α → Traced (τ × Traffic) α}
    (hcall : ∀ l, c.session = some (.webSocket next l) →
      Over h o due' (c.called r (.webSocket next l) (f ⟨c.ctx, .webSocket next l, c.bare.desk⟩).1))
    (hnext : ∀ d, Over h o due' d → Behind h o due' (next' d)) :
    Behind h o due' (callback h.observed.traced
      (fun t => Prod.map (traceCall r t) id (f t.bare)) next' c) := by
  rcases hs : c.session with _ | b
  · rw [callback_none _ hs]
    have hdead : c.phase ≠ .open := fun hopen => by simpa [hs] using hc.present hopen
    exact ⟨hc.toOver.of_dead hdead due', hc.unclosed⟩
  · obtain ⟨-, l, rfl⟩ := hc.webSocket b hs
    have hover := hcall l hs
    rw [callback_called r h.observed hs f next']
    generalize f ⟨c.ctx, .webSocket next l, c.bare.desk⟩ = r' at hover ⊢
    obtain ⟨u, e | ⟨⟩⟩ := r'
    · exact hover.close hh due'
    · exact hnext _ hover

/-- Input that is due is given at once. -/
theorem behind_feed (hh : Serves h) {data : Bytes} (hc : Behind h o data c)
    {next' : Traced (τ × Traffic) α → Traced (τ × Traffic) α}
    (hnext : ∀ d, Over h o [] d → Behind h o [] (next' d)) :
    Behind h o [] (feed h.observed.traced data next' c) := by
  by_cases hdone : data.isEmpty ∨ c.phase ≠ .open
  · rw [feed_of_done _ hdone]
    rcases hdone with hnone | hdead
    · rw [List.isEmpty_iff] at hnone
      exact hnone ▸ hc
    · exact ⟨hc.toOver.of_dead hdead [], hc.unclosed⟩
  rw [not_or, not_not, List.isEmpty_iff] at hdone
  rw [feed_traced hh.observed _ hdone.1 hdone.2]
  refine behind_callback hh hc (r := .read data) (f := (Binding.read · data)) (fun l hl => ?_) hnext
  exact hc.called [] c.io hl ⟨_, rfl⟩ (orderly_read (hc.unasked hl) data)
    (List.append_nil _).symm rfl (.inr ⟨hdone.2, (List.append_nil _).symm⟩)

theorem behind_resume (hh : Serves h) {leftover : Bytes} (hc : Behind h o leftover c)
    {next' : Traced (τ × Traffic) α → Traced (τ × Traffic) α}
    (hnext : ∀ d, Over h o [] d → Behind h o [] (next' d)) :
    Behind h o [] (c.resume h.observed.traced next' leftover) := by
  unfold resume
  split
  · rename_i hdone
    rw [← feed_of_done next' hdone]
    exact behind_feed hh hc hnext
  · exact behind_feed hh hc hnext

theorem behind_onWakeup (hh : Serves h) (hc : Behind h o [] c) :
    Behind h o [] (c.onWakeup h.observed.traced) := by
  have hbox (b : Outbox) : Behind h o [] (c.setOutbox b) := hc.of_eq rfl rfl rfl rfl rfl rfl
  unfold onWakeup
  split
  · exact hbox _
  · exact hbox _
  rename_i b items _ _
  refine behind_callback hh (hbox b) (r := .wakeup items)
    (f := fun t => (Binding.wakeup t items, .ok ())) (fun l hl => ?_) fun d hd => hd.apply hh
  exact (hbox b).called [] c.io hl ⟨_, rfl⟩ (orderly_wakeup ((hbox b).unasked hl) items)
    (List.append_nil _).symm rfl (.inl ⟨rfl, rfl⟩)

theorem behind_stop (hh : Serves h) (hc : Behind h o [] c) :
    Behind h o [] (callback h.observed.traced h.observed.traced.protocol.stop
      (Connection.apply h.observed.traced) c) := by
  refine behind_callback hh hc (r := .stop) (f := fun t => (Binding.stop t, .ok ()))
    (fun l hl => ?_) fun d hd => hd.apply hh
  exact hc.called [] c.io hl ⟨_, rfl⟩ (orderly_stop (hc.unasked hl))
    (List.append_nil _).symm rfl (.inl ⟨rfl, rfl⟩)

theorem behind_onStop (hh : Serves h) (hc : Behind h o [] c) :
    Behind h o [] (c.onStop h.observed.traced) := by
  have hc : Behind h o [] { c with ctx := { c.ctx with stopping := true } } :=
    hc.of_eq rfl rfl rfl rfl rfl rfl
  unfold onStop
  simp only
  split
  · exact behind_stop hh hc
  · exact hc

/-- What comes in is due, or lost. -/
theorem Behind.receive (hc : Behind h o due c) {more : Bytes}
    (htraffic : io.2 = { c.io.2 with received := c.io.2.received ++ more }) :
    Behind h o (due ++ more) { c with io } := by
  obtain ⟨lost, hpast, hlost⟩ := hc.past
  refine ⟨⟨⟨lost ++ more, ?_, fun hopen => by rw [hlost hopen]⟩, hc.stays, hc.webSocket,
    hc.present⟩, hc.unclosed⟩
  exact htraffic ▸ hpast.receive more

theorem behind_onReadable (hh : Serves h) (hc : Behind h o [] c) :
    Behind h o [] (c.onReadable h.observed.traced) := by
  have htraffic := traffic_recv h c.io
  unfold onReadable
  by_cases hhalf : c.phase = .halfClosed
  · rw [if_pos hhalf]
    obtain ⟨more, hdrain⟩ := traffic_drain h (h.observed.traced.socket.backlog c.io) c.io
    exact (hc.receive hdrain).toOver.close hh []
  rw [if_neg hhalf]
  rcases hrecv : h.observed.traced.socket.recv c.io h.observed.traced.recvBuffer with
    ⟨io, ⟨_ | ⟨b, bs⟩⟩ | fault⟩
  all_goals simp only [hrecv] at htraffic ⊢
  · exact (hc.receive htraffic).toOver.close hh []
  · exact behind_feed hh (hc.receive htraffic) fun d hd => hd.apply hh
  · have hsame : Behind h o [] { c with io } := hc.of_eq rfl rfl rfl htraffic rfl rfl
    split
    · exact hsame
    · exact hsame.toOver.close hh []

/-- What the WebSocket session sends goes over the socket, and nothing else does. -/
theorem traffic_send (hh : Serves h) {t : Binding.Turn α} {s : WebSocket.Service α}
    (ht : t.session = .webSocket s l) (io : τ × Traffic) :
    let r := send t h.observed.socket.toSender io
    r.2.1.2.sent = io.2.sent ++ sentBy h.observed.socket.toSender ⟨.write io, t, r.1⟩ ∧
      r.2.1.2.received = io.2.received := by
  have hio : (send t h.observed.socket.toSender io).2.1 =
      (WebSocket.Link.write (t.around l) h.observed.socket.toSender io).2.1 := by
    unfold send
    simp only [write, ht]
    rcases WebSocket.Link.write (t.around l) h.observed.socket.toSender io with
      ⟨u, io', e | ⟨⟨⟩ | ⟨⟩⟩⟩ <;> rfl
  obtain ⟨hout, hwrite⟩ := WebSocket.Link.write_eq (t.around l) h.observed.socket.toSender io
  have htaken := WebSocket.Link.taken_append_out hh.observed.honest (t.around l) io
  have hlogs := sendChain_logs (Socket.logs_recorded hh.honest) io l.session.out t.ctx.maxIovec
  refine ⟨?_, received_send h t io⟩
  rw [hio, hwrite]
  simp only [sentBy, ht]
  rw [hout] at htaken
  refine List.append_cancel_right (hlogs.trans ?_)
  rw [List.append_assoc]
  exact congrArg (io.2.sent ++ ·) htaken.symm

theorem behind_onWritable (hh : Serves h) (hc : Behind h o [] c) :
    Behind h o [] (c.onWritable h.observed.traced) := by
  unfold onWritable
  split
  · exact hc.of_eq rfl rfl rfl rfl rfl rfl
  rename_i b hb
  obtain ⟨-, l, rfl⟩ := hc.webSocket b hb
  obtain ⟨hsent, hreceived⟩ := traffic_send hh
    (t := ⟨c.ctx, .webSocket next l, c.bare.desk⟩) rfl c.io
  have horderly := orderly_send hh.observed.honest (hc.unasked hb) c.io
  have hsession : ∃ l', (send ⟨c.ctx, .webSocket next l, c.bare.desk⟩
      h.observed.socket.toSender c.io).1.session = .webSocket next l' := by
    obtain ⟨tx, hsend⟩ := send_eq ⟨c.ctx, .webSocket next l, c.bare.desk⟩
      h.observed.socket.toSender c.io
    rw [hsend]
    exact ⟨_, rfl⟩
  have hcalled := hc.called [] _ hb hsession horderly hsent hreceived (.inl ⟨rfl, rfl⟩)
  have hwrite : h.observed.traced.protocol.write ⟨c.ctx, .webSocket next l, c.desk⟩ c.io =
      Prod.map (traceCall (.write c.io) ⟨c.ctx, .webSocket next l, c.desk⟩) id
        (send ⟨c.ctx, .webSocket next l, c.bare.desk⟩ h.observed.socket.toSender c.io) := rfl
  rw [hwrite]
  generalize send ⟨c.ctx, .webSocket next l, c.bare.desk⟩ h.observed.socket.toSender c.io = r
    at hcalled ⊢
  obtain ⟨u, io, e | status⟩ := r
  · exact hcalled.close hh []
  · exact hcalled.apply hh

end Behind

/-! ### The hand-over itself -/

/-- A fresh WebSocket session takes its place and is told. -/
theorem behind_install (hh : Serves h) {due : Bytes} {front : Binding.Trace (τ × Traffic) α}
    {hand clean : Binding.Call (τ × Traffic) α} (htrace : c.trace = front ++ [hand, clean])
    (hfront : ∀ k ∈ front, OnHttp service k ∧ k.reason ≠ .cleanup)
    (hhand : OnHttp service hand ∧ hand.reason = .takeLeftover)
    (hclean : OnHttp service clean ∧ clean.reason = .cleanup) (hopen : c.phase = .open)
    (hstays : c.ctx.transition = none) (hsent : c.io.2.sent = o.output)
    (hreceived : c.io.2.received = o.bytes ++ due)
    {next' : Traced (τ × Traffic) α → Traced (τ × Traffic) α}
    (hnext : ∀ d, Over h o due d → Behind h o due (next' d)) :
    Behind h o due (c.install h.observed.traced next' (.webSocket next)) := by
  have hcallback := callback_called .ready h.observed
    (c := { c with
      ctx := { c.ctx with rx := true }, session := some (.webSocket next (.new next)) }) rfl
    (fun t => (ready t, .ok ())) next'
  rw [install_traced hh.observed]
  refine hcallback ▸ ?_
  have hpast : HandedOver h.observed.socket.toSender o _ c.io.2 due :=
    .start hfront hhand hclean rfl hsent hreceived
      (g := ⟨{ c.ctx with rx := true }, .webSocket next (.new next), c.bare.desk⟩)
  rw [← htrace] at hpast
  refine hnext _ ⟨⟨due, hpast, fun _ => rfl⟩, ?_, ?_, fun _ => rfl⟩
  · exact (WebSocket.Link.transition_eq (WebSocket.Link.asks_ready next _)).trans hstays
  · rintro b ⟨⟩
    exact ⟨.inl hopen, _, rfl⟩

/-- The old session gives away what it did not use and goes, and the new one is told and fed. -/
theorem behind_switch (hh : Serves h) {m : Http.Session (Successor α)} (hopen : c.phase = .open)
    (hm : c.session = some (.http service m)) (hstays : c.ctx.transition = none)
    (hcalls : ∀ k ∈ c.trace, OnHttp service k ∧ k.reason ≠ .cleanup)
    (hsent : c.io.2.sent = o.output) (hreceived : c.io.2.received = o.bytes ++ m.buffer)
    {next' : Traced (τ × Traffic) α → Traced (τ × Traffic) α}
    (hnext : ∀ due d, Over h o due d → Behind h o due (next' d)) :
    Behind h o [] (c.switch h.observed.traced next' (.webSocket next)) := by
  obtain ⟨d, hd⟩ : ∃ d, d = c.called .takeLeftover (.http service m)
    ⟨c.ctx, .http service { m with buffer := [] }, c.bare.desk⟩ := ⟨_, rfl⟩
  have hswitch : c.switch h.observed.traced next' (.webSocket next) =
      ((d.release h.observed.traced).install h.observed.traced next' (.webSocket next)).resume
        h.observed.traced next' m.buffer := by
    rw [hd]
    exact switch_eq hh.observed hm _ _
  rw [hswitch]
  refine behind_resume hh ?_ (hnext [])
  have htrace := trace_release hh.observed (c := d)
    (b := .http service { m with buffer := [] }) (hd ▸ rfl)
  obtain ⟨hctx, hphase⟩ := release_frame hh.observed d
  have hio := io_release h.observed.traced d
  generalize d.release h.observed.traced = g at htrace hctx hphase hio ⊢
  subst hd
  refine behind_install hh (by rw [htrace, trace_called, List.append_assoc]; rfl) hcalls
    ⟨⟨m, rfl⟩, rfl⟩ ⟨⟨_, rfl⟩, rfl⟩ (hphase.trans hopen) (hctx ▸ hstays) ?_ ?_ (hnext _)
  · rw [hio]
    exact hsent
  · rw [hio]
    exact hreceived

/-- The hand-over is carried out as soon as it is asked for. -/
theorem behind_apply (hh : Serves h) {m : Http.Session (Successor α)} (hopen : c.phase = .open)
    (hm : c.session = some (.http service m))
    (horders : c.ctx.orders = (false, false, some (.webSocket next)))
    (hcalls : ∀ k ∈ c.trace, OnHttp service k ∧ k.reason ≠ .cleanup)
    (hsent : c.io.2.sent = o.output) (hreceived : c.io.2.received = o.bytes ++ m.buffer) :
    Behind h o [] (c.apply h.observed.traced) := by
  simp only [Context.orders, Prod.mk.injEq] at horders
  obtain ⟨-, hclose, htransition⟩ := horders
  unfold Connection.apply Connection.applyUpTo
  simp only [hclose, htransition, Bool.false_eq_true, if_false]
  have hswitch := behind_switch hh (c := { c with ctx := { c.ctx with transition := none } })
    hopen hm rfl hcalls hsent hreceived fun _ _ hd => hd.applyUpTo hh h.observed.traced.further
  simpa [hclose] using hswitch.toOver.settle hh

/-- An HTTP session that sent all of its output lets go of the socket. -/
theorem send_http {σ : Type} (t : Binding.Turn α) {m : Http.Session (Successor α)}
    (ht : t.session = .http service m) (socket : Sender σ) (io : σ) :
    send t socket io = match Http.Session.write (t.around m) socket io with
      | (v, io, .ok .flushed) =>
        (Turn.wrap { v with ctx := { v.ctx with tx := false } } (.http service), io, .ok .flushed)
      | (v, io, result) => (v.wrap (.http service), io, result) := by
  simp only [send, write, ht]
  rcases Http.Session.write (t.around m) socket io with ⟨v, io', e | ⟨⟨⟩ | ⟨⟩⟩⟩ <;> rfl

/-- Sending goes on with the opening's answer, or ends it with the hand-over. -/
theorem before_onWritable (hh : Serves h) (hc : Before o c) (hopen : c.phase = .open) :
    Before o (c.onWritable h.observed.traced) ∨ Behind h o [] (c.onWritable h.observed.traced) := by
  obtain ⟨b, hb⟩ := Option.isSome_iff_exists.1 (hc.whole hopen).1
  obtain ⟨-, m, rfl⟩ := hc.http b hb
  obtain ⟨known, hcalm, hknown⟩ := hc.calm m hb
  rw [hknown hopen] at hcalm
  have hlogs : h.observed.socket.toSender.Logs fun io => io.2.sent := Socket.logs_recorded hh.honest
  obtain ⟨hpast, hwritten⟩ := hcalm.write hlogs
  have hsend := send_http (⟨c.ctx, .http service m, c.bare.desk⟩ : Binding.Turn α) rfl
    h.observed.socket.toSender c.io
  have hreceived := received_send h (⟨c.ctx, .http service m, c.bare.desk⟩ : Binding.Turn α) c.io
  have hwrite : h.observed.traced.protocol.write ⟨c.ctx, .http service m, c.desk⟩ c.io =
      Prod.map (traceCall (.write c.io) ⟨c.ctx, .http service m, c.desk⟩) id
        (send ⟨c.ctx, .http service m, c.bare.desk⟩ h.observed.socket.toSender c.io) := rfl
  unfold onWritable
  simp only [hb]
  rw [hwrite]
  rw [hsend] at hreceived ⊢
  simp only [Turn.around] at hreceived ⊢
  generalize Http.Session.write ⟨c.ctx, m, c.bare.desk⟩ h.observed.socket.toSender c.io = r
    at hpast hwritten hreceived ⊢
  obtain ⟨v, io, result⟩ := r
  cases hwritten with
  | failed e => exact .inl (Unswitched.close hh (hc.called (.write c.io) io hb hpast))
  | pending hcalm' =>
    have hbefore := hc.calmed (.write c.io) io hb hpast (by simp) io.2
      (hreceived ▸ hcalm') fun _ => rfl
    exact .inl (hbefore.apply rfl)
  | flushed hcalm' =>
    have hbefore := hc.calmed (.write c.io) io hb hpast (by simp) io.2
      (hreceived ▸ hcalm' false) fun _ => rfl
    exact .inl (hbefore.apply rfl)
  | done hsent hcame horders =>
    have hcalled := hc.called (.write c.io) io hb hpast
      (v := { v with ctx := { v.ctx with tx := false } })
    have huncleaned := hc.uncleaned (.write c.io) io hopen (by simp) (m := m)
      (v := { v with ctx := { v.ctx with tx := false } })
    exact .inr (behind_apply hh hopen rfl horders
      (fun k hk => ⟨hcalled.calls k hk, huncleaned k hk⟩) hsent (hreceived.trans hcame))

/-! ### Runs -/

theorem before_handle (hh : Serves h) (hc : Before o c) (now : Nat) (e : Event) {w : Bytes}
    (hfits : (c.handle h.observed.traced now e).io.2.received <+: o.bytes ++ w) :
    Before o (c.handle h.observed.traced now e) ∨
      Behind h o [] (c.handle h.observed.traced now e) := by
  have hnow : Before o { c with lastActive := now } := hc.of_eq rfl rfl rfl rfl rfl rfl
  unfold handle at hfits ⊢
  by_cases hpass : c.phase = .closed ∨ !c.awaits e
  · rw [if_pos hpass]
    exact .inl hc
  rw [if_neg hpass] at hfits ⊢
  cases e with
  | stop => exact .inl (before_onStop hh hc)
  | wakeup => exact .inl (before_onWakeup hc)
  | readable broken =>
    cases broken with
    | none => exact .inl (before_onReadable hh hnow hfits)
    | some fault => exact .inl (hc.close hh)
  | writable broken =>
    cases broken with
    | none =>
      have hopen : c.phase = .open := by
        simp only [awaits, not_or, Bool.not_eq_true', Bool.not_eq_false, Bool.and_eq_true,
          decide_eq_true_iff] at hpass
        exact hpass.2.2
      exact before_onWritable hh hnow hopen
    | some fault => exact .inl (hc.close hh)
  | idle => exact .inl (hc.close hh)

theorem behind_handle (hh : Serves h) (hc : Behind h o [] c) (now : Nat) (e : Event) :
    Behind h o [] (c.handle h.observed.traced now e) := by
  have hnow : Behind h o [] { c with lastActive := now } := hc.of_eq rfl rfl rfl rfl rfl rfl
  unfold handle
  split
  · exact hc
  cases e with
  | stop => exact behind_onStop hh hc
  | wakeup => exact behind_onWakeup hh hc
  | readable broken =>
    cases broken with
    | none => exact behind_onReadable hh hnow
    | some fault => exact hc.toOver.close hh []
  | writable broken =>
    cases broken with
    | none => exact behind_onWritable hh hnow
    | some fault => exact hc.toOver.close hh []
  | idle => exact hc.toOver.close hh []

theorem before_start (o : Http.Opening service (.webSocket next))
    (h : Host τ (Binding α) α (Successor α)) (maxIovec : Nat) (stopping : Bool) (app : α) (io : τ)
    (now : Nat) : Before o (start h.observed.traced { maxIovec, stopping } (.new (.http service))
      (app, []) (io, {}) now) := by
  have hfresh : Before o ({
      ctx := { maxIovec, stopping }, session := some (.new (.http service))
      desk := { app := h.observed.traced.onOpen { maxIovec, stopping } (app, []) }
      io := (io, {}), lastActive := now } : Traced (τ × Traffic) α) := by
    refine ⟨⟨by simp [trace, Host.traced], List.nil_prefix, ?_⟩, ?_, fun _ => ⟨rfl, ?_⟩⟩
    · rintro b ⟨⟩
      exact ⟨.inl rfl, _, rfl⟩
    · rintro m ⟨⟩
      exact ⟨{}, ⟨.inl o.waiting_new, fun hout => absurd rfl hout, rfl⟩, fun _ => rfl⟩
    · simp [trace, Host.traced]
  refine before_callback (r := .ready) (f := fun t => (ready t, .ok ()))
    (fun b hb => (hfresh.http b hb).2) (fun _ => hfresh) fun m hm => ⟨⟨_, m, _⟩, rfl, ?_⟩
  obtain ⟨known, hcalm, hknown⟩ := hfresh.calm m hm
  have hbefore := hfresh.calmed .ready (io, {}) hm hfresh.sent nofun known hcalm hknown
  exact hbefore.apply rfl

theorem before_followAllObserved (hh : Serves h) (hc : Before o c ∨ Behind h o [] c)
    (xs : List (Happening τ α)) {w : Bytes}
    (hfits : (c.followAllObserved h xs).io.2.received <+: o.bytes ++ w) :
    Before o (c.followAllObserved h xs) ∨ Behind h o [] (c.followAllObserved h xs) := by
  induction xs generalizing c with
  | nil => exact hc
  | cons x xs ih =>
    refine ih ?_ hfits
    have hpast : (c.followObserved h x).io.2.received <+: o.bytes ++ w :=
      (received_followAllObserved h _ xs).trans hfits
    cases x with
    | event now e =>
      rcases hc with hc | hc
      · exact before_handle hh hc now e hpast
      · exact .inr (behind_handle hh hc now e)
    | outside io desk =>
      rcases hc with hc | hc
      · exact .inl (hc.of_eq rfl rfl rfl rfl rfl rfl)
      · exact .inr (hc.of_eq rfl rfl rfl rfl rfl rfl)

/-- There was no hand-over. As long as the connection is open, the answer to the opening is not
out, and once the opening is in, the answer waits for the socket and what came behind the opening
is kept. -/
structure NotSwitched (o : Http.Opening service (.webSocket next)) (c : Traced (τ × Traffic) α) :
    Prop where
  calls : ∀ k ∈ c.trace, OnHttp service k
  sent : c.io.2.sent <+: o.output
  unanswered : c.phase = .open → c.io.2.sent ≠ o.output
  kept : c.phase = .open → o.bytes <+: c.io.2.received →
    c.ctx.tx ∧ ∃ m, c.session = some (.http service m) ∧ c.io.2.received = o.bytes ++ m.buffer

/-- There was a hand-over. First the answer to the opening was sent, and then what the WebSocket
session sends. As long as the connection is open, the WebSocket session was given all that came in
behind the opening. -/
structure Switched (h : Host τ (Binding α) α (Successor α))
    (o : Http.Opening service (.webSocket next)) (c : Traced (τ × Traffic) α) : Prop where
  order : ∃ front hand clean greet later, c.trace = front ++ [hand, clean, greet] ++ later ∧
    Relay service next front hand clean greet later
  sent : c.io.2.sent = o.output ++ Binding.sent h.observed.socket.toSender c.trace
  given : c.phase = .open → c.io.2.received = o.bytes ++ Binding.given c.trace

/-- The HTTP session has no part in what the WebSocket session sends and is given. -/
theorem sent_of_onHttp (socket : Sender τ) {ks : Binding.Trace τ α}
    (hks : ∀ k ∈ ks, OnHttp service k) : sent socket ks = [] ∧ given ks = [] := by
  constructor
  all_goals
    refine List.flatMap_eq_nil_iff.2 fun k hk => ?_
    obtain ⟨m, hm⟩ := hks k hk
    simp only [sentBy, givenBy, hm]
    split <;> first | rfl | contradiction

theorem Before.notSwitched (hc : Before o c) : NotSwitched o c := by
  have hcalm (hopen : c.phase = .open) : ∃ m, c.session = some (.http service m) ∧
      o.Calm c.io.2.received c.io.2.sent ⟨c.ctx, m, c.bare.desk⟩ := by
    obtain ⟨b, hb⟩ := Option.isSome_iff_exists.1 (hc.whole hopen).1
    obtain ⟨-, m, rfl⟩ := hc.http b hb
    obtain ⟨known, hcalm, hknown⟩ := hc.calm m hb
    exact ⟨m, hb, hknown hopen ▸ hcalm⟩
  refine ⟨hc.calls, hc.sent, fun hopen => ?_, fun hopen hwhole => ?_⟩
  · obtain ⟨m, -, hcalm⟩ := hcalm hopen
    exact hcalm.stands.sent_ne
  · obtain ⟨m, hm, hcalm⟩ := hcalm hopen
    obtain ⟨hwaits, hkept⟩ := hcalm.stands.answered hwhole
    exact ⟨hcalm.armed hwaits, m, hm, hkept⟩

/-- Only what comes later has a part in what the WebSocket session sends and is given. -/
theorem sent_of_relay (socket : Sender τ) {front later : Binding.Trace τ α}
    {hand clean greet : Binding.Call τ α} (hrelay : Relay service next front hand clean greet later) :
    sent socket (front ++ [hand, clean, greet] ++ later) = sent socket later ∧
      given (front ++ [hand, clean, greet] ++ later) = given later := by
  have hhttp : ∀ k ∈ front ++ [hand, clean], OnHttp service k := by
    intro k hk
    simp only [List.mem_append, List.mem_cons, List.not_mem_nil, or_false] at hk
    rcases hk with hk | rfl | rfl
    · exact (hrelay.front k hk).1
    · exact hrelay.hand.1
    · exact hrelay.clean.1
  obtain ⟨hsent, hgiven⟩ := sent_of_onHttp socket hhttp
  have hgreet : sentBy socket greet = [] ∧ givenBy greet = [] := by
    simp [sentBy, givenBy, hrelay.greet.1]
  have hsplit : front ++ [hand, clean, greet] ++ later =
      front ++ [hand, clean] ++ ([greet] ++ later) := by simp
  rw [hsplit, sent_append, given_append, hsent, hgiven]
  simp [sent, given, hgreet]

theorem Behind.switched (hc : Behind h o [] c) : Switched h o c := by
  obtain ⟨lost, ⟨front, hand, clean, greet, later, htrace, hrelay, hsent, hreceived⟩, hlost⟩ :=
    hc.past
  obtain ⟨hs, hg⟩ := sent_of_relay h.observed.socket.toSender hrelay
  refine ⟨⟨front, hand, clean, greet, later, htrace, hrelay⟩, ?_, fun hopen => ?_⟩
  · rw [hsent, htrace, hs]
  · rw [hreceived, htrace, hg, hlost hopen, List.append_nil]

theorem Behind.given_prefix (hc : Behind h o [] c) {w : Bytes}
    (hfits : c.io.2.received <+: o.bytes ++ w) : given c.trace <+: w := by
  obtain ⟨lost, ⟨front, hand, clean, greet, later, htrace, hrelay, -, hreceived⟩, -⟩ := hc.past
  rw [htrace, (sent_of_relay h.observed.socket.toSender hrelay).2]
  rw [hreceived, List.append_assoc, List.prefix_append_right_inj] at hfits
  exact (List.prefix_append _ _).trans hfits

/-- A connection opens with a request to go on with WebSocket, and `w` follows. However all this is
cut up, however the answer goes out and whatever else happens, WebSocket takes over in order and is
given what follows the request, each byte once. -/
theorem webSocket_takes_over (hh : Serves h) (o : Http.Opening service (.webSocket next))
    (maxIovec : Nat) (stopping : Bool) (app : α) (io : τ) (now : Nat) (xs : List (Happening τ α))
    (w : Bytes) :
    let c := (start h.observed.traced { maxIovec, stopping } (.new (.http service)) (app, [])
      (io, {}) now).followAllObserved h xs
    c.io.2.received <+: o.bytes ++ w →
      c.bare.unobserved =
        (start h { maxIovec, stopping } (.new (.http service)) app io now).followAll h xs ∧
      given c.trace <+: w ∧ (NotSwitched o c ∨ Switched h o c) := by
  intro c hfits
  have hstart := before_start o h maxIovec stopping app io now
  refine ⟨?_, ?_⟩
  · rw [unobserved_followAllObserved hh, unobserved_start hh]
  · rcases before_followAllObserved hh (.inl hstart) xs hfits with hc | hc
    · have hgiven := (sent_of_onHttp h.observed.socket.toSender hc.calls).2
      exact ⟨hgiven ▸ List.nil_prefix, .inl hc.notSwitched⟩
    · exact ⟨hc.given_prefix hfits, .inr hc.switched⟩

end Host

/-! A client that does not wait for the answer: its opening, which has a body, and its first frame
come in with one read. -/

namespace EagerClient

def chat : WebSocket.Service Unit where
  handler := .echo

def service : Http.Service Unit (Successor Unit) where
  handler app _ := .done app .ok
  upgrades := [.webSocket (.webSocket chat)]

def host : Host MemorySocket (Binding Unit) Unit (Successor Unit) where
  socket := MemorySocket.socket
  protocol := Binding.protocol MemorySocket.socket.toSender
  idleTimeout := 5000000000
  recvBuffer := 4096

def request : Bytes := Bytes.ofString ("GET /chat HTTP/1.1\r\nHost: h\r\nConnection: Upgrade\r\n" ++
  "Upgrade: websocket\r\nSec-WebSocket-Version: 13\r\n" ++
  "Sec-WebSocket-Key: dGhlIHNhbXBsZSBub25jZQ==\r\nContent-Length: 2\r\n\r\nok")

/-- A text in one frame, with a key of zeros. -/
def frame : Bytes := [0x81, 0x82, 0, 0, 0, 0, 0x68, 0x69]

/-- The head of the request. -/
def head : Http.RequestHead :=
  match (Http.RequestDecoder.decodeAll {} request).2.2.1 with
  | .head head _ :: _ => head
  | _ => default

def opening : Http.Opening service (.webSocket chat) where
  bytes := request
  head := head
  size := .length 2
  pieces := [Bytes.ofString "ok"]
  key := Bytes.ofString "dGhlIHNhbXBsZSBub25jZQ=="
  whole := ⟨(Http.RequestDecoder.decodeAll {} request).1, by decide +kernel⟩
  handled := ⟨[], [], rfl, by simp⟩
  asks := by decide +kernel
  accepted := by decide +kernel

/-- The opening and the frame are read at once, and then the answer goes out. -/
def run : Traced (MemorySocket × Traffic) Unit :=
  (start host.observed.traced {} (.new (.http service)) ((), [])
    ({ input := request ++ frame }, {}) 0).followAllObserved host
      [.event 0 (.readable none), .event 0 (.writable none)]

/-- The frame came in with the request and reaches the WebSocket session once the answer is out. -/
theorem webSocket_takes_over_one_read :
    given run.trace = frame ∧ Switched host opening run := by
  obtain ⟨hreceived, hopen, hsession⟩ : run.io.2.received = opening.bytes ++ frame ∧
      run.phase = .open ∧ (run.session.bind link?).isSome := by decide +kernel
  have hfits : run.io.2.received <+: opening.bytes ++ frame := hreceived ▸ List.prefix_rfl
  have hrun : run = (start host.observed.traced {} (.new (.http service)) ((), [])
      ({ input := request ++ frame }, {}) 0).followAllObserved host
        [.event 0 (.readable none), .event 0 (.writable none)] := rfl
  have hall := webSocket_takes_over (h := host) ⟨rfl, MemorySocket.honest⟩ opening 64 false ()
    { input := request ++ frame } 0 [.event 0 (.readable none), .event 0 (.writable none)] frame
  simp only [← hrun] at hall
  obtain ⟨-, -, hstage⟩ := hall hfits
  have hswitched : Switched host opening run := by
    refine hstage.resolve_left fun hwaits => ?_
    obtain ⟨-, m, hm, -⟩ := hwaits.kept hopen (hreceived ▸ List.prefix_append _ _)
    rw [show run.session = some (.http service m) from hm] at hsession
    cases hsession
  exact ⟨List.append_cancel_left ((hswitched.given hopen).symm.trans hreceived), hswitched⟩

end EagerClient

end Connection

end WireServer
