import WireServer.Proofs.Connection.Books
import WireServer.Proofs.Connection.Obliging

/-! What a closing connection leaves unsent. When the peer answers the close frame of a WebSocket
session, the connection closes at once. All that was queued has been sent then exactly if the close
frame was queued before that read and nothing waited for the socket any more; what waits is lost. -/

namespace WireServer.Connection

open Binding WebSocket

variable {τ α : Type}

/-- A traced connection of bound sessions. -/
abbrev Traced (τ α : Type) :=
  Connection τ (Binding α) (α × Binding.Trace τ α) (Successor α)

/-- The books behind some calls, with the session that the last of them left. -/
structure Balanced (socket : Net.Sender τ) (calls : Binding.Trace τ α) (t : Binding.Turn α) :
    Prop where
  books : sent socket calls ++ waiting t.session = queued calls
  /-- There was no WebSocket session before another one. -/
  first : t.session.link? = none → queued calls = []
  modest : ∀ l ∈ t.session.link?, Link.Modest (t.around l)

/-- No session made the connection close. -/
def Quiet (calls : Binding.Trace τ α) : Prop := ∀ c ∈ calls, ∀ l, ¬ Closes c l

/-- What is known of a call that made the connection close, and of the calls before it. -/
structure Told (socket : Net.Sender τ) (before : Binding.Trace τ α) (c : Binding.Call τ α)
    (l : Link) : Prop where
  books : sent socket before ++ waiting c.after.session = queued (before ++ [c])
  closed : ∃ l' ∈ c.after.session.link?, l'.session.standing = .closed
  closing : waiting c.after.session = [] ↔
    l.session.standing = .expectClose ∧ l.session.out.toBytes = []

/-- A call that made the connection close is known, and nothing was sent since. -/
def Past (socket : Net.Sender τ) (calls : Binding.Trace τ α) : Prop :=
  ∀ before c l, before ++ [c] <+: calls → Closes c l →
    Told socket before c l ∧ sent socket calls = sent socket before

variable {socket : Net.Sender τ} {calls : Binding.Trace τ α} {k : Binding.Call τ α}

theorem Quiet.past (h : Quiet calls) : Past socket calls :=
  fun _ c l hfront hc => absurd hc (h c (hfront.subset (by simp)) l)

/-- Other sessions leave the books empty. -/
theorem Balanced.other {t : Binding.Turn α} (h : Balanced socket calls t)
    (ht : t.session.link? = none) : queued calls = [] ∧ sent socket calls = [] := by
  have hbooks := h.books
  rw [h.first ht, waiting_of_link? ht, List.append_nil] at hbooks
  exact ⟨h.first ht, hbooks⟩

theorem Balanced.call (h : Balanced socket calls k.before) (hk : Orderly socket k) :
    Balanced socket (calls ++ [k]) k.after := by
  refine ⟨?_, fun hother => ?_, hk.modest⟩
  · rw [sent_concat, queued_concat, List.append_assoc, ← hk.flow, ← List.append_assoc, h.books]
  · have hqueued : queuedBy k = [] := by
      unfold queuedBy
      rw [waiting_of_link? hother]
      split <;> simp
    rw [queued_concat, h.first (hk.kind hother), hqueued, List.append_nil]

/-- The last of the calls is the only one that can have made the connection close. -/
theorem past_call (hquiet : Quiet calls) (h : Balanced socket calls k.before)
    (hk : Orderly socket k) : Past socket (calls ++ [k]) := by
  intro before c l hfront hcloses
  rcases List.prefix_concat_iff.1 hfront with heq | hfront
  · obtain ⟨rfl, hlast⟩ := List.append_inj' heq rfl
    cases hlast
    obtain ⟨src, hread⟩ := hcloses.read
    have hsent : sentBy socket k = [] := by simp [sentBy, hread]
    have hbooks := (h.call hk).books
    rw [sent_concat, hsent, List.append_nil] at hbooks ⊢
    rcases hl : k.after.session.link? with _ | l'
    · cases (hk.kind hl).symm.trans hcloses.session
    have hclosed : ∃ l' ∈ k.after.session.link?, l'.session.standing = .closed :=
      ⟨l', hl, (hk.modest l' hl).closed hcloses.after⟩
    exact ⟨⟨hbooks, hclosed, hk.closing l hcloses⟩, rfl⟩
  · exact absurd hcloses (hquiet c (hfront.subset (by simp)) l)

theorem quiet_call (hquiet : Quiet calls) (hopen : k.after.ctx.close = false) :
    Quiet (calls ++ [k]) := by
  intro c hc l hcloses
  rcases List.mem_append.1 hc with hc | hc
  · exact hquiet c hc l hcloses
  · rw [List.mem_singleton.1 hc] at hcloses
    exact absurd hcloses.after (by simp [hopen])

/-- The session goes away, which is none of the calls that matter. -/
theorem past_cleanup (t : Binding.Turn α) (h : Past socket calls) :
    Past socket (calls ++ [⟨.cleanup, t, t⟩]) := by
  intro before c l hfront hcloses
  rcases List.prefix_concat_iff.1 hfront with heq | hfront
  · obtain ⟨-, hlast⟩ := List.append_inj' heq rfl
    cases hlast
    obtain ⟨src, hread⟩ := hcloses.read
    cases hread
  · obtain ⟨htold, hsame⟩ := h before c l hfront hcloses
    rw [sent_concat, hsame]
    exact ⟨htold, List.append_nil _⟩

/-- What holds of a traced connection behind a call, before its requests are carried out. -/
structure Kept (socket : Net.Sender τ) (c : Traced τ α) : Prop where
  live : ∀ b ∈ c.session, c.phase = .open ∨ c.phase = .halfClosed
  balanced : ∀ b ∈ c.session, Balanced socket c.trace ⟨c.ctx, b, c.bare.desk⟩
  quiet : ∀ b ∈ c.session, c.ctx.close = false → Quiet c.trace
  past : Past socket c.trace

/-- What holds of it between two events. -/
structure Rested (socket : Net.Sender τ) (c : Traced τ α) : Prop extends Kept socket c where
  unclosed : ∀ b ∈ c.session, c.ctx.close = false

section Rest

variable {c d : Traced τ α}

/-- Everything else can change. -/
theorem Kept.of_eq (h : Kept socket c) (hsession : d.session = c.session)
    (htrace : d.trace = c.trace) (hclose : d.ctx.close = c.ctx.close)
    (hstays : d.ctx.transition = c.ctx.transition)
    (hlive : ∀ b ∈ c.session, d.phase = .open ∨ d.phase = .halfClosed) : Kept socket d := by
  refine ⟨fun b hb => hlive b (hsession ▸ hb), fun b hb => ?_, fun b hb hopen => ?_, ?_⟩
  · rw [htrace]
    obtain ⟨hbooks, hfirst, hmodest⟩ := h.balanced b (hsession ▸ hb)
    exact ⟨hbooks, hfirst, fun l hl =>
      ⟨hstays.trans (hmodest l hl).stays, fun hc => (hmodest l hl).closed (hclose.symm.trans hc)⟩⟩
  · rw [htrace]
    exact h.quiet b (hsession ▸ hb) (hclose.symm.trans hopen)
  · rw [htrace]
    exact h.past

theorem Rested.of_eq (h : Rested socket c) (hsession : d.session = c.session)
    (htrace : d.trace = c.trace) (hclose : d.ctx.close = c.ctx.close)
    (hstays : d.ctx.transition = c.ctx.transition)
    (hlive : ∀ b ∈ c.session, d.phase = .open ∨ d.phase = .halfClosed) : Rested socket d :=
  ⟨h.toKept.of_eq hsession htrace hclose hstays hlive,
    fun b hb => hclose.trans (h.unclosed b (hsession ▸ hb))⟩

theorem Rested.of_none (hs : c.session = none) (hpast : Past socket c.trace) : Rested socket c :=
  ⟨⟨by simp [hs], by simp [hs], by simp [hs], hpast⟩, by simp [hs]⟩

theorem Kept.rested (h : Kept socket c) (hopen : c.ctx.close = false) : Rested socket c :=
  ⟨h, fun _ _ => hopen⟩

end Rest

/-! ### The connection -/

section Host

variable (h : Host τ (Binding α) α (Successor α))
variable {c : Traced τ α}

/-- A host for bound sessions, on a socket that takes no more than it is offered. -/
structure Serves : Prop where
  protocol : h.protocol = Binding.protocol h.socket.toSender
  honest : h.socket.toSender.Honest

variable {h}

theorem Serves.traced (hh : Serves h) :
    h.traced.protocol = (Binding.protocol h.socket.toSender).traced := by
  rw [← hh.protocol]
  rfl

/-- Behind an orderly call. -/
theorem Rested.call (hc : Rested socket c) {b : Binding α} (hb : c.session = some b) (r : Reason τ)
    {u : Binding.Turn α} (hu : Orderly socket ⟨r, ⟨c.ctx, b, c.bare.desk⟩, u⟩) :
    Kept socket (c.put (traceCall r ⟨c.ctx, b, c.desk⟩ u)) := by
  have hbalanced := hc.balanced b hb
  refine ⟨fun _ _ => hc.live b hb, fun b' hb' => ?_, fun _ _ hopen => ?_, ?_⟩
  · cases hb'
    exact hbalanced.call hu
  · exact quiet_call (hc.quiet b hb (hc.unclosed b hb)) hopen
  · exact past_call (hc.quiet b hb (hc.unclosed b hb)) hbalanced hu

theorem Rested.unasked (hc : Rested socket c) {b : Binding α} (hb : c.session = some b) :
    Unasked (⟨c.ctx, b, c.bare.desk⟩ : Binding.Turn α) :=
  ⟨fun l hl => ((hc.balanced b hb).modest l hl).stays, hc.unclosed b hb⟩

theorem session_release (h : Host τ (Binding α) α (Successor α)) (c : Traced τ α) :
    (c.release h.traced).session = none := by
  unfold release dismiss
  rcases hs : c.session with _ | b
  · exact hs
  · rfl

theorem cleanup_traced (hh : Serves h) (t : WireServer.Turn (Binding α) (α × Binding.Trace τ α) _) :
    h.traced.protocol.cleanup t = (traceCall .cleanup t t.bare, .ok ()) := by
  rw [hh.traced]
  rfl

theorem trace_release (hh : Serves h) {b : Binding α} (hb : c.session = some b) :
    (c.release h.traced).trace =
      c.trace ++ [⟨.cleanup, ⟨c.ctx, b, c.bare.desk⟩, ⟨c.ctx, b, c.bare.desk⟩⟩] := by
  unfold release dismiss
  simp only [hb, cleanup_traced hh]
  rfl

theorem release_frame (hh : Serves h) (c : Traced τ α) :
    (c.release h.traced).ctx = c.ctx ∧ (c.release h.traced).phase = c.phase := by
  unfold release dismiss
  rcases c.session with _ | b
  · exact ⟨rfl, rfl⟩
  · refine ⟨?_, rfl⟩
    simp only [cleanup_traced hh]
    rfl

theorem past_release (hh : Serves h) (hc : Past socket c.trace) :
    Past socket (c.release h.traced).trace := by
  rcases hs : c.session with _ | b
  · have hsame : c.release h.traced = c := by simp [release, dismiss, hs]
    rw [hsame]
    exact hc
  · rw [trace_release hh hs]
    exact past_cleanup _ hc

theorem rested_close (hh : Serves h) (hc : Kept socket c) : Rested socket (c.close h.traced) := by
  unfold close
  by_cases hp : c.phase = .closing ∨ c.phase = .closed
  · rw [if_pos hp]
    refine ⟨hc, fun b hb => ?_⟩
    rcases hc.live b hb with h | h <;> simp [h] at hp
  · rw [if_neg hp]
    refine .of_none (session_release h _) ?_
    exact past_release hh (c := { c with phase := .closing }.setOutbox c.desk.outbox.shut) hc.past

theorem rested_callback (hh : Serves h) (hc : Rested socket c) (r : Reason τ)
    {f : Binding.Turn α → Binding.Turn α × Except Failure Unit}
    (hf : ∀ b, c.session = some b → Orderly socket
      ⟨r, ⟨c.ctx, b, c.bare.desk⟩, (f ⟨c.ctx, b, c.bare.desk⟩).1⟩)
    {next : Traced τ α → Traced τ α} (hnext : ∀ d, Kept socket d → Rested socket (next d)) :
    Rested socket (callback h.traced
      (fun t => Prod.map (traceCall r t) id (f t.bare)) next c) := by
  unfold callback
  rcases hs : c.session with _ | b
  · exact hc
  have hkept := hc.call hs r (hf b hs)
  rw [show (⟨c.ctx, b, c.bare.desk⟩ : Binding.Turn α) =
    (⟨c.ctx, b, c.desk⟩ : WireServer.Turn _ _ _).bare from rfl] at hkept
  simp only [Prod.map]
  generalize f (Turn.bare ⟨c.ctx, b, c.desk⟩) = r' at hkept ⊢
  obtain ⟨u, e | ⟨⟩⟩ := r'
  · exact rested_close hh hkept
  · exact hnext _ hkept

theorem rested_halfClose (hh : Serves h) (hc : Rested socket c) :
    Rested socket (c.halfClose h.traced) := by
  have hc : Rested socket
      { c with desk := { c.desk with app := h.traced.onHalfClose c.desk.app } } :=
    hc.of_eq rfl rfl rfl rfl hc.live
  unfold halfClose
  dsimp only
  rcases h.traced.socket.shutdownWrite c.io with _ | io
  · exact rested_close hh hc.toKept
  · exact hc.of_eq rfl rfl rfl rfl fun _ _ => .inr rfl

theorem rested_settle (hh : Serves h) (hc : Kept socket c) : Rested socket (c.settle h.traced) := by
  unfold settle
  split
  · exact rested_close hh hc
  · rename_i hopen
    have hsettled : Rested socket { c with ctx := { c.ctx with shutdown := false } } :=
      (hc.rested (by simpa using hopen)).of_eq rfl rfl rfl rfl hc.live
    simp only
    split
    · exact rested_halfClose hh hsettled
    · exact hsettled

/-- Sessions use up their input in one call. -/
theorem feed_traced (hh : Serves h) {data : Bytes} (next : Traced τ α → Traced τ α)
    (hdata : data ≠ []) (hopen : c.phase = .open) :
    feed h.traced data next c =
      callback h.traced (fun t => Prod.map (traceCall (.read data) t) id (Binding.read t.bare data))
        next c := by
  have hread (t : WireServer.Turn (Binding α) (α × Binding.Trace τ α) (Successor α)) :
      h.traced.protocol.read t data = Prod.map (traceCall (.read data) t)
        (Except.map fun _ => data.length) (Binding.read t.bare data) := by
    rw [hh.traced]
    rfl
  rw [feed_eq_callback next (fun t used hused => ?_) hdata hopen]
  · congr 1
    funext t
    rw [hread]
    rcases Binding.read t.bare data with ⟨u, e | ⟨⟩⟩ <;> rfl
  · have hobliging := obliging_protocol (α := α) h.socket.toSender
    rw [hread] at hused
    exact hobliging.read t.bare data used hused

theorem rested_feed (hh : Serves h) (hc : Rested h.socket.toSender c) (data : Bytes)
    {next : Traced τ α → Traced τ α}
    (hnext : ∀ d, Kept h.socket.toSender d → Rested h.socket.toSender (next d)) :
    Rested h.socket.toSender (feed h.traced data next c) := by
  by_cases hdone : data.isEmpty ∨ c.phase ≠ .open
  · rw [feed_of_done next hdone]
    exact hc
  rw [not_or, not_not] at hdone
  rw [feed_traced hh next (by simpa using hdone.1) hdone.2]
  exact rested_callback hh hc (.read data) (f := (Binding.read · data))
    (fun b hb => orderly_read (hc.unasked hb) data) hnext

/-- No session refuses to come. -/
theorem install_traced (hh : Serves h) (next : Traced τ α → Traced τ α) (successor : Successor α) :
    c.install h.traced next successor =
      callback h.traced h.traced.protocol.ready next { c with
        ctx := { c.ctx with rx := true }, session := some (.new successor.toService) } := by
  have hbind : h.traced.protocol.bind successor ⟨c.ctx, (), c.desk⟩ =
      (⟨{ c.ctx with rx := true }, (), c.desk⟩, .ok (.new successor.toService)) := by
    rw [hh.traced]
    rfl
  unfold install
  rw [hbind]

/-- A fresh session takes its place where none is and no WebSocket session was. -/
theorem rested_install (hh : Serves h) (hopen : c.ctx.close = false)
    (hstays : c.ctx.transition = none) (hlive : c.phase = .open ∨ c.phase = .halfClosed)
    (hquiet : Quiet c.trace) (hqueued : queued c.trace = [])
    (hsent : sent h.socket.toSender c.trace = []) {next : Traced τ α → Traced τ α}
    (hnext : ∀ d, Kept h.socket.toSender d → Rested h.socket.toSender (next d))
    (successor : Successor α) :
    Rested h.socket.toSender (c.install h.traced next successor) := by
  rw [install_traced hh]
  have hwaiting : waiting (.new successor.toService : Binding α) = [] := by cases successor <;> rfl
  have hfresh : Rested h.socket.toSender { c with
      ctx := { c.ctx with rx := true }, session := some (.new successor.toService) } := by
    refine ⟨⟨fun _ _ => hlive, fun b hb => ?_, fun _ _ _ => hquiet, hquiet.past⟩, fun _ _ => hopen⟩
    cases hb
    have hbooks : sent h.socket.toSender c.trace ++ waiting (.new successor.toService : Binding α) =
        queued c.trace := by
      rw [hsent, hqueued, hwaiting, List.append_nil]
    exact ⟨hbooks, fun _ => hqueued, fun l hl => .of_open hstays hopen⟩
  refine rested_callback hh hfresh .ready (f := h.protocol.ready) (fun b hb => ?_) hnext
  rw [hh.protocol]
  cases hb
  exact orderly_ready (hfresh.unasked rfl) rfl

theorem rested_resume (hh : Serves h) (hc : Rested h.socket.toSender c)
    {next : Traced τ α → Traced τ α}
    (hnext : ∀ d, Kept h.socket.toSender d → Rested h.socket.toSender (next d)) (leftover : Bytes) :
    Rested h.socket.toSender (c.resume h.traced next leftover) := by
  unfold resume
  split
  · exact hc
  · exact rested_feed hh hc leftover hnext

theorem takeLeftover_other {t : Binding.Turn α} (ht : t.session.link? = none) :
    (takeLeftover t).1.session.link? = none ∧ (takeLeftover t).1.ctx = t.ctx := by
  cases hs : t.session with
  | http s m => simp [takeLeftover, hs, link?, Turn.wrap, Turn.around, Http.Session.takeLeftover,
      Turn.modify]
  | mqtt s m => simp [takeLeftover, hs, link?]
  | webSocket s l => simp [hs, link?] at ht

/-- The old session hands over and goes, the new one comes and goes on. -/
theorem switch_eq (hh : Serves h) {b : Binding α} (hb : c.session = some b)
    (next : Traced τ α → Traced τ α) (successor : Successor α) :
    c.switch h.traced next successor =
      let r := takeLeftover ⟨c.ctx, b, c.bare.desk⟩
      (((c.put (traceCall .takeLeftover ⟨c.ctx, b, c.desk⟩ r.1)).release h.traced).install h.traced
        next successor).resume h.traced next r.2 := by
  have htake : h.traced.protocol.takeLeftover ⟨c.ctx, b, c.desk⟩ =
      Prod.map (traceCall .takeLeftover ⟨c.ctx, b, c.desk⟩) id
        (takeLeftover ⟨c.ctx, b, c.bare.desk⟩) := by
    rw [hh.traced]
    rfl
  have hclean := dismiss_eq_release h.traced fun t => congrArg Prod.snd (cleanup_traced hh t)
  simp only [switch, hb, htake, hclean]
  rfl

theorem rested_switch (hh : Serves h) (hc : Rested h.socket.toSender c)
    (hother : ∀ b, c.session = some b → b.link? = none) (hstays : c.ctx.transition = none)
    {next : Traced τ α → Traced τ α}
    (hnext : ∀ d, Kept h.socket.toSender d → Rested h.socket.toSender (next d))
    (successor : Successor α) : Rested h.socket.toSender (c.switch h.traced next successor) := by
  rcases hs : c.session with _ | b
  · have hsame : c.switch h.traced next successor = c := by simp [switch, hs]
    rw [hsame]
    exact hc
  obtain ⟨hu, hctx⟩ := takeLeftover_other (t := ⟨c.ctx, b, c.bare.desk⟩) (hother b hs)
  have hput := hc.call hs .takeLeftover (.of_other (hother b hs) hu)
  rw [switch_eq hh hs]
  simp only
  generalize takeLeftover (⟨c.ctx, b, c.bare.desk⟩ : Binding.Turn α) = r at hu hctx hput
  generalize hd : c.put (traceCall .takeLeftover ⟨c.ctx, b, c.desk⟩ r.1) = d at hput
  have hsession : d.session = some r.1.session := hd ▸ rfl
  have hdctx : d.ctx = c.ctx := (hd ▸ rfl : d.ctx = r.1.ctx).trans hctx
  have hopen : d.ctx.close = false := (congrArg Context.close hdctx).trans (hc.unclosed b hs)
  obtain ⟨hqueued, hsent⟩ := (hput.balanced _ hsession).other hu
  have htrace := trace_release hh hsession
  have hrelease := release_frame hh d
  refine rested_resume hh (rested_install hh ?_ ?_ ?_ ?_ ?_ ?_ hnext _) hnext _
  · rw [hrelease.1, hopen]
  · rw [hrelease.1, hdctx, hstays]
  · rw [hrelease.2]
    exact hput.live _ hsession
  · rw [htrace]
    exact quiet_call (hput.quiet _ hsession hopen) hopen
  · rw [htrace, queued_concat, hqueued]
    simp [queuedBy]
  · rw [htrace, sent_concat, hsent]
    rfl

/-- A WebSocket session never asks for another protocol, so only the others are replaced. -/
theorem rested_applyUpTo (hh : Serves h) (n : Nat) (hc : Kept h.socket.toSender c) :
    Rested h.socket.toSender (c.applyUpTo h.traced n) := by
  induction n generalizing c with
  | zero => exact rested_settle hh hc
  | succ n ih =>
    unfold applyUpTo
    by_cases hclose : c.ctx.close
    · rw [if_pos hclose]
      exact rested_close hh hc
    rw [if_neg hclose]
    rcases htransition : c.ctx.transition with _ | successor
    · exact rested_settle hh hc
    have hopen : c.ctx.close = false := by simpa using hclose
    have hother (b : Binding α) (hb : c.session = some b) : b.link? = none := by
      rcases hl : b.link? with _ | l
      · rfl
      · cases (((hc.balanced b hb).modest l hl).stays).symm.trans htransition
    have hreset : Rested h.socket.toSender { c with ctx := { c.ctx with transition := none } } := by
      refine ⟨⟨hc.live, fun b hb => ?_, hc.quiet, hc.past⟩, fun _ _ => hopen⟩
      obtain ⟨hbooks, hfirst, -⟩ := hc.balanced b hb
      refine ⟨hbooks, hfirst, fun l hl => ?_⟩
      cases (hother b hb).symm.trans hl
    exact rested_settle hh (rested_switch hh hreset hother rfl (fun _ => ih) successor).toKept

theorem rested_apply (hh : Serves h) (hc : Kept h.socket.toSender c) :
    Rested h.socket.toSender (c.apply h.traced) :=
  rested_applyUpTo hh _ hc

theorem rested_onReadable (hh : Serves h) (hc : Rested h.socket.toSender c) :
    Rested h.socket.toSender (c.onReadable h.traced) := by
  have hio (io : τ) : Rested h.socket.toSender { c with io } := hc.of_eq rfl rfl rfl rfl hc.live
  unfold onReadable
  split
  · exact rested_close hh (hio _).toKept
  rcases h.traced.socket.recv c.io h.traced.recvBuffer with ⟨io, ⟨_ | ⟨b, bs⟩⟩ | fault⟩
  · exact rested_close hh (hio io).toKept
  · exact rested_feed hh (hio io) _ fun d => rested_apply hh
  · simp only
    split
    · exact hio io
    · exact rested_close hh (hio io).toKept

theorem rested_onWritable (hh : Serves h) (hc : Rested h.socket.toSender c) :
    Rested h.socket.toSender (c.onWritable h.traced) := by
  unfold onWritable
  rcases hs : c.session with _ | b
  · exact hc.of_eq hs.symm rfl rfl rfl hc.live
  have hkept := hc.call hs (.write c.io) (orderly_send hh.honest (hc.unasked hs) c.io)
  have hwrite : h.traced.protocol.write ⟨c.ctx, b, c.desk⟩ c.io =
      Prod.map (traceCall (.write c.io) ⟨c.ctx, b, c.desk⟩) id
        (send ⟨c.ctx, b, c.bare.desk⟩ h.socket.toSender c.io) := by
    rw [hh.traced]
    rfl
  simp only [hwrite]
  generalize send ⟨c.ctx, b, c.bare.desk⟩ h.socket.toSender c.io = r at hkept ⊢
  obtain ⟨u, io, e | status⟩ := r
  all_goals
    have hkept := hkept.of_eq (d := { c with io }.put
      (traceCall (.write c.io) ⟨c.ctx, b, c.desk⟩ u)) rfl rfl rfl rfl hkept.live
  · exact rested_close hh hkept
  · exact rested_apply hh hkept

theorem rested_onWakeup (hh : Serves h) (hc : Rested h.socket.toSender c) :
    Rested h.socket.toSender (c.onWakeup h.traced) := by
  have hbox (o : Outbox) : Rested h.socket.toSender (c.setOutbox o) :=
    hc.of_eq rfl rfl rfl rfl hc.live
  unfold onWakeup
  rcases c.desk.outbox.settle.take with ⟨o, _ | ⟨_ | ⟨item, items⟩⟩⟩
  · exact hbox o
  · exact hbox o
  · refine rested_callback hh (hbox o) (.wakeup (item :: items))
      (f := (h.protocol.wakeup · (item :: items))) (fun b hb => ?_) (fun d => rested_apply hh)
    rw [hh.protocol]
    exact orderly_wakeup ((hbox o).unasked hb) _

theorem rested_onStop (hh : Serves h) (hc : Rested h.socket.toSender c) :
    Rested h.socket.toSender (c.onStop h.traced) := by
  have hstopping : Rested h.socket.toSender { c with ctx := { c.ctx with stopping := true } } :=
    hc.of_eq rfl rfl rfl rfl hc.live
  unfold onStop
  simp only
  split
  · refine rested_callback hh hstopping .stop (f := h.protocol.stop) (fun b hb => ?_)
      (fun d => rested_apply hh)
    rw [hh.protocol]
    exact orderly_stop (hstopping.unasked hb)
  · exact hstopping

theorem rested_handle (hh : Serves h) (hc : Rested h.socket.toSender c) (now : Nat) (e : Event) :
    Rested h.socket.toSender (c.handle h.traced now e) := by
  have hnow : Rested h.socket.toSender { c with lastActive := now } :=
    hc.of_eq rfl rfl rfl rfl hc.live
  unfold handle
  split
  · exact hc
  cases e with
  | stop => exact rested_onStop hh hc
  | wakeup => exact rested_onWakeup hh hc
  | readable broken =>
    cases broken with
    | none => exact rested_onReadable hh hnow
    | some fault => exact rested_close hh hc.toKept
  | writable broken =>
    cases broken with
    | none => exact rested_onWritable hh hnow
    | some fault => exact rested_close hh hc.toKept
  | idle => exact rested_close hh hc.toKept

theorem quiet_nil : Quiet ([] : Binding.Trace τ α) := by simp [Quiet]

theorem rested_start (hh : Serves h) (maxIovec : Nat) (stopping : Bool) (s : Service α) (app : α)
    (io : τ) (now : Nat) : Rested h.socket.toSender
      (start h.traced { maxIovec, stopping } (.new s) (app, []) io now) := by
  have hwaiting : waiting (.new s) = [] := by cases s <;> rfl
  have hfresh : Rested h.socket.toSender ({
      ctx := { maxIovec, stopping }, session := some (.new s)
      desk := { app := h.traced.onOpen { maxIovec, stopping } (app, []) }
      io, lastActive := now } : Traced τ α) := by
    refine ⟨⟨fun _ _ => .inl rfl, fun b hb => ?_, fun _ _ _ => quiet_nil, quiet_nil.past⟩,
      fun _ _ => rfl⟩
    cases hb
    exact ⟨hwaiting, fun _ => rfl, fun l hl => .of_open rfl rfl⟩
  refine rested_callback hh hfresh .ready (f := h.protocol.ready) (fun b hb => ?_)
    (fun d => rested_apply hh)
  rw [hh.protocol]
  cases hb
  exact orderly_ready (hfresh.unasked rfl) rfl

theorem rested_followTraced (hh : Serves h) (hc : Rested h.socket.toSender c)
    (x : Happening τ α) : Rested h.socket.toSender (c.followTraced h x) := by
  cases x with
  | event now e => exact rested_handle hh hc now e
  | outside io desk =>
    have htrace : (c.followTraced h (.outside io desk)).trace = c.trace := rfl
    exact hc.of_eq rfl htrace rfl rfl hc.live

theorem rested_followAll (hh : Serves h) (hc : Rested h.socket.toSender c)
    (xs : List (Happening τ α)) : Rested h.socket.toSender (c.followAllTraced h xs) := by
  induction xs generalizing c with
  | nil => exact hc
  | cons x xs ih => exact ih (rested_followTraced hh hc x)

/-- When the peer answers the close frame of a WebSocket session, and the connection closes at once,
all that was queued has been sent exactly if the session had queued its close frame before that read
and nothing waited for the socket. What waits is never sent. -/
theorem all_sent_iff_of_closes (hh : Serves h) (maxIovec : Nat) (stopping : Bool) (s : Service α)
    (app : α) (io : τ) (now : Nat) (xs : List (Happening τ α)) :
    let c := (start h.traced { maxIovec, stopping } (.new s) (app, []) io now).followAllTraced h xs
    c.bare = (start h { maxIovec, stopping } (.new s) app io now).followAll h xs ∧
      ∀ before k l, before ++ [k] <+: c.trace → Closes k l →
        (∃ l' ∈ k.after.session.link?, l'.session.standing = .closed) ∧
        (sent h.socket.toSender before = queued (before ++ [k]) ↔
          l.session.standing = .expectClose ∧ l.session.out.toBytes = []) ∧
        sent h.socket.toSender before ++ waiting k.after.session = queued (before ++ [k]) ∧
        sent h.socket.toSender c.trace = sent h.socket.toSender before := by
  intro c
  refine ⟨?_, fun before k l hfront hcloses => ?_⟩
  · rw [bare_followAllTraced, bare_start]
  have hrested := rested_followAll hh (rested_start hh maxIovec stopping s app io now) xs
  obtain ⟨⟨hbooks, hclosed, hclosing⟩, hsame⟩ := hrested.past before k l hfront hcloses
  refine ⟨hclosed, ?_, hbooks, hsame⟩
  rw [← hbooks, ← hclosing, List.self_eq_append_right]

end Host

/-! A peer whose own close frame comes right behind its message, and a session that answers the
message with a text and a close frame. -/

namespace HastyPeer

def service : WebSocket.Service Unit where
  handler.onMessage _ _ _ :=
    .sendFrame (.new true .text) [0x62] fun _ => .close 1000 fun _ => .done () .ok

def host : Host Net.MemorySocket (Binding Unit) Unit (Successor Unit) where
  socket := Net.MemorySocket.socket
  protocol := Binding.protocol Net.MemorySocket.socket.toSender
  idleTimeout := 5000000000
  recvBuffer := 4096

def input : Bytes :=
  [0x81, 0x82, 0, 0, 0, 0, 0x68, 0x69, 0x88, 0x82, 0, 0, 0, 0, 0x03, 0xE8]

def run : Traced Net.MemorySocket Unit :=
  (start host.traced {} (.new (.webSocket service)) ((), []) { input } 0).followAllTraced host
    [.event 0 (.readable none)]

def before : Binding.Trace Net.MemorySocket Unit := run.trace.take 1

/-- The text and the close frame are queued, the socket takes whatever it is offered, and nothing
is sent. -/
theorem all_sent_iff_of_closes_same_read :
    ∃ k l, before ++ [k] <+: run.trace ∧ Closes k l ∧ l.session.standing = .connected ∧
      queued (before ++ [k]) = [0x81, 1, 0x62, 0x88, 2, 0x03, 0xE8] ∧
      sent Net.MemorySocket.socket.toSender run.trace = [] ∧
      sent Net.MemorySocket.socket.toSender before ≠ queued (before ++ [k]) := by
  have hall := (all_sent_iff_of_closes (h := host) ⟨rfl, Net.MemorySocket.honest⟩ 64 false
    (.webSocket service) () { input } 0 [.event 0 (.readable none)]).2
  have hfront : before ++ [run.trace.get ⟨1, by decide⟩] <+: run.trace :=
    ⟨[run.trace.get ⟨2, by decide⟩], rfl⟩
  have hcloses : Closes (run.trace.get ⟨1, by decide⟩) _ := ⟨⟨_, rfl⟩, rfl, rfl, rfl⟩
  obtain ⟨-, hiff, -, hsame⟩ := hall _ _ _ hfront hcloses
  refine ⟨_, _, hfront, hcloses, rfl, rfl, hsame.trans rfl, fun hsent => ?_⟩
  cases (hiff.1 hsent).1

end HastyPeer

end WireServer.Connection
