import WireServer.Proofs.Http.LastRequest

/-! When a session asks for a half-close. As long as the server does not stop, it does so just when
a response that ends the connection is shown: the flush that moves such a response out decides for
the end, and the end is asked for when everything is sent. -/

namespace WireServer.Http.Session

variable {α π τ : Type}

/-! ### While the buffer is decoded -/

/-- A request that is dispatched is not being read any more, and the end of the exchange is not
touched. -/
theorem dispatch_keeps (service : Service α π) (t : Turn α π) (r : Request) :
    (dispatch service t r).session.ending = t.session.ending ∧
      ∀ q ∈ (dispatch service t r).session.current, q ∈ t.session.current := by
  have hserve (u : Turn α π) (p : Pending π) :
      (serve service u p r).session.ending = u.session.ending ∧
        ∀ q ∈ (serve service u p r).session.current, q ∈ u.session.current := by
    unfold serve
    dsimp only
    split
    all_goals
      obtain ⟨pending, hcall⟩ := callHandler_eq service _ p.slot r
      rw [hcall]
      exact ⟨rfl, fun q hq => hq⟩
  unfold dispatch
  dsimp only
  split
  · exact hserve (t.modify fun s => { s with nextSlot := t.session.nextSlot + 1 }) _
  cases UpgradeHandler.ask service.upgradeChain r.head with
  | handled response next => exact ⟨rfl, fun q hq => hq⟩
  | ignore => exact hserve (t.modify fun s => { s with nextSlot := t.session.nextSlot + 1 }) _
  | unknown => exact ⟨rfl, nofun⟩
  | refused status => exact ⟨rfl, nofun⟩

theorem ending_handleEvent (service : Service α π) (t : Turn α π) (event : RequestEvent) :
    (handleEvent service t event).session.ending = t.session.ending := by
  match event with
  | .head head size =>
    obtain ⟨out, hstart⟩ := startRequest_reads t.session head size
    rw [handleEvent, Turn.modify, hstart]
  | .body (.chunk data) => rfl
  | .body .eof =>
    unfold handleEvent
    cases t.session.current with
    | none => rfl
    | some r => exact (dispatch_keeps service (t.modify fun s => { s with current := none }) r).1

theorem ending_processEvents (service : Service α π) (t : Turn α π) (n : Nat) :
    (processEvents service n t).session.ending = t.session.ending := by
  induction n generalizing t with
  | zero => rfl
  | succ n ih =>
    unfold processEvents
    split
    · rfl
    rcases t.session.decoder.decode t.session.buffer with ⟨d, buffer, e | _ | event⟩
    · rfl
    · rfl
    · exact (ih _).trans (ending_handleEvent service _ event)

/-! ### A response that closes -/

namespace Place

/-- The response is all there, and the connection ends behind it. -/
def closes : Place π → Bool
  | .answer p => p.isComplete && p.successor.isNone && !p.keepAlive
  | .interim => false

/-- The connection ends behind what is shown. -/
def closing (bs : List (Place π)) : Bool := (shown bs).any closes

theorem closes_of_passes {b : Place π} (h : b.passes) : b.closes = false := by
  cases b with
  | answer p =>
    simp only [passes, Pending.passes, Bool.and_eq_true] at h
    simp [closes, h.1.2]
  | interim => rfl

theorem closing_append {done : List (Place π)} (hdone : ∀ b ∈ done, b.passes)
    (rest : List (Place π)) : closing (done ++ rest) = closing rest := by
  rw [closing, shown_append hdone, List.any_append,
    List.any_eq_false.2 fun b hb => ne_true_of_eq_false (closes_of_passes (hdone b hb)),
    Bool.false_or, closing]

theorem closing_cons (b : Place π) (bs : List (Place π)) :
    closing (b :: bs) = (b.closes || (b.passes && closing bs)) := by
  rw [closing, shown, List.any_cons]
  cases b.passes <;> simp [closing]

/-- Output that has gone out before does not matter. -/
theorem closing_aheadFirst (c : Net.Chain) (ps : List (Pending π)) :
    closing ((Line.aheadFirst c ps).map .answer) = closing (ps.map .answer) := by
  cases ps with
  | nil => rfl
  | cons p ps =>
    rw [Line.aheadFirst, List.map_cons, List.map_cons, closing_cons, closing_cons]
    rfl

end Place

open Place (closing)

section Flush

variable {service : Service α π} {t : Turn α π} {s : Session π} {log : Log π} {sent : Bytes}
  {done : List (Place π)} {begun : Net.Chain} {p : Pending π}

/-- The flush decides for the end of the connection where a response closes. -/
theorem ending_flushFront (h : s.ending ≠ some .shutdown) (ps : List (Pending π)) :
    (s.flushFront ps).ending = some .shutdown ↔ closing (ps.map .answer) := by
  -- along the line: each response that leaves it passes
  induction ps generalizing s with
  | nil => exact iff_of_false h Bool.false_ne_true
  | cons p ps ih =>
    rw [flushFront, List.map_cons, Place.closing_cons]
    cases hcomplete : p.isComplete with
    | false => simp [Place.closes, Place.passes, Pending.passes, hcomplete, h]
    | true =>
      cases hsuccessor : p.successor with
      | some next => simp [Place.closes, Place.passes, Pending.passes, hcomplete, hsuccessor]
      | none =>
        cases hkeep : p.keepAlive with
        | false => simp [Place.closes, hcomplete, hsuccessor, hkeep]
        | true =>
          have hrest := ih (s := { s with out := s.out.append p.out }) h
          simpa [Place.closes, Place.passes, Pending.passes, hcomplete, hsuccessor, hkeep]
            using hrest

/-- A half-close is asked for, or will be once all output is sent. -/
def Leaving (t : Turn α π) : Prop := t.ctx.shutdown = true ∨ t.session.ending = some .shutdown

theorem leaving_finishIfSent (t : Turn α π) : Leaving (finishIfSent t) ↔ Leaving t := by
  unfold finishIfSent
  split
  · unfold finishUp
    rcases hending : t.session.ending with _ | _ | next <;>
      simp [Leaving, hending, Turn.shutdown, Turn.switchTo, Turn.modify]
  · exact Iff.rfl

theorem leaving_arm (t : Turn α π) : Leaving (arm t) ↔ Leaving t := by
  obtain ⟨tx, harm⟩ := arm_eq t
  rw [harm]
  exact leaving_finishIfSent t

theorem leaving_write (t : Turn α π) (socket : Net.Sender τ) (io : τ) :
    Leaving (write t socket io).1 ↔ Leaving (t.modify flushReady) := by
  rw [write_eq]
  exact leaving_finishIfSent _

/-- A flush of a line that shows these places. -/
theorem leaving_flushReady (hopen : ¬ Leaving t) (h : t.session.line.Shows log sent done begun) :
    Leaving (t.modify flushReady) ↔ closing log.places := by
  rw [Leaving, not_or] at hopen
  rw [h.places, Place.closing_append h.passed, Place.closing_aheadFirst,
    ← ending_flushFront hopen.2]
  exact or_iff_right hopen.1

theorem Flows.not_closing (h : s.Flows log sent) : closing log.places = false := by
  obtain ⟨done, begun, hshows, hrest⟩ := h.shown
  rw [hshows.places, Place.closing_append hshows.passed, Place.closing_aheadFirst]
  cases hpending : s.line.pending with
  | nil => rfl
  | cons p ps =>
    have hopen := (hrest p (by simp [hpending])).1
    simp [Place.closing_cons, Place.closes, Place.passes, Pending.passes, hopen]

theorem Over.closing_eq (h : s.Over log sent done p) :
    closing log.places = (Place.answer p).closes := by
  obtain ⟨ps, hplaces⟩ := h.ended.places
  have hpasses : (Place.answer p).passes = false := (Pending.isFinal_iff.1 h.ended.final).2
  rw [hplaces, Place.closing_append h.ended.passed, Place.closing_cons, hpasses, Bool.false_and,
    Bool.or_false]

end Flush

/-! ### One event -/

/-- A call of the connection's that is no stop. -/
def Event.IsCall : Event τ α π → Prop
  | .read _ | .wakeup _ | .write _ | .takeLeftover => True
  | .stop | .outside _ _ => False

section Events

variable {service : Service α π} {socket : Net.Sender τ} {t : Turn α π} {log : Log π}
  {sent : Bytes} {done : List (Place π)} {p : Pending π} {e : Event τ α π}

/-- Input that is kept for later, or thrown away, decides nothing. -/
theorem leaving_read_unserved (service : Service α π)
    (h : t.session.mode = .serving → t.session.accepting = false) (src : Bytes) :
    Leaving (read service t src) ↔ Leaving t := by
  unfold Session.read
  cases hmode : t.session.mode with
  | serving =>
    rw [h hmode]
    exact Iff.rfl
  | upgrading => exact Iff.rfl
  | failed => exact Iff.rfl

/-- Behind the last response, all events leave the decision as it is. -/
theorem Over.leaving_happen (h : t.session.Over log sent done p) (socket : Net.Sender τ)
    (hcall : e.IsCall) : Leaving (happen service socket t e) ↔ Leaving t := by
  have hempty : t.session.pending = [] := h.ended.empty
  cases e with
  | read src => exact leaving_read_unserved service (fun _ => h.refuses) src
  | wakeup items =>
    refine (leaving_arm _).trans ?_
    rw [Turn.modify, foldl_applyItem_of_unanswered hempty, flushReady_of_unanswered hempty]
  | write io =>
    refine (leaving_write t socket io).trans ?_
    rw [Turn.modify, h.flushReady]
  | stop => exact hcall.elim
  | takeLeftover => exact Iff.rfl
  | outside ctx desk => exact hcall.elim

/-- Up to there, the decision falls with the place that closes. -/
theorem Flows.leaving_happen (h : t.session.Flows log sent) (hopen : ¬ Leaving t)
    (socket : Net.Sender τ) (hcall : e.IsCall) :
    Leaving (happen service socket t e) ↔ closing (log ++ changes service t e).places := by
  obtain ⟨done, begun, hshows, -⟩ := h.shown
  have hnone (hleaves : Leaving (happen service socket t e) ↔ Leaving t)
      (hsame : changes service t e = []) :
      Leaving (happen service socket t e) ↔ closing (log ++ changes service t e).places := by
    rw [hsame, List.append_nil, h.not_closing]
    exact iff_of_false (fun hleaving => hopen (hleaves.1 hleaving)) Bool.false_ne_true
  cases e with
  | read src =>
    by_cases hserved : t.session.mode = .serving ∧ t.session.accepting = true
    · obtain ⟨hmode, haccepting⟩ := hserved
      let kept := t.modify fun s => { s with buffer := s.buffer ++ src }
      let served := processEvents service (2 * kept.session.buffer.length + 3) kept
      have hfollows := processEvents_follows service (2 * kept.session.buffer.length + 3) kept
        (hshows.ordered h.sound)
      obtain ⟨-, done', hshows'⟩ := hshows.follows h.sound hfollows
      obtain ⟨rx, hctx⟩ := ctx_processEvents service kept (2 * kept.session.buffer.length + 3)
      have hending := ending_processEvents service kept (2 * kept.session.buffer.length + 3)
      have hopen' : ¬ Leaving served := by
        rw [Leaving, hctx, hending]
        exact hopen
      simp only [happen, changes, Session.read, readChanges, hmode, haccepting, if_true, process]
      exact (leaving_arm _).trans (leaving_flushReady hopen' hshows')
    · have hrefuses (hmode : t.session.mode = .serving) : t.session.accepting = false := by
        simpa [hmode] using hserved
      exact hnone (leaving_read_unserved service hrefuses src)
        (read_unserved service hrefuses src).1
  | wakeup items =>
    obtain ⟨-, done', hshows'⟩ := hshows.follows h.sound (applyItems_follows t.session items)
    obtain ⟨pending, hitems⟩ := applyItems_eq t.session items
    have hopen' : ¬ Leaving (t.modify fun s => items.foldl applyItem s) := by
      rw [Leaving, Turn.modify, hitems]
      exact hopen
    exact (leaving_arm _).trans (leaving_flushReady hopen' hshows')
  | write io =>
    rw [show changes service t (.write io) = [] from rfl, List.append_nil]
    exact (leaving_write t socket io).trans (leaving_flushReady hopen hshows)
  | stop => exact hcall.elim
  | takeLeftover => exact hnone Iff.rfl rfl
  | outside ctx desk => exact hcall.elim

end Events

/-! ### Runs -/

/-- In the course of these events a half-close is asked for. -/
def asks (service : Service α π) (socket : Net.Sender τ) : Record α π → List (Event τ α π) → Bool
  | _, [] => false
  | r, e :: es =>
    let next := r.next service socket e
    next.turn.ctx.shutdown || asks service socket next es

/-- The session asks for a half-close in the course of these events, or it will once all output is
sent. -/
def HalfCloses (service : Service α π) (socket : Net.Sender τ) (r : Record α π)
    (es : List (Event τ α π)) : Prop :=
  asks service socket r es = true ∨
    (r.run service socket es).turn.session.ending = some .shutdown

/-- The server does not stop, and nobody but the session asks for a half-close. -/
structure Undisturbed (ctx : Context π) (es : List (Event τ α π)) : Prop where
  unstopped : .stop ∉ es
  unasked : ctx.shutdown = false
  outside : ∀ ctx desk, .outside ctx desk ∈ es → ctx.shutdown = false

/-- What holds of a session all along, of which a half-close was `asked` for or not. -/
structure Tallied (asked : Bool) (r : Record α π) : Prop where
  order : r.turn.session.InOrder r.log r.sent
  shut : r.turn.ctx.shutdown = true → asked = true
  decided : asked = true ∨ r.turn.session.ending = some .shutdown ↔ closing r.log.places

section Runs

variable {service : Service α π} {socket : Net.Sender τ} {r : Record α π} {asked : Bool}
  {e : Event τ α π}

theorem Tallied.leaving_iff (h : Tallied asked r) :
    asked = true ∨ Leaving r.turn ↔ closing r.log.places := by
  rw [← h.decided, Leaving]
  refine ⟨?_, fun hleaves => hleaves.imp id .inr⟩
  rintro (hasked | hshut | hending)
  · exact .inl hasked
  · exact .inl (h.shut hshut)
  · exact .inr hending

theorem Tallied.call (service : Service α π) (hsocket : socket.Honest) (h : Tallied asked r)
    (hcall : e.IsCall) :
    asked = true ∨ Leaving (r.next service socket e).turn ↔
      closing (r.next service socket e).log.places := by
  have hbefore := h.leaving_iff
  rcases h.order with hflows | ⟨done, p, hover⟩
  · rw [hflows.not_closing] at hbefore
    have hopen := not_or.1 fun hleaves => Bool.false_ne_true (hbefore.1 hleaves)
    exact (or_iff_right hopen.1).trans
      (hflows.leaving_happen hopen.2 socket hcall)
  · rw [(hover.next hsocket e).closing_eq, ← hover.closing_eq, ← hbefore]
    exact or_congr_right (hover.leaving_happen socket hcall)

theorem Tallied.next (service : Service α π) (hsocket : socket.Honest) (h : Tallied asked r)
    (hstop : e ≠ .stop)
    (houtside : ∀ ctx desk, e = .outside ctx desk → ctx.shutdown = false) :
    Tallied (asked || (r.next service socket e).turn.ctx.shutdown) (r.next service socket e) where
  order := by
    rcases h.order with hflows | ⟨done, p, hover⟩
    · exact hflows.next hsocket e
    · exact .inr ⟨done, p, hover.next hsocket e⟩
  shut hshut := by rw [hshut, Bool.or_true]
  decided := by
    have hcalled (hcall : e.IsCall) := h.call service hsocket hcall
    simp only [Leaving, ← or_assoc, ← Bool.or_eq_true] at hcalled
    cases e with
    | outside ctx desk =>
      have hshut : (r.next service socket (.outside ctx desk)).turn.ctx.shutdown = false :=
        houtside ctx desk rfl
      rw [hshut, Bool.or_false]
      simpa [Record.next, happen, changes] using h.decided
    | stop => exact absurd rfl hstop
    | _ => exact hcalled trivial

theorem Tallied.run (service : Service α π) (hsocket : socket.Honest) (h : Tallied asked r)
    {es : List (Event τ α π)} (hstop : .stop ∉ es)
    (houtside : ∀ ctx desk, .outside ctx desk ∈ es → ctx.shutdown = false) :
    Tallied (asked || asks service socket r es) (r.run service socket es) := by
  induction es generalizing r asked with
  | nil => simpa [asks, Record.run] using h
  | cons e es ih =>
    rw [List.mem_cons, not_or] at hstop
    have hnext := h.next service hsocket (Ne.symm hstop.1)
      fun ctx desk he => houtside ctx desk (he ▸ List.mem_cons_self)
    have hrest := ih hnext hstop.2 fun ctx desk he => houtside ctx desk (List.mem_cons_of_mem _ he)
    rwa [Bool.or_assoc] at hrest

/-- A half-close is asked for just when a response that closes is shown, as long as nobody else asks
for one. -/
theorem halfCloses_iff (service : Service α π) (hsocket : socket.Honest) {ctx : Context π}
    (desk : Desk α) {es : List (Event τ α π)} (h : Undisturbed ctx es) :
    HalfCloses service socket (Record.fresh service ctx desk) es ↔
      closing ((Record.fresh service ctx desk).run service socket es).log.places := by
  have hfresh : Tallied false (Record.fresh service ctx desk) :=
    ⟨inOrder_run hsocket service ctx desk [],
      fun hshut => absurd (h.unasked.symm.trans hshut) Bool.false_ne_true,
      by simp [Record.fresh, new, Log.places, closing, Place.shown]⟩
  have hrun := (hfresh.run service hsocket h.unstopped h.outside).decided
  rwa [Bool.false_or] at hrun

theorem ending_finishUp (t : Turn α π) : (finishUp t).session.ending = none := by
  unfold finishUp
  rcases hending : t.session.ending with _ | _ | next <;> simp [hending, Turn.shutdown,
    Turn.switchTo, Turn.modify]

/-- A write that sends everything leaves nothing to be asked for later. -/
theorem ending_of_flushed {t : Turn α π} {socket : Net.Sender τ} {io : τ}
    (h : (write t socket io).2.2 = .ok .flushed) : (write t socket io).1.session.ending = none := by
  have hsent : (write t socket io).1.session.out.total = 0 := by
    have hwrite : write t socket io =
        ((write t socket io).1, (write t socket io).2.1, .ok .flushed) :=
      Prod.ext rfl (Prod.ext rfl h)
    rw [out_of_flushed hwrite]
    rfl
  rw [write_eq] at hsent ⊢
  generalize t.modify _ = u at hsent ⊢
  have hunsent : u.session.out.total = 0 := by
    unfold finishIfSent at hsent
    split at hsent
    · assumption
    · exact hsent
  rw [finishIfSent, if_pos hunsent]
  exact ending_finishUp u

/-- At the latest when everything is sent, the half-close has been asked for. -/
theorem asks_of_flushed (hsocket : socket.Honest) {ctx : Context π} {desk : Desk α}
    {es : List (Event τ α π)} (h : Undisturbed ctx es)
    (hcloses : HalfCloses service socket (Record.fresh service ctx desk) es) {io : τ}
    (hflushed : (write ((Record.fresh service ctx desk).run service socket es).turn
      socket io).2.2 = .ok .flushed) :
    asks service socket (Record.fresh service ctx desk) (es ++ [.write io]) = true := by
  have hlater : Undisturbed ctx (es ++ [.write io]) :=
    ⟨by simpa using h.unstopped, h.unasked, fun ctx desk he =>
      h.outside ctx desk (by simpa using he)⟩
  have hrun : (Record.fresh service ctx desk).run service socket (es ++ [.write io]) =
      ((Record.fresh service ctx desk).run service socket es).next service socket (.write io) :=
    List.foldl_append
  -- the write changes nothing in the line, so the decision is the same
  have hsame := (halfCloses_iff service hsocket desk hlater).2 (by
    rw [hrun, Record.next, changes, List.append_nil]
    exact (halfCloses_iff service hsocket desk h).1 hcloses)
  refine hsame.resolve_right fun hending => ?_
  rw [hrun] at hending
  exact absurd ((ending_of_flushed hflushed).symm.trans hending) (Option.some_ne_none _).symm

end Runs

end WireServer.Http.Session
