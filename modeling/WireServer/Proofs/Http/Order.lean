import WireServer.Proofs.Http.Logging
import WireServer.Proofs.Net.Sending

/-! Pipelined responses leave in the order of their requests, whatever order they are given in.
What went out of a session is read off its log: the places in their order, each with the bytes that
its own parts make, up to the first that is not done. -/

namespace WireServer.Http.Session

variable {τ α π : Type}

/-- What happens to a session: the calls of its connection, and what changes outside of it. -/
inductive Event (τ α π : Type) where
  | read (src : Bytes)
  | wakeup (items : List Item)
  /-- The socket is in this state then. -/
  | write (io : τ)
  | stop
  | takeLeftover
  | outside (ctx : Context π) (desk : Desk α)

def happen (service : Service α π) (socket : Net.Sender τ) (t : Turn α π) :
    Event τ α π → Turn α π
  | .read src => read service t src
  | .wakeup items => wakeup t items
  | .write io => (write t socket io).1
  | .stop => stop t
  | .takeLeftover => (takeLeftover t).1
  | .outside ctx desk => { t with ctx, desk }

def changes (service : Service α π) (t : Turn α π) : Event τ α π → Log π
  | .read src => readChanges service t src
  | .wakeup items => items.flatMap itemChanges
  | .stop => stopChanges t
  | .write _ | .takeLeftover | .outside _ _ => []

/-- The bytes that the socket takes. -/
def taken (socket : Net.Sender τ) (t : Turn α π) : Event τ α π → Bytes
  | .write io => (write t socket.recorded (io, [])).2.1.2
  | _ => []

/-- A session with its log and all the bytes that it sent. -/
structure Record (α π : Type) where
  turn : Turn α π
  log : Log π := []
  sent : Bytes := []

namespace Record

def fresh (service : Service α π) (ctx : Context π) (desk : Desk α) : Record α π where
  turn := ⟨ctx, new service, desk⟩

def next (service : Service α π) (socket : Net.Sender τ) (r : Record α π) (e : Event τ α π) :
    Record α π where
  turn := happen service socket r.turn e
  log := r.log ++ changes service r.turn e
  sent := r.sent ++ taken socket r.turn e

def run (service : Service α π) (socket : Net.Sender τ) (r : Record α π)
    (es : List (Event τ α π)) : Record α π :=
  es.foldl (next service socket) r

/-- All bytes that were moved to the output, sent or not. -/
def moved (r : Record α π) : Bytes := r.sent ++ r.turn.session.out.toBytes

end Record

/-! ### The invariant -/

/-- The line moves: all that is ready has gone out. -/
structure Flows (s : Session π) (log : Log π) (sent : Bytes) : Prop where
  sound : s.line.Sound log
  shown : ∃ done begun, s.line.Shows log sent done begun ∧ s.line.AtRest

/-- The final response went out, and nothing follows it. -/
structure Over (s : Session π) (log : Log π) (sent : Bytes) (done : List (Place π))
    (p : Pending π) : Prop where
  sound : s.line.Sound log
  ended : s.line.Ended log sent done p
  refuses : s.accepting = false

/-- The line moves, or it came to its end. -/
def InOrder (s : Session π) (log : Log π) (sent : Bytes) : Prop :=
  s.Flows log sent ∨ ∃ done p, s.Over log sent done p

section Invariant

variable {s : Session π} {log : Log π} {sent sent' : Bytes} {out : Net.Chain}
  {done : List (Place π)} {begun : Net.Chain} {p : Pending π}

theorem inOrder_flushReady (hsound : s.line.Sound log) (h : s.line.Shows log sent done begun) :
    s.flushReady.InOrder log sent := by
  obtain ⟨hnext, hshown⟩ := flushFront_line s s.pending h
  have hrising : Rising log.slots (s.flushFront s.pending).nextSlot := hnext ▸ hsound.rising
  have hsound' : s.flushReady.line.Sound log := ⟨hrising, hsound.fresh⟩
  rcases hshown with ⟨done', begun', hshows, hrest⟩ | ⟨done', p, hended, hrefuses⟩
  · exact .inl ⟨hsound', done', begun', hshows, hrest⟩
  · exact .inr ⟨done', p, hsound', hended, hrefuses⟩

theorem Over.flushReady (h : s.Over log sent done p) : s.flushReady = s := by
  have hempty : s.pending = [] := h.ended.empty
  simp only [Session.flushReady, hempty, flushFront]
  rw [← hempty]

/-- Output leaves from its front. -/
theorem Flows.send (h : s.Flows log sent) (hsent : sent' ++ out.toBytes = sent ++ s.out.toBytes)
    (ending : Option (Ending π)) : { s with out, ending }.Flows log sent' := by
  obtain ⟨done, begun, hshows, hrest⟩ := h.shown
  exact ⟨⟨h.sound.rising, h.sound.fresh⟩, done, begun,
    ⟨hshows.places, hshows.passed, hsent.trans hshows.bytes, hshows.unbegun⟩, hrest⟩

theorem Over.send (h : s.Over log sent done p)
    (hsent : sent' ++ out.toBytes = sent ++ s.out.toBytes) (ending : Option (Ending π)) :
    { s with out, ending }.Over log sent' done p :=
  ⟨⟨h.sound.rising, h.sound.fresh⟩, ⟨h.ended.empty, h.ended.places, h.ended.passed,
    h.ended.final, hsent.trans h.ended.bytes⟩, h.refuses⟩

theorem InOrder.send (h : s.InOrder log sent)
    (hsent : sent' ++ out.toBytes = sent ++ s.out.toBytes) (ending : Option (Ending π)) :
    { s with out, ending }.InOrder log sent' := by
  rcases h with hflows | ⟨done, p, hover⟩
  · exact .inl (hflows.send hsent ending)
  · exact .inr ⟨done, p, hover.send hsent ending⟩

end Invariant

/-! ### The calls -/

section Calls

variable {service : Service α π} {t : Turn α π} {log : Log π} {sent : Bytes}
  {done : List (Place π)} {p : Pending π}

theorem InOrder.arm (h : t.session.InOrder log sent) : (arm t).session.InOrder log sent := by
  obtain ⟨ending, harm⟩ := arm_session t
  rw [harm]
  exact h.send rfl ending

/-- Input that is kept for later, or thrown away. -/
theorem read_unserved (service : Service α π)
    (h : t.session.mode = .serving → t.session.accepting = false) (src : Bytes) :
    readChanges service t src = [] ∧
      ∃ buffer, (read service t src).session = { t.session with buffer } := by
  unfold read readChanges
  cases hmode : t.session.mode with
  | serving =>
    rw [h hmode]
    exact ⟨rfl, t.session.buffer, rfl⟩
  | upgrading => exact ⟨rfl, t.session.buffer ++ src, rfl⟩
  | failed => exact ⟨rfl, t.session.buffer, rfl⟩

theorem Flows.read (h : t.session.Flows log sent) (src : Bytes) :
    (read service t src).session.InOrder (log ++ readChanges service t src) sent := by
  -- nothing is flushed while requests are decoded, so the line takes all changes first
  by_cases hserved : t.session.mode = .serving ∧ t.session.accepting = true
  · obtain ⟨hmode, haccepting⟩ := hserved
    obtain ⟨done, begun, hshows, -⟩ := h.shown
    have hfollows := processEvents_follows service
      (2 * (t.modify fun s => { s with buffer := s.buffer ++ src }).session.buffer.length + 3)
      (t.modify fun s => { s with buffer := s.buffer ++ src }) (hshows.ordered h.sound)
    obtain ⟨hsound', done', hshows'⟩ := hshows.follows h.sound hfollows
    simp only [Session.read, readChanges, hmode, haccepting, if_true, process]
    exact InOrder.arm (inOrder_flushReady hsound' hshows')
  · have hrefuses (hmode : t.session.mode = .serving) : t.session.accepting = false := by
      simpa [hmode] using hserved
    obtain ⟨hnone, buffer, hread⟩ := read_unserved service hrefuses src
    rw [hnone, hread, List.append_nil]
    exact .inl ⟨h.sound, h.shown⟩

/-- Nothing is read behind the final response. -/
theorem Over.read (h : t.session.Over log sent done p) (src : Bytes) :
    (read service t src).session.Over (log ++ readChanges service t src) sent done p := by
  obtain ⟨hnone, buffer, hread⟩ := read_unserved service (fun _ => h.refuses) src
  rw [hnone, hread, List.append_nil]
  exact ⟨h.sound, h.ended, h.refuses⟩

theorem Flows.wakeup (h : t.session.Flows log sent) (items : List Item) :
    (wakeup t items).session.InOrder (log ++ items.flatMap itemChanges) sent := by
  obtain ⟨done, begun, hshows, -⟩ := h.shown
  obtain ⟨hsound, done', hshows'⟩ := hshows.follows h.sound (applyItems_follows t.session items)
  obtain ⟨ending, hwakeup⟩ := wakeup_session t items
  rw [hwakeup]
  exact (inOrder_flushReady hsound hshows').send rfl ending

theorem Over.wakeup (h : t.session.Over log sent done p) (items : List Item) :
    (wakeup t items).session.Over (log ++ items.flatMap itemChanges) sent done p := by
  obtain ⟨hsound, hended⟩ := h.ended.follows h.sound (applyItems_follows t.session items)
    fun c hc => parts_itemChanges hc
  obtain ⟨pending, hitems⟩ := applyItems_eq t.session items
  have hover : (items.foldl applyItem t.session).Over (log ++ items.flatMap itemChanges) sent
      done p := ⟨hsound, hended, by rw [hitems]; exact h.refuses⟩
  obtain ⟨ending, hwakeup⟩ := wakeup_session t items
  rw [hwakeup, hover.flushReady]
  exact hover.send rfl ending

/-- The last response may hear that it is the last, which moves nothing. -/
theorem Line.AtRest.endWithLast {s : Session π} (h : s.line.AtRest) :
    s.endWithLast.line.AtRest := by
  unfold Session.endWithLast
  cases hlast : s.pending.getLast? with
  | none =>
    dsimp only
    split <;> exact h
  | some last =>
    obtain ⟨ps, hps⟩ := List.getLast?_eq_some_iff.1 hlast
    have hhead : ∀ p ∈ (ps ++ [last]).head?, p.isComplete = false ∧ p.out = {} := hps ▸ h
    dsimp only
    rw [hps, List.dropLast_concat]
    cases ps with
    | nil =>
      rintro q hq
      cases hq
      exact hhead last rfl
    | cons q ps => exact hhead

/-- A stop is passed on, or it ends the session with its last response. -/
theorem stop_session (t : Turn α π) :
    (stopChanges t = [] ∧ (stop t).session = t.session) ∨
      (stopChanges t = t.session.lastChanges ∧ ∃ ending,
        (stop t).session = { { t.session with accepting := false }.endWithLast with ending }) := by
  unfold stop stopChanges
  split
  · exact .inl ⟨rfl, rfl⟩
  split
  · exact .inl ⟨rfl, rfl⟩
  · exact .inr ⟨rfl, arm_session _⟩

theorem Flows.stop (h : t.session.Flows log sent) :
    (stop t).session.InOrder (log ++ stopChanges t) sent := by
  rcases stop_session t with ⟨hnone, hstop⟩ | ⟨hlast, ending, hstop⟩
  · rw [hnone, hstop, List.append_nil]
    exact .inl h
  · obtain ⟨done, begun, hshows, hrest⟩ := h.shown
    have hfollows := endWithLast_follows { t.session with accepting := false }
      (hshows.ordered h.sound)
    obtain ⟨hsound, done', hshows'⟩ := hshows.follows h.sound hfollows
    have hrest' := Line.AtRest.endWithLast (s := { t.session with accepting := false }) hrest
    rw [hlast, hstop]
    exact .inl (Flows.send ⟨hsound, done', begun, hshows', hrest'⟩ rfl ending)

theorem endWithLast_of_empty {s : Session π} (h : s.pending = []) :
    ∃ ending, s.endWithLast = { s with ending } := by
  unfold endWithLast
  rw [h]
  dsimp only [List.getLast?_nil]
  split
  · exact ⟨some .shutdown, by rw [← h]⟩
  · exact ⟨s.ending, by rw [← h]⟩

theorem Over.stop (h : t.session.Over log sent done p) :
    (stop t).session.Over (log ++ stopChanges t) sent done p := by
  have hempty : t.session.pending = [] := h.ended.empty
  rcases stop_session t with ⟨hnone, hstop⟩ | ⟨hlast, ending, hstop⟩
  · rw [hnone, hstop, List.append_nil]
    exact h
  · obtain ⟨ending', hend⟩ :=
      endWithLast_of_empty (s := { t.session with accepting := false }) hempty
    have hnone : t.session.lastChanges = [] := by simp [lastChanges, hempty]
    rw [hlast, hstop, hend, hnone, List.append_nil]
    exact ⟨h.sound, h.ended, rfl⟩

/-- A write sends from the front of what the flush left. -/
theorem write_session {τ : Type} (t : Turn α π) (socket : Net.Sender τ) (io : τ) :
    (write t socket io).2.1 =
        (Net.sendChain socket io t.session.flushReady.out t.ctx.maxIovec).1 ∧
      ∃ ending, (write t socket io).1.session =
        { t.session.flushReady with
          out := (Net.sendChain socket io t.session.flushReady.out t.ctx.maxIovec).2.1
          ending } := by
  unfold write
  simp only [Turn.modify]
  rcases Net.sendChain socket io t.session.flushReady.out t.ctx.maxIovec with
    ⟨io', out, fault | _ | _⟩
  · exact ⟨rfl, t.session.flushReady.ending, rfl⟩
  · exact ⟨rfl, finishUp_session _⟩
  · exact ⟨rfl, t.session.flushReady.ending, rfl⟩

/-- What the socket takes and what is left are what the flush left. -/
theorem taken_write {socket : Net.Sender τ} (hsocket : socket.Honest) (t : Turn α π) (io : τ) :
    taken socket t (.write io) ++ (write t socket io).1.session.out.toBytes =
      t.session.flushReady.out.toBytes := by
  obtain ⟨ending, hplain⟩ := (write_session t socket io).2
  have hsent := Net.sendChain_recorded hsocket (io, []) t.session.flushReady.out t.ctx.maxIovec
  have hsame := congrArg (·.2.1)
    (Net.sendChain_plain socket (io, []) t.session.flushReady.out t.ctx.maxIovec)
  rw [taken, (write_session t socket.recorded (io, [])).1, hplain]
  exact (congrArg (fun out => _ ++ Net.Chain.toBytes out) hsame.symm).trans hsent

end Calls

/-! ### Runs -/

section Runs

variable {service : Service α π} {socket : Net.Sender τ} {r : Record α π}
  {done : List (Place π)} {p : Pending π}

theorem Flows.next (hsocket : socket.Honest) (h : r.turn.session.Flows r.log r.sent)
    (e : Event τ α π) :
    (r.next service socket e).turn.session.InOrder (r.next service socket e).log
      (r.next service socket e).sent := by
  cases e with
  | read src => simpa [Record.next, happen, changes, taken] using h.read src
  | wakeup items => simpa [Record.next, happen, changes, taken] using h.wakeup items
  | write io =>
    obtain ⟨done, begun, hshows, -⟩ := h.shown
    have hflushed := inOrder_flushReady h.sound hshows
    have htaken := taken_write hsocket r.turn io
    obtain ⟨ending, hwrite⟩ := (write_session r.turn socket io).2
    simp only [Record.next, happen, changes, List.append_nil]
    rw [hwrite] at htaken ⊢
    exact hflushed.send (by rw [List.append_assoc, htaken]) ending
  | stop => simpa [Record.next, happen, changes, taken] using h.stop
  | takeLeftover =>
    simp only [Record.next, happen, changes, taken, List.append_nil]
    exact .inl ⟨h.sound, h.shown⟩
  | outside ctx desk => simpa [Record.next, happen, changes, taken] using .inl h

theorem Over.next (hsocket : socket.Honest) (h : r.turn.session.Over r.log r.sent done p)
    (e : Event τ α π) :
    (r.next service socket e).turn.session.Over (r.next service socket e).log
      (r.next service socket e).sent done p := by
  cases e with
  | read src => simpa [Record.next, happen, changes, taken] using h.read src
  | wakeup items => simpa [Record.next, happen, changes, taken] using h.wakeup items
  | write io =>
    have htaken := taken_write hsocket r.turn io
    obtain ⟨ending, hwrite⟩ := (write_session r.turn socket io).2
    simp only [Record.next, happen, changes, List.append_nil]
    rw [hwrite, h.flushReady] at htaken
    rw [hwrite, h.flushReady]
    exact h.send (by rw [List.append_assoc, htaken]) ending
  | stop => simpa [Record.next, happen, changes, taken] using h.stop
  | takeLeftover =>
    simp only [Record.next, happen, changes, taken, List.append_nil]
    exact ⟨h.sound, h.ended, h.refuses⟩
  | outside ctx desk => simpa [Record.next, happen, changes, taken] using h

theorem Over.run (hsocket : socket.Honest) (h : r.turn.session.Over r.log r.sent done p)
    (es : List (Event τ α π)) :
    (r.run service socket es).turn.session.Over (r.run service socket es).log
      (r.run service socket es).sent done p := by
  induction es generalizing r with
  | nil => exact h
  | cons e es ih => exact ih (h.next hsocket e)

theorem InOrder.run (hsocket : socket.Honest) (h : r.turn.session.InOrder r.log r.sent)
    (es : List (Event τ α π)) :
    (r.run service socket es).turn.session.InOrder (r.run service socket es).log
      (r.run service socket es).sent := by
  induction es generalizing r with
  | nil => exact h
  | cons e es ih =>
    rcases h with hflows | ⟨done, p, hover⟩
    · exact ih (hflows.next hsocket e)
    · exact .inr ⟨done, p, hover.run hsocket (e :: es)⟩

theorem inOrder_run (hsocket : socket.Honest) (service : Service α π) (ctx : Context π)
    (desk : Desk α) (es : List (Event τ α π)) :
    ((Record.fresh service ctx desk).run service socket es).turn.session.InOrder
      ((Record.fresh service ctx desk).run service socket es).log
      ((Record.fresh service ctx desk).run service socket es).sent := by
  have hfresh : (Record.fresh service ctx desk).turn.session.Flows [] [] :=
    ⟨⟨.nil _, by simp⟩, [], {}, ⟨rfl, by simp, rfl, fun _ => rfl⟩,
      by simp [Line.AtRest, line, Record.fresh, new]⟩
  exact InOrder.run hsocket (.inl hfresh) es

end Runs

/-! ### What went out -/

section Shown

variable {s : Session π} {log : Log π} {sent : Bytes} {done : List (Place π)} {p : Pending π}

theorem InOrder.sound (h : s.InOrder log sent) : s.line.Sound log := by
  rcases h with hflows | ⟨done, p, hover⟩
  · exact hflows.sound
  · exact hover.sound

theorem InOrder.shown (h : s.InOrder log sent) :
    sent ++ s.out.toBytes = (Place.shown log.places).flatMap Place.bytes := by
  rcases h with ⟨-, done, begun, hshows, hrest⟩ | ⟨done, p, hover⟩
  · exact hshows.shown hrest
  · exact hover.ended.shown

/-- What is done stands in front of all responses in line. -/
theorem InOrder.split (h : s.InOrder log sent) :
    ∃ done : List (Place π), ∃ ps : List (Pending π),
      log.places = done ++ ps.map .answer ∧ ∀ b ∈ done, b.passes := by
  rcases h with ⟨-, done, begun, hshows, -⟩ | ⟨done, p, hover⟩
  · exact ⟨done, _, hshows.places, hshows.passed⟩
  · obtain ⟨ps, hplaces⟩ := hover.ended.places
    exact ⟨done, p :: ps, hplaces, hover.ended.passed⟩

theorem InOrder.interim (h : s.InOrder log sent) {before behind : List (Place π)}
    (hplaces : log.places = before ++ .interim :: behind) : ∀ b ∈ before, b.passes := by
  obtain ⟨done, ps, hsplit, hpassed⟩ := h.split
  rw [hsplit, List.append_eq_append_iff] at hplaces
  rcases hplaces with ⟨more, -, hps⟩ | ⟨more, hdone, -⟩
  · have hinterim : Place.interim ∈ ps.map Place.answer := hps ▸ by simp
    obtain ⟨p, -, hp⟩ := List.mem_map.1 hinterim
    cases hp
  · exact fun b hb => hpassed b (hdone ▸ List.mem_append_left _ hb)

/-- Only behind a final response is the first place that does not pass complete. -/
theorem InOrder.over (h : s.InOrder log sent) {rest : List (Place π)}
    (hplaces : log.places = done ++ .answer p :: rest) (hdone : ∀ b ∈ done, b.passes)
    (hfinal : p.isFinal) : ∃ done p, s.Over log sent done p := by
  have hfirst {front : List (Place π)} (hfront : ∀ b ∈ front, b.passes) (bs : List (Place π)) :
      (front ++ bs).find? (fun b => !b.passes) = bs.find? fun b => !b.passes := by
    rw [List.find?_append, List.find?_eq_none.2 (by simpa using hfront), Option.none_or]
  obtain ⟨hcomplete, hpasses⟩ := Pending.isFinal_iff.1 hfinal
  -- while the line moves, the first place that does not pass is the first response in line
  rcases h with ⟨-, done', begun, hshows, hrest⟩ | hover
  · have hsame := congrArg (List.find? fun b => !b.passes) (hplaces.symm.trans hshows.places)
    rw [hfirst hdone, hfirst hshows.passed,
      List.find?_cons_of_pos (by simp [Place.passes, hpasses])] at hsame
    cases hpending : s.line.pending with
    | nil => simp [hpending, Line.aheadFirst] at hsame
    | cons q ps =>
      have hopen := (hrest q (by simp [hpending])).1
      rw [hpending, Line.aheadFirst, List.map_cons, List.find?_cons_of_pos
        (by simp [Place.passes, Pending.passes, hopen])] at hsame
      cases hsame
      exact absurd hcomplete (by simp [hopen])
  · exact hover

/-- A part leaves the output and all responses in other slots alone. -/
theorem apply_others (s : Session π) (slot : Nat) (part : Part) :
    (s.apply slot part).out = s.out ∧
      (s.apply slot part).pending.filter (·.slot ≠ slot) = s.pending.filter (·.slot ≠ slot) := by
  refine ⟨rfl, ?_⟩
  rw [apply]
  induction s.pending with
  | nil => rfl
  | cons p ps ih =>
    rw [applyToFirst]
    by_cases hp : p.slot = slot
    · simp [hp]
    · simp only [if_neg hp, List.filter_cons, ih]

end Shown

/-- Whatever happens to a session, the bytes moved to its output are those of the shown places, one
after another: responses in the order of their slots, each made by the parts that its own slot was
given, of which at most the last is not complete, and interim responses, which stand behind complete
ones only. A part changes the response in its slot and no other. So for the same requests it does
not matter in which order their parts came. Nothing at all follows a complete response that ends the
connection or hands it over. -/
theorem responses_in_order (service : Service α π) (socket : Net.Sender τ)
    (hsocket : socket.Honest) (ctx : Context π) (desk : Desk α) (es : List (Event τ α π)) :
    ∀ r, r = (Record.fresh service ctx desk).run service socket es →
      r.moved = (Place.shown r.log.places).flatMap Place.bytes ∧
      (r.log.places.filterMap Place.slot?).Pairwise (· < ·) ∧
      r.log.places = r.log.arrivals.map (Log.hear r.log) ∧
      (∀ b ∈ (Place.shown r.log.places).dropLast, b.passes) ∧
      (∀ p, .admitted p ∈ r.log → p.stage = .waiting ∧ p.out = {}) ∧
      (∀ before behind, r.log.places = before ++ .interim :: behind → ∀ b ∈ before, b.passes) ∧
      (∀ slot part, (r.turn.session.apply slot part).out = r.turn.session.out ∧
        (r.turn.session.apply slot part).pending.filter (·.slot ≠ slot) =
          r.turn.session.pending.filter (·.slot ≠ slot)) ∧
      (∀ (service' : Service α π) (ctx' : Context π) (desk' : Desk α) (es' : List (Event τ α π)) r',
        r' = (Record.fresh service' ctx' desk').run service' socket es' →
        (∀ slot, r.log.heard slot = r'.log.heard slot) →
        (r.log.arrivals.filterMap Place.response? = r'.log.arrivals.filterMap Place.response? →
          (Place.shown r.log.places).filterMap Place.response? =
            (Place.shown r'.log.places).filterMap Place.response?) ∧
        (r.log.arrivals = r'.log.arrivals → r.moved = r'.moved)) ∧
      (∀ done p rest, r.log.places = done ++ .answer p :: rest → (∀ b ∈ done, b.passes) →
        p.isFinal → ∀ more, (r.run service socket more).moved = r.moved) := by
  rintro r rfl
  have hrun := inOrder_run hsocket service ctx desk es
  have hslots := hrun.sound.rising.nodup
  refine ⟨hrun.shown, by simpa using hrun.sound.rising.sorted, Log.places_eq_map _ hslots,
    fun _ => Place.passes_of_mem_dropLast, hrun.sound.fresh, fun _ _ => hrun.interim,
    apply_others _, ?_, ?_⟩
  · rintro service' ctx' desk' es' r' rfl hheard
    refine ⟨fun harrivals => ?_, fun harrivals => ?_⟩
    · rw [Place.filterMap_shown, Log.responses_congr hslots harrivals hheard,
        ← Place.filterMap_shown]
    · have hother := inOrder_run hsocket service' ctx' desk' es'
      rw [Record.moved, hrun.shown, Record.moved, hother.shown,
        Log.places_congr hslots harrivals hheard]
  · intro done p rest hplaces hdone hfinal more
    obtain ⟨done', p', hover⟩ := hrun.over hplaces hdone hfinal
    exact (hover.run hsocket more).ended.bytes.trans hover.ended.bytes.symm

/-- A handler that answers nothing at once. -/
def deferring : Service Unit Unit where
  handler _ _ := .defer 0 fun _ => .done () .ok

/-- Two requests at once, the second of which ends the connection. -/
def twoRequests : Bytes :=
  Bytes.ofString "GET / HTTP/1.1\r\n\r\nGET / HTTP/1.1\r\nConnection: close\r\n\r\n"

/-- Both are answered, with a write behind each answer. -/
def answerBoth (first second : Nat) : Record Unit Unit :=
  (Record.fresh deferring {} { app := () }).run deferring Net.MemorySocket.socket.toSender
    [.read twoRequests, .wakeup [.answer first (.full (.empty 200))], .write {},
      .wakeup [.answer second (.full (.empty 200))], .write {}]

def waitingAt (slot : Nat) (keepAlive : Bool) : Pending Unit where
  slot := slot
  version := .v11
  keepAlive := keepAlive
  acceptsChunked := true

theorem responses_in_order_either_way :
    (answerBoth 1 0).moved = (answerBoth 0 1).moved ∧
      ∀ more, ((answerBoth 1 0).run deferring Net.MemorySocket.socket.toSender more).moved =
        (answerBoth 1 0).moved := by
  have hlog : (answerBoth 1 0).log = [.admitted (waitingAt 0 true), .admitted (waitingAt 1 false),
      .told 1 (.part (.full (.empty 200))), .told 0 (.part (.full (.empty 200)))] := by
    decide +kernel
  have hother : (answerBoth 0 1).log = [.admitted (waitingAt 0 true), .admitted (waitingAt 1 false),
      .told 0 (.part (.full (.empty 200))), .told 1 (.part (.full (.empty 200)))] := by
    decide +kernel
  have hheard (slot : Nat) : (answerBoth 1 0).log.heard slot = (answerBoth 0 1).log.heard slot := by
    rw [hlog, hother]
    by_cases h0 : 0 = slot
    · subst h0
      rfl
    by_cases h1 : 1 = slot
    · subst h1
      rfl
    simp [Log.heard, waitingAt, h0, h1]
  have hplaces : (answerBoth 1 0).log.places =
      [.answer ((waitingAt 0 true).accept (.full (.empty 200)))] ++
        [.answer ((waitingAt 1 false).accept (.full (.empty 200)))] := by
    rw [hlog]
    rfl
  have harrivals : (answerBoth 1 0).log.arrivals = (answerBoth 0 1).log.arrivals := by
    rw [hlog, hother]
    rfl
  obtain ⟨-, -, -, -, -, -, -, hinterleaved, hfinal⟩ := responses_in_order deferring
    Net.MemorySocket.socket.toSender Net.MemorySocket.honest {} { app := () } _ (answerBoth 1 0) rfl
  refine ⟨(hinterleaved _ _ _ _ (answerBoth 0 1) rfl hheard).2 harrivals, ?_⟩
  exact hfinal _ _ _ hplaces (by decide +kernel) (by decide +kernel)

end WireServer.Http.Session
