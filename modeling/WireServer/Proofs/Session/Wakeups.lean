import Mathlib.Data.List.Basic
import WireServer.Session.Shared

/-! An outbox in many hands loses nothing. However the steps of the workers and of the reactor come
one behind the other, what is taken is what was pushed, in the order of the pushes; items that wait
have a wakeup stored for them as soon as nobody is in the midst of something; and once the
connection is marked as closing, every new call is refused. -/

namespace WireServer.Outbox

theorem acquire?_eq_some {o o' : Outbox} (h : o.acquire? = some o') :
    o.locked = false ∧ o' = { o with locked := true } := by
  unfold acquire? at h
  split at h
  · cases h
  · rename_i hfree
    exact ⟨by simpa using hfree, (Option.some.inj h).symm⟩

theorem acquire?_of_locked {o : Outbox} (h : o.locked = true) : o.acquire? = none := if_pos h

theorem acquire?_of_free {o : Outbox} (h : o.locked = false) :
    o.acquire? = some { o with locked := true } := if_neg (by simp [h])

theorem tryLock_of_closing {o : Outbox} (h : o.closing = true) : o.tryLock = .error .gone :=
  if_pos h

theorem tryLock_of_locked {o : Outbox} (hopen : o.closing = false) (h : o.locked = true) :
    o.tryLock = .error .contended := by
  simp [tryLock, hopen, h]

theorem tryLock_of_free {o : Outbox} (hopen : o.closing = false) (h : o.locked = false) :
    o.tryLock = .ok { o with locked := true } := by
  simp [tryLock, hopen, h]

/-! ### Steps of a worker -/

namespace Stage

/-- All that a worker's step can do to the outbox. -/
inductive Leads (o : Outbox) (st : Stage) : Effect → Prop where
  | nothing {st' : Stage} {answer? : Option (Except LockFault Unit)} :
    st'.holds = st.holds → st'.notifies = st.notifies → Leads o st ⟨o, st', [], answer?⟩
  | lock {st' : Stage} {answer? : Option (Except LockFault Unit)} :
    o.locked = false → st.notifies = false → st'.holds = true →
    Leads o st ⟨{ o with locked := true }, st', [], answer?⟩
  | push {st' : Stage} (item : Item) : st.holds = true → st'.holds = true → st'.notifies = true →
    Leads o st ⟨o.append item, st', [item], none⟩
  | wake {st' : Stage} : st.holds = true → st'.holds = true → Leads o st ⟨o.wake, st', [], none⟩
  | unlock {answer? : Option (Except LockFault Unit)} : st.notifies = false →
    Leads o st ⟨o.unlock, .idle, [], answer?⟩

variable (o : Outbox) (st : Stage)

theorem leads_go : st.Leads o (st.go o) := by
  match st with
  | .idle => exact .nothing rfl rfl
  | .asking e =>
    simp only [go]
    split <;> exact .nothing rfl rfl
  | .trying e =>
    cases hlock : o.acquire? with
    | some o' =>
      obtain ⟨hfree, rfl⟩ := acquire?_eq_some hlock
      cases e <;> simp only [go, hlock] <;> exact .lock hfree rfl rfl
    | none =>
      simp only [go, hlock]
      cases e.again? <;> exact .nothing rfl rfl
  | .holding .hold => exact .nothing rfl rfl
  | .holding (.post item _) => exact .push item rfl rfl rfl
  | .notifying .hold => exact .wake rfl rfl
  | .notifying (.post _ _) => exact .wake rfl rfl
  | .leaving => exact .unlock rfl

theorem leads_act (a : Act) : st.Leads o (st.act o a) := by
  unfold act
  split
  · exact leads_go o _
  · exact .nothing rfl rfl
  · exact .nothing rfl rfl
  · exact .push _ rfl rfl rfl
  · exact .unlock rfl
  · exact .nothing rfl rfl

end Stage

/-! ### Steps of the reactor -/

namespace Reactor

/-- The connection is marked as closing, and its items are about to be dropped. -/
def drops : Reactor → Bool
  | .clearing | .dropping => true
  | _ => false

/-- All that a step of the reactor can do to the outbox. -/
inductive Leads (o : Outbox) (r : Reactor) : Effect → Prop where
  | nothing {r' : Reactor} : r.holds = r'.holds → (r.reaches = true → r'.reaches = true) →
    r'.drops = false → Leads o r ⟨o, r', []⟩
  | settle : r.holds = false → Leads o r ⟨o.settle, .reaching, []⟩
  | lock {r' : Reactor} : o.locked = false → (r.reaches = true → r'.reaches = true) →
    (r'.drops = true → r.drops = true) → r'.holds = true →
    Leads o r ⟨{ o with locked := true }, r', []⟩
  | take : Leads o r ⟨o.clear.unlock, .busy, o.items⟩
  | wake : r.holds = false → Leads o r ⟨o.wake, .busy, []⟩
  | mark : r.holds = false → r.reaches = false → Leads o r ⟨o.markClosing, .clearing, []⟩
  | drop : r.drops = true → Leads o r ⟨o.clear.unlock, .busy, []⟩

variable (o : Outbox) (r : Reactor)

theorem leads_go : r.Leads o (r.go o) := by
  cases r with
  | resting => exact .nothing rfl nofun rfl
  | busy => exact .nothing rfl nofun rfl
  | reaching =>
    cases hlock : o.acquire? with
    | some o' =>
      obtain ⟨hfree, rfl⟩ := acquire?_eq_some hlock
      simp only [go, hlock]
      exact .lock hfree (fun _ => rfl) nofun rfl
    | none =>
      simp only [go, hlock]
      exact .nothing rfl (fun _ => rfl) rfl
  | taking => exact .take
  | rearming => exact .wake rfl
  | marking => exact .mark rfl rfl
  | clearing =>
    cases hlock : o.acquire? with
    | some o' =>
      obtain ⟨hfree, rfl⟩ := acquire?_eq_some hlock
      simp only [go, hlock]
      exact .lock hfree nofun (fun _ => rfl) rfl
    | none =>
      simp only [go, hlock]
      exact .nothing rfl nofun rfl
  | dropping => exact .drop rfl

theorem leads_act (a : Act) : r.Leads o (r.act o a) ∨ r.act o a = ⟨o, r, []⟩ := by
  unfold act
  split
  · exact .inl (leads_go o _)
  · split
    · exact .inl (.settle rfl)
    · exact .inr rfl
  · exact .inl (.nothing rfl nofun rfl)
  · exact .inl (.nothing rfl nofun rfl)
  · exact .inl (.nothing rfl nofun rfl)
  · exact .inl (.nothing rfl nofun rfl)
  · exact .inr rfl

end Reactor

/-! ### The invariant -/

namespace Shared

/-- What every step keeps. -/
structure Sound (s : Shared) : Prop where
  delivered : s.outbox.closing = false → s.taken ++ s.outbox.items = s.pushed
  marked : s.reactor.drops = true → s.outbox.closing = true
  /-- Items that wait have a wakeup, or someone is about to store one or to take them. -/
  awaited : s.outbox.items = [] ∨ s.outbox.awake = true ∨ s.reactor.reaches = true ∨
    ∃ w, (s.worker w).notifies = true
  held : s.outbox.locked = true → s.reactor.holds = true ∨ ∃ w, (s.worker w).holds = true

section Steps

variable {s : Shared}

theorem Sound.workerStep (h : s.Sound) (w : Nat) {e : Effect}
    (he : (s.worker w).Leads s.outbox e) : (s.workerStep w e).Sound := by
  obtain ⟨hdelivered, hmarked, hawaited, hheld⟩ := h
  -- one step moves one worker; what is true of another one stays so
  have hothers {p : Stage → Bool} (hp : p (s.worker w) = true → p e.stage = true) :
      (∃ v, p (s.worker v) = true) → ∃ v, p ((s.workerStep w e).worker v) = true := by
    rintro ⟨v, hv⟩
    refine ⟨v, ?_⟩
    simp only [Shared.workerStep]
    split
    · next heq => exact hp (heq ▸ hv)
    · exact hv
  have hself {p : Stage → Bool} (hp : p e.stage = true) :
      ∃ v, p ((s.workerStep w e).worker v) = true := ⟨w, by simpa [Shared.workerStep] using hp⟩
  have hquiet (hnotifies : (s.worker w).notifies = false) :
      (s.worker w).notifies = true → e.stage.notifies = true := by simp [hnotifies]
  cases he with
  | nothing hholds hnotifies =>
    refine ⟨?_, hmarked, ?_, fun hlocked => ?_⟩
    · simpa [Shared.workerStep] using hdelivered
    · exact hawaited.imp_right (.imp_right (.imp_right (hothers hnotifies.trans)))
    · exact (hheld hlocked).imp_right (hothers hholds.trans)
  | lock hfree hnotifies hholds =>
    refine ⟨?_, hmarked, ?_, fun _ => .inr (hself hholds)⟩
    · simpa [Shared.workerStep] using hdelivered
    · exact hawaited.imp_right (.imp_right (.imp_right (hothers (hquiet hnotifies))))
  | push item _ hholds hnotifies =>
    refine ⟨fun hopen => ?_, hmarked, .inr (.inr (.inr (hself hnotifies))), fun hlocked => ?_⟩
    · simp only [Shared.workerStep, append, ← hdelivered hopen, List.append_assoc]
    · exact (hheld hlocked).imp_right (hothers fun _ => hholds)
  | wake _ hholds =>
    refine ⟨?_, hmarked, .inr (.inl rfl), fun hlocked => ?_⟩
    · simpa [Shared.workerStep, Outbox.wake] using hdelivered
    · exact (hheld hlocked).imp_right (hothers fun _ => hholds)
  | unlock hnotifies =>
    refine ⟨?_, hmarked, ?_, nofun⟩
    · simpa [Shared.workerStep, Outbox.unlock] using hdelivered
    · exact hawaited.imp_right (.imp_right (.imp_right (hothers (hquiet hnotifies))))

theorem Sound.reactorStep (h : s.Sound) {e : Reactor.Effect} (he : s.reactor.Leads s.outbox e) :
    (s.reactorStep e).Sound := by
  obtain ⟨hdelivered, hmarked, hawaited, hheld⟩ := h
  cases he with
  | nothing hholds hreaches hdrops =>
    refine ⟨?_, fun hp => ?_, ?_, fun hlocked => ?_⟩
    · simpa [Shared.reactorStep] using hdelivered
    · cases hdrops.symm.trans hp
    · exact hawaited.imp_right (.imp_right (.imp_left hreaches))
    · exact (hheld hlocked).imp_left hholds.symm.trans
  | settle hholds =>
    refine ⟨?_, nofun, .inr (.inr (.inl rfl)), fun hlocked => .inr ?_⟩
    · simpa [Shared.reactorStep, Outbox.settle] using hdelivered
    · exact (hheld hlocked).resolve_left (by simp [hholds])
  | lock hfree hreaches hdrops hholds =>
    refine ⟨?_, fun hp => hmarked (hdrops hp), ?_, fun _ => .inl hholds⟩
    · simpa [Shared.reactorStep] using hdelivered
    · exact hawaited.imp_right (.imp_right (.imp_left hreaches))
  | take =>
    refine ⟨fun hopen => ?_, nofun, .inl rfl, nofun⟩
    simpa [Shared.reactorStep, clear, Outbox.unlock] using hdelivered hopen
  | wake hholds =>
    refine ⟨?_, nofun, .inr (.inl rfl), fun hlocked => .inr ?_⟩
    · simpa [Shared.reactorStep, Outbox.wake] using hdelivered
    · exact (hheld hlocked).resolve_left (by simp [hholds])
  | mark hholds hreaches =>
    refine ⟨nofun, fun _ => rfl, ?_, fun hlocked => .inr ?_⟩
    · exact hawaited.imp_right (.imp_right (.imp_left (by simp [hreaches])))
    · exact (hheld hlocked).resolve_left (by simp [hholds])
  | drop hdrops =>
    refine ⟨fun hopen => ?_, nofun, .inl rfl, nofun⟩
    cases (hmarked hdrops).symm.trans hopen

theorem Sound.step (h : s.Sound) (m : Move) : (s.step m).Sound := by
  cases m with
  | worker w a => exact h.workerStep w (Stage.leads_act s.outbox _ a)
  | reactor a =>
    rcases Reactor.leads_act s.outbox s.reactor a with hleads | hsame
    · exact h.reactorStep hleads
    · simpa [Shared.step, hsame, Shared.reactorStep] using h

theorem Sound.run (h : s.Sound) (moves : List Move) : (s.run moves).Sound := by
  induction moves generalizing s with
  | nil => exact h
  | cons m moves ih => exact ih (h.step m)

theorem sound_fresh : ({} : Shared).Sound := ⟨fun _ => rfl, nofun, .inl rfl, nofun⟩

end Steps

/-! ### Calls -/

section Calls

variable {s : Shared} {w : Nat} {o o' : Outbox} {st st' : Stage} {e : Errand} {item : Item}
  {pushed : List Item} {answers : List (Nat × Except LockFault Unit)}

/-- Where the outbox and one worker are, and what all calls came to so far. -/
structure At (s : Shared) (w : Nat) (o : Outbox) (st : Stage)
    (answers : List (Nat × Except LockFault Unit)) : Prop where
  outbox : s.outbox = o
  worker : s.worker w = st
  answers : s.answers = answers

theorem At.begin (h : s.At w o .idle answers) {a : Act}
    (ha : Stage.act o .idle a = ⟨o, .asking e, [], none⟩) :
    (s.step (.worker w a)).At w o (.asking e) answers := by
  obtain ⟨rfl, hidle, rfl⟩ := h
  simp only [Shared.step, hidle, ha, workerStep]
  exact ⟨rfl, if_pos rfl, List.append_nil _⟩

theorem step_go (s : Shared) (w : Nat) :
    s.step (.worker w .go) = s.workerStep w ((s.worker w).go s.outbox) := by
  rw [Shared.step]
  cases s.worker w <;> rfl

theorem At.go (h : s.At w o st answers) (he : st.go o = ⟨o', st', pushed, none⟩) :
    (s.step (.worker w .go)).At w o' st' answers := by
  obtain ⟨rfl, rfl, rfl⟩ := h
  rw [step_go, he]
  exact ⟨rfl, if_pos rfl, List.append_nil _⟩

/-- The step that ends a call. -/
theorem At.answer (h : s.At w o st answers) {answer : Except LockFault Unit}
    (he : st.go o = ⟨o', st', pushed, some answer⟩) :
    (s.step (.worker w .go)).At w o' st' (answers ++ [(w, answer)]) := by
  obtain ⟨rfl, rfl, rfl⟩ := h
  rw [step_go, he]
  exact ⟨rfl, if_pos rfl, rfl⟩

theorem At.rest (h : s.At w o .idle answers) (n : Nat) :
    (s.run (List.replicate n (.worker w .go))).At w o .idle answers := by
  induction n generalizing s with
  | zero => exact h
  | succ n ih => exact ih (h.go rfl)

theorem At.refused (h : s.At w o (.asking e) answers) (hclosing : o.closing = true) :
    (s.step (.worker w .go)).At w o .idle (answers ++ [(w, .error .gone)]) :=
  h.answer (if_pos hclosing)

theorem At.tries (h : s.At w o (.asking e) answers) (hopen : o.closing = false) :
    (s.step (.worker w .go)).At w o (.trying e) answers :=
  h.go (if_neg (by simp [hopen]))

/-- A try for the lock that nobody comes between. -/
theorem tryLock_alone (h : s.worker w = .idle) :
    let s' := s.run [.worker w .lock, .worker w .go, .worker w .go]
    match s.outbox.tryLock with
    | .ok o => s'.At w o (.holding .hold) (s.answers ++ [(w, .ok ())])
    | .error fault => s'.At w s.outbox .idle (s.answers ++ [(w, .error fault)]) := by
  have hasks : (s.step (.worker w .lock)).At w s.outbox (.asking .hold) s.answers :=
    At.begin ⟨rfl, h, rfl⟩ rfl
  cases hclosing : s.outbox.closing with
  | true =>
    rw [tryLock_of_closing hclosing]
    exact (hasks.refused hclosing).rest 1
  | false =>
    cases hlocked : s.outbox.locked with
    | true =>
      have hfails : (Stage.trying .hold).go s.outbox =
          ⟨s.outbox, .idle, [], some (.error .contended)⟩ := by
        simp only [Stage.go, acquire?_of_locked hlocked, Errand.again?]
      rw [tryLock_of_locked hclosing hlocked]
      exact (hasks.tries hclosing).answer hfails
    | false =>
      have hlocks : (Stage.trying .hold).go s.outbox =
          ⟨{ s.outbox with locked := true }, .holding .hold, [], some (.ok ())⟩ := by
        simp only [Stage.go, acquire?_of_free hlocked]
      rw [tryLock_of_free hclosing hlocked]
      exact (hasks.tries hclosing).answer hlocks

/-- The attempts of a post that nobody comes between, all of which find the same. -/
theorem post_attempts {left : Nat} (h : s.At w o (.asking (.post item left)) answers) :
    (s.run (List.replicate (2 * left + 5) (.worker w .go))).At w (o.post item).1 .idle
      (answers ++ [(w, (o.post item).2)]) := by
  cases hclosing : o.closing with
  | true =>
    rw [post, tryLock_of_closing hclosing]
    exact (h.refused hclosing).rest (2 * left + 4)
  | false =>
    cases hlocked : o.locked with
    | true =>
      rw [post, tryLock_of_locked hclosing hlocked]
      induction left generalizing s with
      | zero =>
        have hfails : (Stage.trying (.post item 0)).go o =
            ⟨o, .idle, [], some (.error .contended)⟩ := by
          simp only [Stage.go, acquire?_of_locked hlocked, Errand.again?]
        exact ((h.tries hclosing).answer hfails).rest 3
      | succ left ih =>
        have hfails : (Stage.trying (.post item (left + 1))).go o =
            ⟨o, .asking (.post item left), [], none⟩ := by
          simp only [Stage.go, acquire?_of_locked hlocked, Errand.again?]
        exact ih ((h.tries hclosing).go hfails)
    | false =>
      have hlocks : (Stage.trying (.post item left)).go o =
          ⟨{ o with locked := true }, .holding (.post item left), [], none⟩ := by
        simp only [Stage.go, acquire?_of_free hlocked]
      rw [post, tryLock_of_free hclosing hlocked]
      exact (((((h.tries hclosing).go hlocks).go rfl).go rfl).answer rfl).rest (2 * left)

/-- A post that nobody comes between. -/
theorem post_alone (h : s.worker w = .idle) (item : Item) :
    let s' := s.run (.worker w (.post item) ::
      List.replicate (2 * (postAttempts - 1) + 5) (.worker w .go))
    s'.At w (s.outbox.post item).1 .idle (s.answers ++ [(w, (s.outbox.post item).2)]) := by
  have hasks : (s.step (.worker w (.post item))).At w s.outbox
      (.asking (.post item (postAttempts - 1))) s.answers := At.begin ⟨rfl, h, rfl⟩ rfl
  intro s'
  have hrun : s' = (s.step (.worker w (.post item))).run
      (List.replicate (2 * (postAttempts - 1) + 5) (.worker w .go)) := List.foldl_cons ..
  rw [hrun]
  exact post_attempts hasks

/-- A take that nobody comes between. -/
theorem take_alone (h : s.reactor = .reaching) :
    let s' := s.run [.reactor .go, .reactor .go]
    s'.outbox = s.outbox.take.1 ∧ s'.taken = s.taken ++ s.outbox.take.2.getD [] := by
  obtain ⟨⟨items, locked, awake, closing⟩, worker, reactor, pushed, taken, answers⟩ := s
  subst h
  cases locked <;> exact ⟨rfl, congrArg (· ++ _) (List.append_nil taken)⟩

/-- A wakeup that nobody comes between. -/
theorem wakeup_alone (hresting : s.reactor = .resting) (hawake : s.outbox.awake = true) :
    let s' := s.run [.reactor .wakeup, .reactor .go, .reactor .go]
    s'.outbox = s.outbox.settle.take.1 ∧ s'.taken = s.taken ++ s.outbox.settle.take.2.getD [] := by
  have hwoken : s.step (.reactor .wakeup) =
      { s with outbox := s.outbox.settle, reactor := .reaching } := by
    simp [Shared.step, Reactor.act, hresting, hawake, Shared.reactorStep]
  have htaken := take_alone (s := s.step (.reactor .wakeup)) (by rw [hwoken])
  simpa only [run, List.foldl_cons, hwoken] using htaken

/-- The mark and the drop of the items, with nobody in between. -/
theorem shut_alone (h : s.reactor = .marking) :
    (s.run [.reactor .go, .reactor .go, .reactor .go]).outbox = s.outbox.shut := by
  obtain ⟨⟨items, locked, awake, closing⟩, worker, reactor, pushed, taken, answers⟩ := s
  subst h
  cases locked <;> rfl

end Calls

/-! ### Every order of steps -/

section Order

variable {s : Shared}

theorem closing_step (h : s.outbox.closing = true) (m : Move) :
    (s.step m).outbox.closing = true := by
  cases m with
  | worker w a =>
    have hleads := Stage.leads_act s.outbox (s.worker w) a
    simp only [Shared.step, workerStep]
    generalize (s.worker w).act s.outbox a = e at hleads ⊢
    cases hleads <;> exact h
  | reactor a =>
    simp only [Shared.step, Shared.reactorStep]
    rcases Reactor.leads_act s.outbox s.reactor a with hleads | hsame
    · generalize s.reactor.act s.outbox a = e at hleads ⊢
      cases hleads <;> first | exact h | rfl
    · rw [hsame]
      exact h

/-- A connection that is closing stays so, and who asks is still about to look. -/
theorem asking_run {w : Nat} {e : Errand} (hclosing : s.outbox.closing = true)
    (hasks : s.worker w = .asking e) {moves : List Move} (hothers : ∀ a, .worker w a ∉ moves) :
    (s.run moves).outbox.closing = true ∧ (s.run moves).worker w = .asking e := by
  induction moves generalizing s with
  | nil => exact ⟨hclosing, hasks⟩
  | cons m moves ih =>
    refine ih (closing_step hclosing m) ?_ fun a ha => hothers a (List.mem_cons_of_mem _ ha)
    cases m with
    | worker v a =>
      have hv : w ≠ v := fun heq => hothers a (heq ▸ List.mem_cons_self)
      simpa only [Shared.step, workerStep, if_neg hv] using hasks
    | reactor a => exact hasks

end Order

/-- After any steps of any number of workers and of the reactor, in any order: as long as the
connection is not marked as closing, the items taken so far and those that wait are the items that
were pushed, in the order of the pushes. Where no worker has the lock and the reactor is between two
events, a wakeup is stored if items wait, and it hands over all of them. Where the connection is
marked, every call that begins then is refused by its first step, whatever others do before it. -/
theorem delivered_in_order (moves : List Move) :
    let s := ({} : Shared).run moves
    (s.outbox.closing = false → s.taken ++ s.outbox.items = s.pushed) ∧
    ((∀ w, (s.worker w).holds = false) → s.reactor = .resting → s.outbox.items ≠ [] →
      s.outbox.awake = true ∧
      let s' := s.run [.reactor .wakeup, .reactor .go, .reactor .go]
      s'.taken = s.taken ++ s.outbox.items ∧ s'.outbox.items = []) ∧
    (s.outbox.closing = true → ∀ w a, a.calls → s.worker w = .idle →
      ∀ others : List Move, (∀ b, .worker w b ∉ others) →
      let s' := s.run (.worker w a :: others)
      (s'.step (.worker w .go)).answers = s'.answers ++ [(w, .error .gone)] ∧
        (s'.step (.worker w .go)).worker w = .idle) := by
  intro s
  have hsound : s.Sound := sound_fresh.run moves
  refine ⟨hsound.delivered, fun hfree hresting hitems => ?_,
    fun hclosing w a ha hidle others hothers => ?_⟩
  · have hnobody : ¬ ∃ w, (s.worker w).notifies = true := by
      rintro ⟨w, hw⟩
      have hholds := hfree w
      cases hstage : s.worker w <;> simp [hstage, Stage.notifies, Stage.holds] at hw hholds
    have hawake : s.outbox.awake = true := by
      simpa [hitems, hresting, Reactor.reaches, hnobody] using hsound.awaited
    have hunlocked : s.outbox.settle.locked = false := by
      by_contra hlocked
      rcases hsound.held (by simpa [settle] using hlocked) with hreactor | ⟨w, hw⟩
      · simp [hresting, Reactor.holds] at hreactor
      · simp [hfree w] at hw
    obtain ⟨houtbox, htaken⟩ := wakeup_alone hresting hawake
    refine ⟨hawake, ?_, ?_⟩
    · rw [htaken, Outbox.take, hunlocked]
      rfl
    · rw [houtbox, Outbox.take, hunlocked]
      rfl
  · have hasks : ∃ e, (s.step (.worker w a)).worker w = .asking e := by
      cases a with
      | lock => exact ⟨_, (At.begin ⟨rfl, hidle, rfl⟩ rfl).worker⟩
      | post item => exact ⟨_, (At.begin ⟨rfl, hidle, rfl⟩ rfl).worker⟩
      | _ => cases ha
    obtain ⟨e, hasks⟩ := hasks
    obtain ⟨hclosing', hasks'⟩ := asking_run (closing_step hclosing _) hasks hothers
    have hrefused := At.refused ⟨rfl, hasks', rfl⟩ hclosing'
    exact ⟨hrefused.answers, hrefused.worker⟩

/-- A worker takes the lock and queues two items. In between the reactor uses up the wakeup of the
first, finds the lock taken, and stores the wakeup again. -/
def contended : List Move :=
  [.worker 0 .lock, .worker 0 .go, .worker 0 .go, .worker 0 (.push (.close 1000)), .worker 0 .go,
    .reactor .wakeup, .reactor .go, .worker 0 (.push (.close 1001)), .worker 0 .go, .reactor .go,
    .reactor .rest, .worker 0 .release]

/-- The connection closes while a worker has the lock. -/
def closing : List Move :=
  [.worker 0 .lock, .worker 0 .go, .worker 0 .go, .reactor .event, .reactor .shut, .reactor .go]

theorem delivered_in_order_contended :
    (({} : Shared).run contended).outbox.items = [.close 1000, .close 1001] ∧
      (({} : Shared).run contended).outbox.awake = true ∧
      (({} : Shared).run (contended ++ [.reactor .wakeup, .reactor .go, .reactor .go])).taken =
        [.close 1000, .close 1001] ∧
      (({} : Shared).run (closing ++ [.worker 1 (.post (.close 1002)), .reactor .go,
        .worker 0 .release, .worker 1 .go])).answers = [(0, .ok ()), (1, .error .gone)] := by
  have hfree : ∀ w, ((({} : Shared).run contended).worker w).holds = false := by
    intro w
    by_cases hw : w = 0
    · subst hw
      rfl
    · simp [contended, run, Shared.step, workerStep, Shared.reactorStep, hw, Stage.holds]
  obtain ⟨-, hwakeup, -⟩ := delivered_in_order contended
  obtain ⟨-, -, hrefused⟩ := delivered_in_order closing
  obtain ⟨hawake, htaken, -⟩ := hwakeup hfree rfl (by decide)
  refine ⟨rfl, hawake, htaken, ?_⟩
  exact (hrefused rfl 1 (.post (.close 1002)) rfl rfl [.reactor .go, .worker 0 .release]
    (by simp)).1

end Shared

end WireServer.Outbox
