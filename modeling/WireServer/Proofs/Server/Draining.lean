import Mathlib.Data.List.Basic
import WireServer.Server.Serving

/-! A server that stops waits for the last of its connections. Sockets are accepted, tasks go on,
end or unwind, and the stop comes, in any order; the count is right all along, so the server is not
done too early, and no notice is missed: when the last task has ended, the server looks or is
woken. -/

namespace WireServer.Server.Serving

variable {τ σ α π : Type}

/-- What happens to a server at work. -/
inductive Move (τ σ α π : Type) where
  | spawn (ctx : Context π) (io : τ) (now : Nat)
  /-- The task of a connection goes on, whatever it does. -/
  | poll (f : Connection τ σ α π → Connection τ σ α π) (i : Nat)
  | unwind (app : α) (i : Nat)
  /-- The server is asked to stop. -/
  | stop
  /-- The server itself goes on. -/
  | turn

def step (s : Serving τ σ α π) : Move τ σ α π → Serving τ σ α π
  | .spawn ctx io now => s.spawn ctx io now
  | .poll f i => s.poll f i
  | .unwind app i => s.unwind app i
  | .stop => { s with stopped := true }
  | .turn => s.turn

def run (s : Serving τ σ α π) (moves : List (Move τ σ α π)) : Serving τ σ α π :=
  moves.foldl step s

/-- How many tasks have not ended. -/
def unended (s : Serving τ σ α π) : Nat := s.connections.countP (·.phase ≠ .closed)

/-! ### What a server does are such moves -/

theorem accept_eq_run (h : Connection.Host τ σ α π) (now : Nat) (ctx : Context π) (session : σ)
    (io : τ) (s : Serving τ σ α π) : ∃ moves, s.accept h now ctx session io = s.run moves := by
  unfold accept
  split
  · exact ⟨[], rfl⟩
  · exact ⟨[.spawn ctx io now, .poll (fun c => Connection.start h ctx session c.desk.app io now)
      s.connections.length], rfl⟩

theorem driveAll_eq_run (h : Connection.Host τ σ α π) (now : Nat) (s : Serving τ σ α π) :
    ∃ moves, s.driveAll h now = s.run moves := by
  unfold driveAll
  induction List.range s.connections.length generalizing s with
  | nil => exact ⟨[], rfl⟩
  | cons i is ih =>
    obtain ⟨moves, hmoves⟩ := ih (s.drive h now i)
    exact ⟨.poll (·.runToRest h s.stopped now) i :: moves, hmoves⟩

/-! ### The invariant -/

/-- What every move keeps. -/
structure Sound (s : Serving τ σ α π) : Prop where
  counted : s.live.count = s.unended
  /-- A server that sleeps will be woken, or is woken already. -/
  noticed : s.asleep = true → s.unended = 0 → s.live.drained = true

section Moves

variable {s : Serving τ σ α π}

theorem Sound.spawn (h : s.Sound) (ctx : Context π) (io : τ) (now : Nat) :
    (s.spawn ctx io now).Sound := by
  unfold Serving.spawn
  split
  · exact h
  · constructor
    · simp [unended, Live.enter, h.counted]
    · simp [unended]

/-- A task that ends is one less. -/
theorem unended_set {i : Nat} (hi : i < s.connections.length)
    (hrunning : s.connections[i].phase ≠ .closed) (c : Connection τ σ α π) :
    0 < s.unended ∧ { s with connections := s.connections.set i c }.unended =
      if c.phase = .closed then s.unended - 1 else s.unended := by
  have hpos : 0 < s.unended :=
    List.countP_pos_iff.2 ⟨_, List.getElem_mem hi, decide_eq_true hrunning⟩
  refine ⟨hpos, ?_⟩
  rw [unended, List.countP_set hi, if_pos (decide_eq_true hrunning)]
  by_cases hended : c.phase = .closed
  · simp [hended, unended]
  · simp only [hended, ne_eq, not_false_eq_true, decide_true, if_true, if_false]
    exact Nat.sub_add_cancel hpos

theorem Sound.poll (h : s.Sound) (f : Connection τ σ α π → Connection τ σ α π) (i : Nat) :
    (s.poll f i).Sound := by
  unfold Serving.poll
  split
  · exact h
  rename_i c hc
  split
  · exact h
  rename_i hrunning
  obtain ⟨hi, rfl⟩ := List.getElem?_eq_some_iff.1 hc
  dsimp only
  generalize f _ = c'
  obtain ⟨hpos, hset⟩ := unended_set hi hrunning c'
  have hafter : ({ s with connections := s.connections.set i c' }.takeBack c').unended = _ := hset
  by_cases hended : c'.phase = .closed
  · rw [if_pos hended] at hafter
    -- the last task to end leaves a notice, whether the server sleeps yet or not
    refine ⟨?_, fun _ hnone => ?_⟩
    · rw [hafter]
      simp [takeBack, hended, Live.leave, h.counted]
    · have hlast : s.live.count ≤ 1 := by
        rw [h.counted]
        omega
      simp [takeBack, hended, Live.leave, hlast]
  · rw [if_neg hended] at hafter
    refine ⟨?_, fun _ hnone => ?_⟩
    · rw [hafter]
      simp [takeBack, hended, h.counted]
    · omega

theorem Sound.turn (h : s.Sound) : s.turn.Sound := by
  unfold Serving.turn
  split
  · split
    · exact ⟨h.counted, h.noticed⟩
    · exact h
  · split
    · split
      · exact ⟨h.counted, nofun⟩
      · exact h
    split
    · exact ⟨h.counted, h.noticed⟩
    · rename_i hsome
      exact ⟨h.counted, fun _ hnone => absurd (h.counted.trans hnone) hsome⟩
  · exact h

theorem Sound.step (h : s.Sound) (m : Move τ σ α π) : (s.step m).Sound := by
  cases m with
  | spawn ctx io now => exact h.spawn ctx io now
  | poll f i => exact h.poll f i
  | unwind app i =>
    rw [Serving.step, unwind]
    exact h.poll _ i
  | stop => exact ⟨h.counted, h.noticed⟩
  | turn => exact h.turn

theorem sound_fresh (app : α) : ({ app } : Serving τ σ α π).Sound :=
  ⟨rfl, fun hasleep => absurd hasleep (by simp)⟩

theorem Sound.run (h : s.Sound) (moves : List (Move τ σ α π)) : (s.run moves).Sound := by
  induction moves generalizing s with
  | nil => exact h
  | cons m moves ih => exact ih (h.step m)

end Moves

/-! ### The wait -/

section Wait

variable {s : Serving τ σ α π}

theorem phase_poll (f : Connection τ σ α π → Connection τ σ α π) (i : Nat) :
    (s.poll f i).phase = s.phase := by
  unfold poll
  split
  · rfl
  split <;> rfl

/-- A server comes to its end by looking at the count. -/
theorem stopped_step {m : Move τ σ α π} (h : (s.step m).phase = .stopped)
    (hbefore : s.phase ≠ .stopped) :
    s.phase = .stopGraceful ∧ s.asleep = false ∧ s.live.count = 0 := by
  cases m with
  | spawn ctx io now =>
    refine absurd ?_ hbefore
    rw [step, spawn] at h
    split at h <;> exact h
  | poll f i => exact absurd ((phase_poll f i).symm.trans h) hbefore
  | unwind app i =>
    rw [step, unwind] at h
    exact absurd ((phase_poll _ i).symm.trans h) hbefore
  | stop => exact absurd h hbefore
  | turn =>
    rw [step, turn] at h
    split at h
    · next hphase => split at h <;> simp [hphase] at h
    · next hphase =>
      split at h
      · split at h <;> simp [hphase] at h
      split at h
      · next hawake hnone => exact ⟨hphase, by simpa using hawake, hnone⟩
      · simp [hphase] at h
    · exact absurd h hbefore

theorem turn_of_none (hphase : s.phase = .stopGraceful) (hawake : s.asleep = false)
    (hnone : s.live.count = 0) : s.turn.phase = .stopped := by
  simp [turn, hphase, hawake, hnone]

theorem turn_of_notice (hphase : s.phase = .stopGraceful) (hasleep : s.asleep = true)
    (hnotice : s.live.drained = true) :
    s.turn = { s with asleep := false, live := s.live.settle } := by
  simp [turn, hphase, hasleep, hnotice]

end Wait

/-- Whatever happens to a server, in any order: its count is the number of tasks that have not
ended, so it is positive whenever one is about to end. The server comes to its end only out of its
wait, when it looks and no task is left. And when no task is left while it waits, or before, then it
is about to look, or sleeps with a notice stored for it that makes it look. -/
theorem waits_for_last (app : α) (moves : List (Move τ σ α π)) :
    let s := ({ app } : Serving τ σ α π).run moves
    s.live.count = s.unended ∧
    (∀ c ∈ s.connections, c.phase ≠ .closed → 0 < s.live.count) ∧
    (∀ m, (s.step m).phase = .stopped → s.phase ≠ .stopped →
      s.phase = .stopGraceful ∧ s.asleep = false ∧ s.unended = 0) ∧
    (s.phase = .stopGraceful → s.unended = 0 →
      s.asleep = false ∧ s.turn.phase = .stopped ∨
      s.asleep = true ∧ s.live.drained = true ∧ s.turn.turn.phase = .stopped) := by
  intro s
  have hsound : s.Sound := (sound_fresh app).run moves
  refine ⟨hsound.counted, fun c hc hrunning => ?_, fun m hstopped hbefore => ?_,
    fun hphase hnone => ?_⟩
  · rw [hsound.counted]
    exact List.countP_pos_iff.2 ⟨c, hc, decide_eq_true hrunning⟩
  · rw [← hsound.counted]
    exact stopped_step hstopped hbefore
  · have hcount : s.live.count = 0 := hsound.counted.trans hnone
    cases hasleep : s.asleep with
    | false => exact .inl ⟨rfl, turn_of_none hphase hasleep hcount⟩
    | true =>
      have hnotice := hsound.noticed hasleep hnone
      refine .inr ⟨rfl, hnotice, ?_⟩
      rw [turn_of_notice hphase hasleep hnotice]
      exact turn_of_none hphase rfl hcount

/-- A connection comes and goes and leaves a notice. While the next one is there the server is asked
to stop; it sleeps, is woken by the old notice, and sleeps again. -/
def oldNotice : List (Move Unit Unit Unit Unit) :=
  [.spawn {} () 0, .unwind () 0, .spawn {} () 0, .stop, .turn, .turn, .turn, .turn]

theorem waits_for_last_old_notice :
    let s := ({ app := () } : Serving Unit Unit Unit Unit).run oldNotice
    s.unended = 1 ∧ s.phase = .stopGraceful ∧ s.asleep = true ∧ s.live = ⟨1, false⟩ ∧
      (s.step (.unwind () 1)).live = ⟨0, true⟩ ∧
      (s.step (.unwind () 1)).turn.turn.phase = .stopped := by
  intro s
  obtain ⟨-, -, -, hwait⟩ := waits_for_last () (oldNotice ++ [.unwind () 1])
  have hwoken := (hwait rfl rfl).resolve_left (by decide)
  exact ⟨rfl, rfl, rfl, rfl, rfl, hwoken.2.2⟩

end WireServer.Server.Serving
