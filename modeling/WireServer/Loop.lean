/-! Loops as rounds that go on or end. -/

namespace WireServer.Loop

variable {σ β : Type}

/-- What a loop comes to if it ends within so many rounds. -/
def run (round : σ → σ ⊕ β) : Nat → σ → Option β
  | 0, _ => none
  | n + 1, s =>
    match round s with
    | .inl s => run round n s
    | .inr b => some b

theorem run_of_le {round : σ → σ ⊕ β} {n m : Nat} {s : σ} {b : β} (h : run round n s = some b)
    (hle : n ≤ m) : run round m s = some b := by
  induction n generalizing m s with
  | zero => cases h
  | succ n ih =>
    obtain ⟨m, rfl⟩ : ∃ k, m = k + 1 := ⟨m - 1, by omega⟩
    rw [run] at h ⊢
    cases hs : round s with
    | inl s' =>
      rw [hs] at h
      exact ih h (by omega)
    | inr c =>
      rw [hs] at h
      exact h

/-- A loop ends if a measure falls with each round that goes on, and what every round keeps holds in
front of the last one. -/
theorem exists_run {round : σ → σ ⊕ β} {Inv : σ → Prop} {measure : σ → Nat}
    (hround : ∀ s s', Inv s → round s = .inl s' → Inv s' ∧ measure s' < measure s) {n : Nat} {s : σ}
    (hs : Inv s) (hn : measure s < n) :
    ∃ last b, Inv last ∧ round last = .inr b ∧ run round n s = some b := by
  induction n generalizing s with
  | zero => exact absurd hn (Nat.not_lt_zero _)
  | succ n ih =>
    cases h : round s with
    | inl s' =>
      obtain ⟨hs', hless⟩ := hround s s' hs h
      obtain ⟨last, b, hlast, hend, hrun⟩ := ih hs' (by omega)
      exact ⟨last, b, hlast, hend, by rw [run, h]; exact hrun⟩
    | inr b => exact ⟨s, b, hs, h, by rw [run, h]⟩

/-- A recursion that unrolls into the rounds comes to what the loop comes to. -/
theorem eq_of_run {round : σ → σ ⊕ β} {f : Nat → σ → β}
    (hf : ∀ n s, f (n + 1) s = (round s).elim (f n) id) {n : Nat} {s : σ} {b : β}
    (h : run round n s = some b) : f n s = b := by
  induction n generalizing s with
  | zero => cases h
  | succ n ih =>
    rw [run] at h
    rw [hf]
    cases hs : round s with
    | inl s' =>
      rw [hs] at h
      exact ih h
    | inr c =>
      rw [hs] at h
      cases h
      rfl

end WireServer.Loop
