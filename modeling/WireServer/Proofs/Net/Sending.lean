import WireServer.Net.Socket

/-! Sending takes bytes off the front of a chain and nothing else: what a socket took and what is
left are together what was there. -/

namespace WireServer.Net

namespace Chain

@[simp] theorem toBytes_empty : empty.toBytes = [] := rfl

theorem toBytes_cons (b : Bucket) (bs : List Bucket) :
    toBytes ⟨b :: bs⟩ = b.rest ++ toBytes ⟨bs⟩ := by
  simp [toBytes]

theorem toBytes_consumeBuckets (bs : List Bucket) (n : Nat) :
    toBytes ⟨(consumeBuckets bs n).1⟩ = (toBytes ⟨bs⟩).drop n := by
  induction bs generalizing n with
  | nil => simp [consumeBuckets, toBytes]
  | cons b bs ih =>
    rw [consumeBuckets]
    split
    · rename_i h
      rw [toBytes_cons, toBytes_cons, List.drop_append_of_le_length (Nat.le_of_lt h)]
      rfl
    · rename_i h
      rw [ih, toBytes_cons, List.drop_append, List.drop_of_length_le (Nat.le_of_not_lt h),
        List.nil_append]

/-- Bytes that were sent are gone from the front. -/
theorem toBytes_consume (c : Chain) (n : Nat) : (c.consume n).1.toBytes = c.toBytes.drop n :=
  toBytes_consumeBuckets c.buckets n

theorem flatten_filter (l : List Bytes) : (l.filter fun bs => !bs.isEmpty).flatten = l.flatten := by
  induction l with
  | nil => rfl
  | cons bs l ih => cases bs <;> simp [ih]

/-- What is offered to the socket is the front of what waits. -/
theorem flatten_slices_prefix (c : Chain) (max : Nat) : (c.slices max).flatten <+: c.toBytes := by
  have hall : c.toBytes = ((c.buckets.map Bucket.rest).filter fun bs => !bs.isEmpty).flatten :=
    (flatten_filter _).symm
  rw [hall, slices]
  refine ⟨(((c.buckets.map Bucket.rest).filter fun bs => !bs.isEmpty).drop max).flatten, ?_⟩
  rw [← List.flatten_append, List.take_append_drop]

theorem total_eq_zero_iff {c : Chain} : c.total = 0 ↔ c.toBytes = [] := by
  rw [total, List.length_eq_zero_iff]

end Chain

/-- A socket takes no more than it is offered. -/
def Sender.Honest {σ : Type} (t : Sender σ) : Prop :=
  ∀ s slices n, (t.send s slices).2 = .accepted n → n ≤ slices.flatten.length

theorem MemorySocket.honest : MemorySocket.socket.toSender.Honest := by
  intro s slices n hn
  simp only [socket, send] at hn
  split at hn
  · cases hn
  unfold accept at hn
  split at hn
  · cases hn
    exact Nat.le_refl _
  · cases hn
  · cases hn
    exact List.length_take_le' _ _

/-- The same socket with all that it took. -/
def Sender.recorded {σ : Type} (t : Sender σ) : Sender (σ × Bytes) where
  send s slices :=
    match t.send s.1 slices with
    | (s', .accepted n) => ((s', s.2 ++ slices.flatten.take n), .accepted n)
    | (s', .failed fault) => ((s', s.2), .failed fault)

/-- Two sockets that agree about what is common to them send the same. -/
theorem sendChain_map {σ ρ : Type} {t : Sender σ} {u : Sender ρ} (f : σ → ρ)
    (h : ∀ s slices, Prod.map f id (t.send s slices) = u.send (f s) slices) (s : σ) (c : Chain)
    (max : Nat) : Prod.map f id (sendChain t s c max) = sendChain u (f s) c max := by
  unfold sendChain
  rw [← h s (c.slices (Nat.max max 1))]
  split
  · rfl
  rcases t.send s (c.slices (Nat.max max 1)) with ⟨s', (_ | n) | fault⟩
  · rfl
  · by_cases hnone : (c.consume (n + 1)).1.total = 0 <;> simp [hnone]
  · by_cases hlater : fault.transient <;> simp [hlater]

/-- Recording does not change what is sent. -/
theorem sendChain_plain {σ : Type} (t : Sender σ) (s : σ × Bytes) (c : Chain) (max : Nat) :
    Prod.map Prod.fst id (sendChain t.recorded s c max) = sendChain t s.1 c max := by
  refine sendChain_map Prod.fst (fun s slices => ?_) s c max
  simp only [Sender.recorded]
  rcases t.send s.1 slices with ⟨s', n | fault⟩ <;> rfl

/-- What is left of a chain is its end. -/
theorem sendChain_suffix {σ : Type} (t : Sender σ) (s : σ) (c : Chain) (max : Nat) :
    (sendChain t s c max).2.1.toBytes <:+ c.toBytes := by
  unfold sendChain
  split
  · exact List.nil_suffix
  rcases t.send s (c.slices (Nat.max max 1)) with ⟨s', n | fault⟩
  · cases n with
    | zero => exact List.suffix_rfl
    | succ n =>
      simp only
      split
      · exact List.nil_suffix
      · rw [Chain.toBytes_consume]
        exact List.drop_suffix _ _
  · simp only
    split <;> exact List.suffix_rfl

/-- What no single send changes, sending a chain does not change. -/
theorem sendChain_frame {σ ρ : Type} {t : Sender σ} (f : σ → ρ)
    (hsend : ∀ s slices, f (t.send s slices).1 = f s) (s : σ) (c : Chain) (max : Nat) :
    f (sendChain t s c max).1 = f s := by
  have hframe := hsend s (c.slices (Nat.max max 1))
  unfold sendChain
  split
  · rfl
  rcases ht : t.send s (c.slices (Nat.max max 1)) with ⟨s', (_ | n) | fault⟩
  all_goals rw [ht] at hframe
  · exact hframe
  · simp only
    split <;> exact hframe
  · simp only
    split <;> exact hframe

/-- A chain is drained when nothing is left of it, and only then. -/
theorem sendChain_status {σ : Type} (t : Sender σ) (s : σ) (c : Chain) (max : Nat) :
    ((sendChain t s c max).2.2 = .ok .drained → (sendChain t s c max).2.1 = .empty) ∧
      ((sendChain t s c max).2.2 = .ok .pending → (sendChain t s c max).2.1.toBytes ≠ []) := by
  unfold sendChain
  split
  · exact ⟨fun _ => rfl, nofun⟩
  rename_i hwaits
  rw [Chain.total_eq_zero_iff] at hwaits
  rcases t.send s (c.slices (Nat.max max 1)) with ⟨s', (_ | n) | fault⟩
  · exact ⟨nofun, nofun⟩
  · simp only
    split
    · exact ⟨fun _ => rfl, nofun⟩
    · rename_i hleft
      exact ⟨nofun, fun _ => mt Chain.total_eq_zero_iff.2 hleft⟩
  · simp only
    split
    · exact ⟨nofun, fun _ => hwaits⟩
    · exact ⟨nofun, nofun⟩

/-- Unless it is drained, something is left to send. -/
theorem sendChain_drained_iff {σ : Type} (t : Sender σ) (s : σ) (c : Chain) (max : Nat) :
    (sendChain t s c max).2.2 = .ok .drained ↔ (sendChain t s c max).2.1.total = 0 := by
  unfold sendChain
  split
  · exact ⟨fun _ => rfl, fun _ => rfl⟩
  rename_i hwaits
  rcases t.send s (c.slices (Nat.max max 1)) with ⟨s', (_ | n) | fault⟩
  · exact ⟨nofun, fun h => absurd h hwaits⟩
  · simp only
    split
    · exact ⟨fun _ => rfl, fun _ => rfl⟩
    · rename_i hleft
      exact ⟨nofun, fun h => absurd h hleft⟩
  · simp only
    split <;> exact ⟨nofun, fun h => absurd h hwaits⟩

/-- A log of what a socket takes, which is never more than it is offered. -/
def Sender.Logs {σ : Type} (t : Sender σ) (log : σ → Bytes) : Prop :=
  ∀ s slices, match t.send s slices with
    | (s', .accepted n) => n ≤ slices.flatten.length ∧ log s' = log s ++ slices.flatten.take n
    | (s', .failed _) => log s' = log s

/-- No byte is lost, sent twice or sent out of turn. -/
theorem sendChain_logs {σ : Type} {t : Sender σ} {log : σ → Bytes} (ht : t.Logs log) (s : σ)
    (c : Chain) (max : Nat) :
    log (sendChain t s c max).1 ++ (sendChain t s c max).2.1.toBytes = log s ++ c.toBytes := by
  unfold sendChain
  split
  · rename_i hnone
    rw [Chain.toBytes_empty, Chain.total_eq_zero_iff.1 hnone]
  have hprefix := c.flatten_slices_prefix (Nat.max max 1)
  have hlog := ht s (c.slices (Nat.max max 1))
  rcases hsend : t.send s (c.slices (Nat.max max 1)) with ⟨s', n | fault⟩
  · simp only [hsend] at hlog
    obtain ⟨hn, hlog⟩ := hlog
    have htake : (c.slices (Nat.max max 1)).flatten.take n = c.toBytes.take n := by
      obtain ⟨more, hmore⟩ := hprefix
      rw [← hmore, List.take_append_of_le_length hn]
    rw [htake] at hlog
    have hall : log s' ++ c.toBytes.drop n = log s ++ c.toBytes := by
      rw [hlog, List.append_assoc, List.take_append_drop]
    cases n with
    | zero => exact hall
    | succ n =>
      simp only
      split
      · rename_i hnone
        rw [Chain.total_eq_zero_iff, Chain.toBytes_consume] at hnone
        rw [Chain.toBytes_empty, ← hnone]
        exact hall
      · rw [Chain.toBytes_consume]
        exact hall
  · simp only [hsend] at hlog
    simp only
    split <;> rw [hlog]

theorem sendChain_recorded {σ : Type} {t : Sender σ} (ht : t.Honest) (s : σ × Bytes) (c : Chain)
    (max : Nat) :
    (sendChain t.recorded s c max).1.2 ++ (sendChain t.recorded s c max).2.1.toBytes =
      s.2 ++ c.toBytes := by
  have hlogs : t.recorded.Logs Prod.snd := by
    intro s slices
    have hhonest := ht s.1 slices
    simp only [Sender.recorded]
    rcases hsend : t.send s.1 slices with ⟨s', n | fault⟩
    · exact ⟨hhonest n (by rw [hsend]), rfl⟩
    · rfl
  exact sendChain_logs hlogs s c max

end WireServer.Net
