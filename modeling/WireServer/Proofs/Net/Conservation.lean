import WireServer.Proofs.Net.Sending

/-! Output is conserved, whatever the socket does: over any use of a chain, what the socket took and
what still waits are together all that was ever queued, in its order. Each send offers the front of
what waits, in few enough slices and none of them empty. -/

namespace WireServer.Net

variable {σ : Type}

/-- One vectored send: the slices that the socket was offered, and its answer. -/
structure Offer where
  slices : List Bytes
  answer : SendAnswer
  deriving DecidableEq

/-- The bytes that the socket took. -/
def Offer.taken (o : Offer) : Bytes :=
  match o.answer with
  | .accepted n => o.slices.flatten.take n
  | .failed _ => []

/-- The same socket with all that it was offered. -/
def Sender.logged (t : Sender σ) : Sender (σ × List Offer) where
  send s slices :=
    let (s', answer) := t.send s.1 slices
    ((s', s.2 ++ [⟨slices, answer⟩]), answer)

/-- A call that sends from a chain: the chain in front of it and behind it, the vectored sends that
it made, and what it came to. -/
structure Sending where
  maxSlices : Nat
  before : Chain
  offers : List Offer
  after : Chain
  result : Except Fault SendStatus

/-- The call on a socket in some state. -/
def Sending.of (t : Sender σ) (s : σ) (c : Chain) (maxSlices : Nat) : Sending :=
  let (io, after, result) := sendChain t.logged (s, []) c maxSlices
  { maxSlices, before := c, offers := io.2, after, result }

/-- Logging does not change what is sent. -/
theorem sendChain_logged (t : Sender σ) (s : σ × List Offer) (c : Chain) (maxSlices : Nat) :
    Prod.map Prod.fst id (sendChain t.logged s c maxSlices) = sendChain t s.1 c maxSlices := by
  unfold sendChain
  split
  · rfl
  · rcases hsend : t.send s.1 (c.slices (max maxSlices 1)) with ⟨s', (_ | n) | fault⟩
    all_goals simp only [Sender.logged, hsend]
    · rfl
    · split <;> rfl
    · split <;> rfl

/-! ### One call -/

/-- What is offered is the front of the chain, in slices with something in them. -/
structure Offer.Fair (o : Offer) (c : Chain) (maxSlices : Nat) : Prop where
  few : o.slices.length ≤ max maxSlices 1
  filled : ∀ bs ∈ o.slices, bs ≠ []
  front : o.slices.flatten <+: c.toBytes

/-- The socket took nothing. -/
def Offer.Idle (o : Offer) : Prop := o.answer = .accepted 0 ∨ ∃ fault, o.answer = .failed fault

/-- What the call makes of the answer of a socket that took nothing. -/
def Offer.verdict (o : Offer) : Except Fault SendStatus :=
  match o.answer with
  | .accepted _ => .error .writeZero
  | .failed fault => if fault.transient then .ok .pending else .error fault

/-- What holds of one call. -/
structure Sending.Sound (x : Sending) : Prop where
  fair : ∀ o ∈ x.offers, o.Fair x.before x.maxSlices
  /-- There is one vectored send, or none if nothing waits. -/
  offered : x.offers.length = if x.before.toBytes = [] then 0 else 1
  drained : x.result = .ok .drained ↔ x.after.buckets = []
  untouched : ∀ o ∈ x.offers, o.Idle → x.after = x.before ∧ x.result = o.verdict
  conserved : x.offers.flatMap Offer.taken ++ x.after.toBytes = x.before.toBytes

theorem Chain.slices_fair (c : Chain) (maxSlices : Nat) (answer : SendAnswer) :
    Offer.Fair ⟨c.slices (max maxSlices 1), answer⟩ c maxSlices := by
  refine ⟨List.length_take_le _ _, fun bs hbs => ?_, c.flatten_slices_prefix _⟩
  have hfilled := (List.mem_filter.1 (List.mem_of_mem_take hbs)).2
  rintro rfl
  cases hfilled

theorem Chain.buckets_ne_nil {c : Chain} (h : c.toBytes ≠ []) : c.buckets ≠ [] := by
  intro hnone
  exact h (by simp [toBytes, hnone])

/-- A socket takes at most what is offered, so what it takes is the front of what waits. -/
theorem Chain.take_slices (c : Chain) {maxSlices n : Nat}
    (hn : n ≤ (c.slices maxSlices).flatten.length) :
    (c.slices maxSlices).flatten.take n = c.toBytes.take n := by
  obtain ⟨more, hmore⟩ := c.flatten_slices_prefix maxSlices
  rw [← hmore, List.take_append_of_le_length hn]

section Calls

variable {t : Sender σ} {s : σ} {c : Chain} {maxSlices : Nat}

/-- With nothing to send the socket is left alone. -/
theorem Sending.sound_of_empty (hnone : c.toBytes = []) : (Sending.of t s c maxSlices).Sound := by
  have hof : Sending.of t s c maxSlices = ⟨maxSlices, c, [], .empty, .ok .drained⟩ := by
    simp [Sending.of, sendChain, Chain.total_eq_zero_iff.2 hnone]
  rw [hof]
  exact ⟨nofun, (if_pos hnone).symm, ⟨fun _ => rfl, fun _ => rfl⟩, nofun, hnone.symm⟩

/-- A socket that takes nothing leaves the chain as it is. -/
theorem Sending.sound_of_idle (hwaits : c.toBytes ≠ []) {answer : SendAnswer}
    (hanswer : (t.send s (c.slices (max maxSlices 1))).2 = answer)
    (hidle : Offer.Idle ⟨c.slices (max maxSlices 1), answer⟩) :
    (Sending.of t s c maxSlices).Sound := by
  have htotal : c.total ≠ 0 := mt Chain.total_eq_zero_iff.1 hwaits
  have hof : Sending.of t s c maxSlices =
      ⟨maxSlices, c, [⟨c.slices (max maxSlices 1), answer⟩], c,
        Offer.verdict ⟨c.slices (max maxSlices 1), answer⟩⟩ := by
    rcases hsend : t.send s (c.slices (max maxSlices 1)) with ⟨s', n⟩
    rw [hsend] at hanswer
    subst hanswer
    rcases hidle with hzero | ⟨fault, hfault⟩
    · cases hzero
      simp [Sending.of, sendChain, Sender.logged, htotal, hsend, Offer.verdict]
    · cases hfault
      cases htransient : fault.transient <;>
        simp [Sending.of, sendChain, Sender.logged, htotal, hsend, Offer.verdict, htransient]
  have hverdict : Offer.verdict ⟨c.slices (max maxSlices 1), answer⟩ ≠ .ok .drained := by
    rcases hidle with hzero | ⟨fault, hfault⟩
    · cases hzero
      exact nofun
    · cases hfault
      cases htransient : fault.transient <;> simp [Offer.verdict, htransient]
  have htaken : Offer.taken ⟨c.slices (max maxSlices 1), answer⟩ = [] := by
    rcases hidle with hzero | ⟨fault, hfault⟩
    · cases hzero
      rfl
    · cases hfault
      rfl
  rw [hof]
  refine ⟨?_, (if_neg hwaits).symm, ⟨fun h => absurd h hverdict, fun h =>
    absurd h (Chain.buckets_ne_nil hwaits)⟩, ?_, by simp [htaken]⟩
  · simpa using c.slices_fair maxSlices answer
  · simp

/-- What a socket takes is gone from the front of the chain. -/
theorem Sending.sound_of_accepted (ht : t.Honest) (hwaits : c.toBytes ≠ []) {n : Nat}
    (hanswer : (t.send s (c.slices (max maxSlices 1))).2 = .accepted (n + 1)) :
    (Sending.of t s c maxSlices).Sound := by
  have htotal : c.total ≠ 0 := mt Chain.total_eq_zero_iff.1 hwaits
  have hconserved : (c.slices (max maxSlices 1)).flatten.take (n + 1) ++
      (c.consume (n + 1)).1.toBytes = c.toBytes := by
    rw [c.take_slices (ht _ _ _ hanswer), Chain.toBytes_consume, List.take_append_drop]
  have hfair := c.slices_fair maxSlices (.accepted (n + 1))
  rcases hsend : t.send s (c.slices (max maxSlices 1)) with ⟨s', answer⟩
  rw [hsend] at hanswer
  subst hanswer
  by_cases hlast : (c.consume (n + 1)).1.toBytes = []
  · have hof : Sending.of t s c maxSlices = ⟨maxSlices, c,
        [⟨c.slices (max maxSlices 1), .accepted (n + 1)⟩], .empty, .ok .drained⟩ := by
      simp [Sending.of, sendChain, Sender.logged, htotal, hsend, Chain.total_eq_zero_iff.2 hlast]
    rw [hlast] at hconserved
    rw [hof]
    exact ⟨by simpa using hfair, (if_neg hwaits).symm, ⟨fun _ => rfl, fun _ => rfl⟩,
      by simp [Offer.Idle], by simpa [Offer.taken] using hconserved⟩
  · have htotal' : (c.consume (n + 1)).1.total ≠ 0 := mt Chain.total_eq_zero_iff.1 hlast
    have hof : Sending.of t s c maxSlices = ⟨maxSlices, c,
        [⟨c.slices (max maxSlices 1), .accepted (n + 1)⟩], (c.consume (n + 1)).1,
        .ok .pending⟩ := by
      simp [Sending.of, sendChain, Sender.logged, htotal, hsend, htotal']
    rw [hof]
    exact ⟨by simpa using hfair, (if_neg hwaits).symm,
      ⟨nofun, fun h => absurd h (Chain.buckets_ne_nil hlast)⟩,
      by simp [Offer.Idle], by simpa [Offer.taken] using hconserved⟩

/-- The call as it goes without the log. -/
theorem Sending.of_eq (t : Sender σ) (s : σ) (c : Chain) (maxSlices : Nat) :
    (Sending.of t s c maxSlices).after = (sendChain t s c maxSlices).2.1 ∧
      (Sending.of t s c maxSlices).result = (sendChain t s c maxSlices).2.2 := by
  rw [← sendChain_logged t (s, []) c maxSlices]
  exact ⟨rfl, rfl⟩

theorem Sending.sound (ht : t.Honest) (s : σ) (c : Chain) (maxSlices : Nat) :
    (Sending.of t s c maxSlices).Sound := by
  by_cases hwaits : c.toBytes = []
  · exact Sending.sound_of_empty hwaits
  cases hanswer : (t.send s (c.slices (max maxSlices 1))).2 with
  | accepted n =>
    cases n with
    | zero => exact Sending.sound_of_idle hwaits hanswer (.inl rfl)
    | succ n => exact Sending.sound_of_accepted ht hwaits hanswer
  | failed fault => exact Sending.sound_of_idle hwaits hanswer (.inr ⟨fault, rfl⟩)

end Calls

theorem ScriptedSocket.honest : ScriptedSocket.sender.Honest := by
  intro s slices n hn
  simp only [sender, send] at hn
  split at hn
  · cases hn
    exact List.length_take_le' _ _
  · cases hn
    exact List.length_take_le' _ _
  · cases hn

/-! ### Runs -/

/-- What is done with a chain. -/
inductive Use where
  | push (bs : Bytes)
  | append (other : Chain)
  | send (maxSlices : Nat)

/-- A chain in use, with its socket, all that was ever queued, and the calls that sent from it. -/
structure Outlet (σ : Type) where
  io : σ
  chain : Chain := {}
  queued : Bytes := chain.toBytes
  sendings : List Sending := []

namespace Outlet

def use (t : Sender σ) (o : Outlet σ) : Use → Outlet σ
  | .push bs => { o with chain := o.chain.push bs, queued := o.queued ++ bs }
  | .append other => { o with chain := o.chain.append other, queued := o.queued ++ other.toBytes }
  | .send maxSlices => { o with
      io := (sendChain t o.io o.chain maxSlices).1
      chain := (sendChain t o.io o.chain maxSlices).2.1
      sendings := o.sendings ++ [.of t o.io o.chain maxSlices] }

def run (t : Sender σ) (o : Outlet σ) (uses : List Use) : Outlet σ := uses.foldl (use t) o

/-- All that the socket took. -/
def accepted (o : Outlet σ) : Bytes := (o.sendings.flatMap Sending.offers).flatMap Offer.taken

/-- Nothing was lost, sent twice or sent out of turn, and every call was sound. -/
structure Conserves (o : Outlet σ) : Prop where
  balance : o.accepted ++ o.chain.toBytes = o.queued
  sound : ∀ x ∈ o.sendings, x.Sound

theorem Conserves.next {t : Sender σ} (ht : t.Honest) {o : Outlet σ} (h : o.Conserves) (u : Use) :
    (o.use t u).Conserves := by
  cases u with
  | push bs =>
    refine ⟨?_, h.sound⟩
    rw [use, Chain.toBytes_push, ← List.append_assoc, ← h.balance]
    rfl
  | append other =>
    refine ⟨?_, h.sound⟩
    rw [use, Chain.toBytes_append, ← List.append_assoc, ← h.balance]
    rfl
  | send maxSlices =>
    have hcall := Sending.sound ht o.io o.chain maxSlices
    refine ⟨?_, fun x hx => ?_⟩
    · have hbalance := h.balance
      simp only [accepted, use, List.flatMap_append, List.flatMap_singleton, List.append_assoc]
        at hbalance ⊢
      rw [← hbalance, ← (Sending.of_eq t o.io o.chain maxSlices).1]
      exact congrArg _ hcall.conserved
    · rcases List.mem_append.1 hx with hx | hx
      · exact h.sound x hx
      · exact List.mem_singleton.1 hx ▸ hcall

/-- Over any run of pushes, appends and sends, on any socket that takes no more than it is offered,
what the socket took and what waits are together all that was queued, and every call that sends is
sound. -/
theorem accepted_append_waiting {t : Sender σ} (ht : t.Honest) (io : σ) (c : Chain)
    (uses : List Use) :
    (run t { io, chain := c } uses).accepted ++ (run t { io, chain := c } uses).chain.toBytes =
        (run t { io, chain := c } uses).queued ∧
      ∀ x ∈ (run t { io, chain := c } uses).sendings, x.Sound := by
  have hkeeps (o : Outlet σ) (h : o.Conserves) : (run t o uses).Conserves := by
    induction uses generalizing o with
    | nil => exact h
    | cons u uses ih => exact ih _ (h.next ht u)
  obtain ⟨hbalance, hsound⟩ := hkeeps { io, chain := c } ⟨rfl, nofun⟩
  exact ⟨hbalance, hsound⟩

/-- A socket that takes three bytes, blocks, takes nothing, breaks, and then takes the rest. -/
def reluctant : ScriptedSocket where
  script := [.accepted 3, .failed .wouldBlock, .accepted 0, .failed .brokenPipe]

/-- Empty ranges between others, a range that was sent in part before, and room for one slice. -/
def mixed : List Use :=
  [.push [1, 2, 3, 4], .push [], .send 0, .append ⟨[⟨7, [5]⟩, ⟨0, []⟩]⟩, .send 1, .send 2, .send 3,
    .push [6], .send 0, .send 9, .send 9]

theorem accepted_append_waiting_reluctant :
    (run ScriptedSocket.sender { io := reluctant } mixed).accepted ++
        (run ScriptedSocket.sender { io := reluctant } mixed).chain.toBytes = [1, 2, 3, 4, 5, 6] ∧
      (run ScriptedSocket.sender { io := reluctant } mixed).sendings.map (·.result) =
        [.ok .pending, .ok .pending, .error .writeZero, .error .brokenPipe, .ok .pending,
          .ok .drained, .ok .drained] ∧
      ∀ x ∈ (run ScriptedSocket.sender { io := reluctant } mixed).sendings, x.Sound :=
  have h := accepted_append_waiting ScriptedSocket.honest reluctant {} mixed
  ⟨h.1.trans rfl, rfl, h.2⟩

end Outlet

end WireServer.Net
