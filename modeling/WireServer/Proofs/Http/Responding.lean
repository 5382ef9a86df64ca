import WireServer.Proofs.Http.Answering

/-! What comes of a request when its responder is gone. Every call on a responder posts at most one
part, and posts none while somebody else holds the lock of the outbox. Nothing is posted again, so a
part lost at the end, or a head lost before it, leaves the request open for good. -/

namespace WireServer

/-- What was queued in between. -/
def Outbox.added (before after : Outbox) : List Item := after.items.drop before.items.length

/-- An item is queued unless another holds the lock. -/
theorem Outbox.added_send {o : Outbox} (hopen : o.closing = false) (item : Item) :
    o.added (o.send item).1 = if o.locked then [] else [item] := by
  unfold send post tryLock
  cases hlock : o.locked <;> simp [hopen, added, push, unlock]

theorem Outbox.added_self (o : Outbox) : o.added o = [] := by simp [added]

namespace Http.Responder

/-- A call that keeps the responder. -/
inductive Use where
  | start (head : ResponseHead)
  | write (data : Bytes)
  deriving DecidableEq, Repr

/-- A call that ends it. -/
inductive Farewell where
  | send (response : Response)
  | finish
  | drop
  deriving DecidableEq, Repr

def use (r : Responder) (o : Outbox) : Use → Responder × Outbox
  | .start head => ((r.start head o).1, (r.start head o).2.1)
  | .write data => (r, (r.write data o).1)

def leave (r : Responder) (o : Outbox) : Farewell → Outbox
  | .send response => (r.send response o).1
  | .finish => (r.finish o).1
  | .drop => r.drop o

/-- All that a responder posts in its life. Others use the outbox between its calls, so each call
finds one of its own. -/
def posts (r : Responder) : List (Outbox × Use) → Outbox × Farewell → List Item
  | [], (o, farewell) => o.added (r.leave o farewell)
  | (o, u) :: uses, last => o.added (r.use o u).2 ++ posts (r.use o u).1 uses last

/-- The outbox that the head of the response was posted to. -/
def headMet : List (Outbox × Use) → Option Outbox
  | [] => none
  | (o, .start _) :: _ => some o
  | (_, .write _) :: uses => headMet uses

/-- The head reached the response, or will reach it. -/
def HeadArrives {π : Type} (r : Responder) (p : Pending π) (uses : List (Outbox × Use)) : Prop :=
  if r.started then p.stage ≠ .waiting else ∀ o ∈ headMet uses, o.locked = false

section Calls

variable {π : Type} {r : Responder} {o : Outbox} {s : Session π}
  {front back : List (Pending π)} {p : Pending π}

/-- The response in the slot, when a part was posted for it to this outbox. -/
def meet (o : Outbox) (part : Part) (p : Pending π) : Pending π :=
  if o.locked then p else p.accept part

theorem meet_slot (part : Part) : (meet o part p).slot = p.slot := by
  unfold meet
  split <;> simp

theorem pending_post (hopen : o.closing = false) (hslot : r.slot = p.slot)
    (hpending : s.pending = front ++ p :: back) (hfront : ∀ q ∈ front, q.slot ≠ p.slot)
    (part : Part) :
    ((o.added (r.post part o).1).foldl Session.applyItem s).pending =
      front ++ meet o part p :: back := by
  rw [post, Outbox.added_send hopen, meet]
  cases o.locked with
  | true => simpa using hpending
  | false =>
    simp only [Bool.false_eq_true, if_false, List.foldl_cons, List.foldl_nil, Session.applyItem,
      Session.apply]
    rw [hpending, hslot, Session.applyToFirst_at hfront]

/-- The last part of a responder, and what it makes of the response. -/
theorem pending_leave (hopen : o.closing = false) (hslot : r.slot = p.slot)
    (hpending : s.pending = front ++ p :: back) (hfront : ∀ q ∈ front, q.slot ≠ p.slot)
    (hstage : p.stage ≠ .complete) (hfresh : r.started = false → p.stage = .waiting)
    (farewell : Farewell) :
    ∃ q, ((o.added (r.leave o farewell)).foldl Session.applyItem s).pending = front ++ q :: back ∧
      q.slot = p.slot ∧
      (q.isComplete ↔ o.locked = false ∧ (farewell = .finish → r.HeadArrives p [])) := by
  have hpost (part : Part) := pending_post hopen hslot hpending hfront part
  have hopenly : ¬ p.isComplete := by simpa [Pending.isComplete] using hstage
  -- an abort completes whatever it meets, so it only matters whether it is posted
  have habort : (meet o .abort p).isComplete ↔ o.locked = false := by
    unfold meet
    cases o.locked <;> simp [hopenly, Pending.accept_abort_isComplete]
  cases farewell with
  | send response =>
    cases hstarted : r.started with
    | true => exact ⟨_, by simpa [leave, send, hstarted, drop] using hpost .abort, meet_slot _,
        by simpa using habort⟩
    | false =>
      refine ⟨_, by simpa [leave, send, hstarted] using hpost (.full response), meet_slot _, ?_⟩
      unfold meet
      cases o.locked <;> simp [hopenly, Pending.accept_full_isComplete (hfresh hstarted)]
  | finish =>
    cases hstarted : r.started with
    | true =>
      refine ⟨_, by simpa [leave, finish, hstarted] using hpost .finish, meet_slot _, ?_⟩
      unfold meet
      cases o.locked <;>
        simp [hopenly, Pending.accept_finish_isComplete_iff, HeadArrives, hstarted]
    | false => exact ⟨_, by simpa [leave, finish, hstarted, drop] using hpost .abort, meet_slot _,
        by simpa [HeadArrives, hstarted, headMet] using habort⟩
  | drop => exact ⟨_, hpost .abort, meet_slot _, by simpa using habort⟩

/-- A call in between never completes the response, and only a head that arrives begins it. -/
theorem pending_use (hopen : o.closing = false) (hslot : r.slot = p.slot)
    (hpending : s.pending = front ++ p :: back) (hfront : ∀ q ∈ front, q.slot ≠ p.slot)
    (hstage : p.stage ≠ .complete) (hfresh : r.started = false → p.stage = .waiting)
    (u : Use) (uses : List (Outbox × Use)) :
    ∃ q, ((o.added (r.use o u).2).foldl Session.applyItem s).pending = front ++ q :: back ∧
      q.slot = p.slot ∧ q.stage ≠ .complete ∧ (r.use o u).1.slot = r.slot ∧
      ((r.use o u).1.started = false → q.stage = .waiting) ∧
      ((r.use o u).1.HeadArrives q uses ↔ r.HeadArrives p ((o, u) :: uses)) := by
  have hpost (part : Part) := pending_post hopen hslot hpending hfront part
  have hidle : ((o.added o).foldl Session.applyItem s).pending = front ++ p :: back := by
    rw [Outbox.added_self]
    exact hpending
  cases u with
  | start head =>
    cases hstarted : r.started with
    | true =>
      refine ⟨p, by simpa [use, start, hstarted] using hidle, rfl, hstage, ?_, ?_, ?_⟩ <;>
        simp [use, start, hstarted, HeadArrives]
    | false =>
      have hwaiting := hfresh hstarted
      obtain ⟨hbegun, hopenly⟩ := Pending.accept_head_stage hwaiting head
      refine ⟨meet o (.head head) p, by simpa [use, start, hstarted] using hpost (.head head),
        meet_slot _, ?_, ?_, ?_, ?_⟩
      · unfold meet
        split <;> assumption
      · simp [use, start, hstarted]
      · simp [use, start, hstarted]
      · unfold meet
        cases hlock : o.locked <;>
          simp [use, start, hstarted, HeadArrives, headMet, hlock, hbegun, hwaiting]
  | write data =>
    cases hstarted : r.started with
    | true =>
      obtain ⟨hwaiting, hcomplete⟩ := Pending.accept_data_stage (p := p) data
      refine ⟨meet o (.data data) p, by simpa [use, write, hstarted] using hpost (.data data),
        meet_slot _, ?_, rfl, by simp [use, hstarted], ?_⟩
      · unfold meet
        split
        · exact hstage
        · rwa [Ne, hcomplete]
      · unfold meet
        cases o.locked <;> simp [use, HeadArrives, hstarted, hwaiting]
    | false =>
      refine ⟨p, by simpa [use, write, hstarted] using hidle, rfl, hstage, rfl, ?_, ?_⟩
      · exact fun _ => hfresh hstarted
      · simp [use, HeadArrives, hstarted, headMet]

/-- The whole life of a responder, from any point on. -/
theorem pending_posts (hlast : o.closing = false) (hslot : r.slot = p.slot)
    (hpending : s.pending = front ++ p :: back) (hfront : ∀ q ∈ front, q.slot ≠ p.slot)
    (hstage : p.stage ≠ .complete) (hfresh : r.started = false → p.stage = .waiting)
    (uses : List (Outbox × Use)) (hopen : ∀ u ∈ uses, u.1.closing = false) (farewell : Farewell) :
    ∃ q, ((posts r uses (o, farewell)).foldl Session.applyItem s).pending = front ++ q :: back ∧
      q.slot = p.slot ∧
      (q.isComplete ↔ o.locked = false ∧ (farewell = .finish → r.HeadArrives p uses)) := by
  -- over the calls: the responder and its response stay in step until the last of them
  induction uses generalizing r p s with
  | nil => exact pending_leave hlast hslot hpending hfront hstage hfresh farewell
  | cons u uses ih =>
    rw [List.forall_mem_cons] at hopen
    obtain ⟨q, hq, hqslot, hqstage, hrslot, hqfresh, harrives⟩ :=
      pending_use hopen.1 hslot hpending hfront hstage hfresh u.2 uses
    obtain ⟨q', hq', hslot', hcomplete⟩ :=
      ih (hrslot.trans (hslot.trans hqslot.symm)) hq (by rwa [hqslot]) hqstage hqfresh hopen.2
    refine ⟨q', ?_, hslot'.trans hqslot, by rw [hcomplete, harrives]⟩
    rw [posts, List.foldl_append]
    exact hq'

end Calls

end Http.Responder

namespace Http.Session

variable {α π : Type} {slot : Nat}

/-- The first response is the one in this slot, and not complete. -/
def HeldBy (slot : Nat) (s : Session π) : Prop :=
  ∃ p ps, s.pending = p :: ps ∧ p.slot = slot ∧ p.stage ≠ .complete

theorem HeldBy.applyItem {s : Session π} (h : s.HeldBy slot) {item : Item}
    (hitem : ∀ part, item ≠ .answer slot part) : (s.applyItem item).HeldBy slot := by
  obtain ⟨p, ps, hpending, rfl, hstage⟩ := h
  cases item with
  | answer other part =>
    have hother : p.slot ≠ other := fun heq => hitem part (heq ▸ rfl)
    exact ⟨p, applyToFirst other part ps,
      by simp [Session.applyItem, apply, hpending, applyToFirst, hother], rfl, hstage⟩
  | frame flags payload => exact ⟨p, ps, hpending, rfl, hstage⟩
  | close code => exact ⟨p, ps, hpending, rfl, hstage⟩

theorem HeldBy.flushReady {s : Session π} (h : s.HeldBy slot) : s.flushReady.HeldBy slot := by
  obtain ⟨p, ps, hpending, rfl, hstage⟩ := h
  refine ⟨{ p with out := {} }, ps, ?_, rfl, hstage⟩
  simp [Session.flushReady, flushFront, hpending, Pending.isComplete, hstage]

/-- Only its own parts get a response out of the way of the others. -/
theorem HeldBy.wakeup {t : Turn α π} (h : t.session.HeldBy slot) {items : List Item}
    (hitems : ∀ part, .answer slot part ∉ items) : (wakeup t items).session.HeldBy slot := by
  have happlied : (items.foldl Session.applyItem t.session).HeldBy slot := by
    generalize t.session = s at h
    induction items generalizing s with
    | nil => exact h
    | cons item items ih =>
      refine ih (fun part hmem => hitems part (List.mem_cons_of_mem _ hmem)) _ (h.applyItem ?_)
      rintro part rfl
      exact hitems part List.mem_cons_self
  obtain ⟨ending, hwakeup⟩ := wakeup_session t items
  rw [hwakeup]
  exact happlied.flushReady

theorem HeldBy.wakeups {t : Turn α π} (h : t.session.HeldBy slot) (rounds : List (List Item))
    (hrounds : ∀ items ∈ rounds, ∀ part, .answer slot part ∉ items) :
    (rounds.foldl Session.wakeup t).session.HeldBy slot := by
  induction rounds generalizing t with
  | nil => exact h
  | cons items rounds ih =>
    rw [List.forall_mem_cons] at hrounds
    exact ih (h.wakeup hrounds.1) hrounds.2

end Http.Session

namespace Http.Responder

variable {α π : Type}

/-- The parts that a responder posts complete its response exactly if its last call finds the lock
free and, where that call is `finish`, the call that posted the head did so too. Else the response
is still there when the responder is gone, and once it is the first it stays so, whatever is said
about the others. -/
theorem complete_iff_lock_free (s : Session π) (front back : List (Pending π)) (p : Pending π)
    (hpending : s.pending = front ++ p :: back) (hfront : ∀ q ∈ front, q.slot ≠ p.slot)
    (hwaiting : p.stage = .waiting) (uses : List (Outbox × Use)) (last : Outbox × Farewell)
    (hopen : ∀ u ∈ uses, u.1.closing = false) (hlast : last.1.closing = false) :
    ∃ q, ((posts { slot := p.slot } uses last).foldl Session.applyItem s).pending =
        front ++ q :: back ∧ q.slot = p.slot ∧
      (q.isComplete ↔ last.1.locked = false ∧
        (last.2 = .finish → ∀ o ∈ headMet uses, o.locked = false)) ∧
      (front = [] → ¬ q.isComplete → ∀ t : Session.Turn α π,
        t.session = (posts { slot := p.slot } uses last).foldl Session.applyItem s →
        ∀ rounds : List (List Item), (∀ items ∈ rounds, ∀ part, .answer p.slot part ∉ items) →
          (rounds.foldl Session.wakeup t).session.HeldBy p.slot) := by
  have hstage : p.stage ≠ .complete := by simp [hwaiting]
  obtain ⟨q, hq, hslot, hcomplete⟩ :=
    pending_posts (r := { slot := p.slot }) hlast rfl hpending hfront hstage (fun _ => hwaiting)
      uses hopen last.2
  refine ⟨q, hq, hslot, by simpa [HeadArrives] using hcomplete, ?_⟩
  rintro rfl hopenly t ht rounds hrounds
  have hheld : t.session.HeldBy p.slot :=
    ⟨q, back, by rw [ht, hq, List.nil_append], hslot, by simpa [Pending.isComplete] using hopenly⟩
  exact hheld.wakeups rounds hrounds

/-- One request that waits for its answer. -/
def oneWaiting : Session Unit where
  pending := [{ slot := 0, version := .v11, keepAlive := true }]
  nextSlot := 1

/-- A responder that is dropped, or whose head is posted, while another holds the lock. -/
theorem complete_iff_lock_free_contended :
    (∃ q, ((posts { slot := 0 } [] ({ locked := true }, .drop)).foldl Session.applyItem
        oneWaiting).pending = [q] ∧ ¬ q.isComplete) ∧
    (∃ q, ((posts { slot := 0 } [({ locked := true }, .start { status := 200 })]
        ({}, .finish)).foldl Session.applyItem oneWaiting).pending = [q] ∧ ¬ q.isComplete) := by
  constructor
  · obtain ⟨q, hq, -, hcomplete, -⟩ := complete_iff_lock_free (α := Unit) oneWaiting [] [] _ rfl
      (by simp) rfl [] ({ locked := true }, .drop) (by simp) rfl
    exact ⟨q, hq, by simp [hcomplete]⟩
  · obtain ⟨q, hq, -, hcomplete, -⟩ := complete_iff_lock_free (α := Unit) oneWaiting [] [] _ rfl
      (by simp) rfl [({ locked := true }, .start { status := 200 })] ({}, .finish) (by simp) rfl
    exact ⟨q, hq, by simp [hcomplete, headMet]⟩

end Http.Responder

end WireServer
