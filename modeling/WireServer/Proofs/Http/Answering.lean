import WireServer.Http.Session

/-! What a part does to the response in its slot, and what it leaves alone. What a response puts out
does not depend on what it put out before, and one that is complete takes nothing more. -/

namespace WireServer.Net.Chain

@[simp] theorem append_empty (c : Chain) : c.append {} = c := by simp [append]

@[simp] theorem empty_append (c : Chain) : append {} c = c := by simp [append]

@[simp] theorem toBytes_none : toBytes {} = [] := rfl

theorem append_push (c d : Chain) (bs : Bytes) : (c.append d).push bs = c.append (d.push bs) := by
  simp [append, push]

end WireServer.Net.Chain

namespace WireServer.Http.Pending

variable {π : Type}

/-- The response with output that went before its own. -/
def ahead (c : Net.Chain) (p : Pending π) : Pending π := { p with out := c.append p.out }

@[simp] theorem ahead_stage (c : Net.Chain) (p : Pending π) : (p.ahead c).stage = p.stage := rfl

@[simp] theorem ahead_slot (c : Net.Chain) (p : Pending π) : (p.ahead c).slot = p.slot := rfl

@[simp] theorem ahead_sendsBody (c : Net.Chain) (p : Pending π) :
    (p.ahead c).sendsBody = p.sendsBody := rfl

@[simp] theorem ahead_isComplete (c : Net.Chain) (p : Pending π) :
    (p.ahead c).isComplete = p.isComplete := rfl

@[simp] theorem toBytes_ahead (c : Net.Chain) (p : Pending π) :
    (p.ahead c).out.toBytes = c.toBytes ++ p.out.toBytes := by
  simp [ahead]

@[simp] theorem ahead_empty (p : Pending π) : p.ahead {} = p := by simp [ahead]

/-! ### What went before does not matter -/

section Ahead

variable (c : Net.Chain) (p : Pending π)

theorem push_ahead (bs : Bytes) : (p.ahead c).push bs = (p.push bs).ahead c := by
  simp [push, ahead, Net.Chain.append_push]

theorem pushBody_ahead (body : Bytes) : (p.ahead c).pushBody body = (p.pushBody body).ahead c := by
  simp only [pushBody, push_ahead, ahead_sendsBody, apply_ite (ahead c)]

theorem begin_ahead (status : Status) : (p.ahead c).begin status = (p.begin status).ahead c := rfl

theorem pushHead_ahead (head : ResponseHead) (size : BodySize) :
    (p.ahead c).pushHead head size = (p.pushHead head size).ahead c := by
  unfold pushHead
  by_cases hclose : head.status ≠ 101 && asksToClose head
  · simp only [hclose, if_true]
    exact push_ahead c { p with keepAlive := false } _
  · simp only [hclose, Bool.false_eq_true, if_false]
    exact push_ahead c p _

theorem applyFull_ahead (r : Response) : (p.ahead c).applyFull r = (p.applyFull r).ahead c := by
  unfold applyFull
  simp only [begin_ahead, pushHead_ahead, pushBody_ahead]
  rfl

theorem applyHead_ahead (head : ResponseHead) :
    (p.ahead c).applyHead head = (p.applyHead head).ahead c := by
  unfold applyHead
  simp only [begin_ahead, pushHead_ahead, apply_ite (ahead c)]
  rfl

theorem applyData_ahead (data : Bytes) :
    (p.ahead c).applyData data = (p.applyData data).map (ahead c) := by
  unfold applyData
  rw [ahead_stage]
  cases p.stage with
  | waiting => rfl
  | complete => rfl
  | chunks =>
    simp only [pushChunk, push_ahead, ahead_sendsBody, Except.map, apply_ite (ahead c)]
  | gathering head body =>
    simp only [ahead_sendsBody, Except.map, apply_ite (ahead c)]
    rfl

theorem applyFinish_ahead : (p.ahead c).applyFinish = p.applyFinish.map (ahead c) := by
  unfold applyFinish
  rw [ahead_stage]
  cases p.stage with
  | waiting => rfl
  | complete => rfl
  | chunks =>
    simp only [push_ahead, ahead_sendsBody, Except.map]
    split <;> rfl
  | gathering head body =>
    simp only [pushHead_ahead, pushBody_ahead, Except.map]
    rfl

theorem applyAbort_ahead : (p.ahead c).applyAbort = p.applyAbort.map (ahead c) := by
  have herror := congrArg
    (fun q : Pending π => Except.ok (ε := Misfit) { q with stage := .complete })
    (pushHead_ahead c ({ p with keepAlive := false }.begin 200) { status := 500 } .empty)
  unfold applyAbort
  simp only [ahead_stage]
  cases p.stage with
  | waiting => exact herror
  | complete => rfl
  | chunks => rfl
  | gathering head body => exact herror

theorem apply_ahead (part : Part) : (p.ahead c).apply part = (p.apply part).map (ahead c) := by
  cases part with
  | full r =>
    simp only [apply, ahead_stage, applyFull_ahead]
    cases p.stage <;> rfl
  | head head =>
    simp only [apply, ahead_stage, applyHead_ahead]
    cases p.stage <;> rfl
  | data bytes => exact applyData_ahead c p bytes
  | finish => exact applyFinish_ahead c p
  | abort => exact applyAbort_ahead c p

theorem accept_ahead (part : Part) : (p.ahead c).accept part = (p.accept part).ahead c := by
  unfold accept
  rw [apply_ahead]
  cases p.apply part <;> rfl

end Ahead

/-! ### What stays -/

section Slot

variable (p : Pending π)

@[simp] theorem push_slot (bs : Bytes) : (p.push bs).slot = p.slot := rfl

@[simp] theorem pushBody_slot (body : Bytes) : (p.pushBody body).slot = p.slot := by
  unfold pushBody
  split <;> rfl

@[simp] theorem begin_slot (status : Status) : (p.begin status).slot = p.slot := rfl

@[simp] theorem pushHead_slot (head : ResponseHead) (size : BodySize) :
    (p.pushHead head size).slot = p.slot := by
  unfold pushHead
  dsimp only
  split <;> rfl

@[simp] theorem applyFull_slot (r : Response) : (p.applyFull r).slot = p.slot := by simp [applyFull]

@[simp] theorem applyHead_slot (head : ResponseHead) : (p.applyHead head).slot = p.slot := by
  unfold applyHead
  dsimp only
  split <;> simp

@[simp] theorem pushChunk_slot (data : Bytes) : (p.pushChunk data).slot = p.slot := rfl

@[simp] theorem accept_slot (part : Part) : (p.accept part).slot = p.slot := by
  unfold accept
  cases part with
  | full r =>
    simp only [apply]
    cases p.stage <;> simp
  | head head =>
    simp only [apply]
    cases p.stage <;> simp
  | data bytes =>
    simp only [apply, applyData]
    cases p.stage <;> simp [apply_ite slot]
  | finish =>
    simp only [apply, applyFinish]
    cases p.stage <;> simp [apply_ite slot]
  | abort =>
    simp only [apply, applyAbort]
    cases p.stage <;> simp

end Slot

/-- A response that is complete takes nothing more. -/
theorem accept_of_complete {p : Pending π} (h : p.isComplete) (part : Part) :
    p.accept part = p := by
  have hstage : p.stage = .complete := by simpa [isComplete] using h
  cases part <;> simp [accept, apply, applyData, applyFinish, applyAbort, hstage]

/-- The protocol that takes over is not asked about. -/
theorem applyFull_successor (p : Pending π) (next : Option π) (r : Response) :
    { p with successor := next }.applyFull r = { p.applyFull r with successor := next } := by
  have hhead : ({ p with successor := next }.begin r.head.status).pushHead r.head
      (.ofLength r.body.length) =
        { (p.begin r.head.status).pushHead r.head (.ofLength r.body.length) with
          successor := next } := by
    unfold pushHead
    dsimp only
    split <;> rfl
  unfold applyFull
  simp only [hhead, pushBody]
  split <;> rfl

/-! ### How far a part takes it -/

section Stages

variable {p : Pending π}

@[simp] theorem pushBody_stage (body : Bytes) : (p.pushBody body).stage = p.stage := by
  unfold pushBody
  split <;> rfl

theorem accept_full_isComplete (h : p.stage = .waiting) (r : Response) :
    (p.accept (.full r)).isComplete := by
  simp [accept, apply, h, applyFull, isComplete]

theorem accept_head_stage (h : p.stage = .waiting) (head : ResponseHead) :
    (p.accept (.head head)).stage ≠ .waiting ∧ (p.accept (.head head)).stage ≠ .complete := by
  simp only [accept, apply, h, applyHead]
  split <;> simp

/-- Body bytes neither begin a response nor end it. -/
theorem accept_data_stage (data : Bytes) :
    ((p.accept (.data data)).stage = .waiting ↔ p.stage = .waiting) ∧
      ((p.accept (.data data)).stage = .complete ↔ p.stage = .complete) := by
  cases hstage : p.stage with
  | waiting => simp [accept, apply, applyData, hstage]
  | complete => simp [accept, apply, applyData, hstage]
  | chunks =>
    simp only [accept, apply, applyData, hstage]
    split <;> simp [pushChunk, push, hstage]
  | gathering head body =>
    simp only [accept, apply, applyData, hstage]
    split <;> simp [hstage]

/-- Only a response that has begun can come to its end. -/
theorem accept_finish_isComplete_iff : (p.accept .finish).isComplete ↔ p.stage ≠ .waiting := by
  cases hstage : p.stage <;> simp [accept, apply, applyFinish, isComplete, hstage]

theorem accept_abort_isComplete : (p.accept .abort).isComplete := by
  cases hstage : p.stage <;> simp [accept, apply, applyAbort, isComplete, hstage]

end Stages

end WireServer.Http.Pending

namespace WireServer.Http.Session

variable {α π : Type} {slot : Nat}

/-- The end of an exchange leaves the responses alone. -/
theorem finishUp_session (t : Turn α π) :
    ∃ ending, (finishUp t).session = { t.session with ending } := by
  unfold finishUp
  dsimp only
  split
  · exact ⟨t.session.ending, rfl⟩
  · exact ⟨none, rfl⟩
  · exact ⟨none, rfl⟩

theorem arm_session (t : Turn α π) : ∃ ending, (arm t).session = { t.session with ending } := by
  unfold arm
  split
  · exact ⟨t.session.ending, rfl⟩
  · exact finishUp_session t

theorem wakeup_session (t : Turn α π) (items : List Item) : ∃ ending,
    (wakeup t items).session = { (items.foldl applyItem t.session).flushReady with ending } :=
  arm_session _

/-- A part changes the first response in its slot and no other. -/
theorem applyToFirst_append {front : List (Pending π)} (hfront : ∀ p ∈ front, p.slot ≠ slot)
    (part : Part) (ps : List (Pending π)) :
    applyToFirst slot part (front ++ ps) = front ++ applyToFirst slot part ps := by
  induction front with
  | nil => rfl
  | cons p front ih =>
    rw [List.forall_mem_cons] at hfront
    rw [List.cons_append, applyToFirst, if_neg hfront.1, ih hfront.2, List.cons_append]

theorem applyToFirst_at {front back : List (Pending π)} {p : Pending π}
    (hfront : ∀ q ∈ front, q.slot ≠ p.slot) (part : Part) :
    applyToFirst p.slot part (front ++ p :: back) = front ++ p.accept part :: back := by
  rw [applyToFirst_append hfront, applyToFirst, if_pos rfl]

theorem flushReady_of_unanswered {s : Session π} (h : s.pending = []) : s.flushReady = s := by
  rw [flushReady, h, flushFront, ← h]

/-- There is no response that a part could belong to. -/
theorem foldl_applyItem_of_unanswered {s : Session π} (h : s.pending = []) (items : List Item) :
    items.foldl applyItem s = s := by
  induction items with
  | nil => rfl
  | cons item items ih =>
    have hitem : applyItem s item = s := by
      cases item with
      | answer slot part => rw [applyItem, apply, h, applyToFirst, ← h]
      | frame flags payload => rfl
      | close code => rfl
    rw [List.foldl_cons, hitem, ih]

/-- Items of the outbox reach the responses in line and nothing else. -/
theorem applyItems_eq (s : Session π) (items : List Item) :
    ∃ pending, items.foldl applyItem s = { s with pending } := by
  induction items generalizing s with
  | nil => exact ⟨s.pending, rfl⟩
  | cons item items ih =>
    obtain ⟨pending, hitems⟩ := ih (s.applyItem item)
    refine ⟨pending, hitems.trans ?_⟩
    cases item <;> rfl

end WireServer.Http.Session
