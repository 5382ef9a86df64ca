import WireServer.Proofs.Http.Places

/-! Handlers that answer at once. A handler whose program sends one full response, and that response
depends on the request alone, leaves behind a complete response in the slot of its request, however
it ends. -/

namespace WireServer

namespace Outbox

/-- Items can be posted. -/
structure Opened (o : Outbox) : Prop where
  unlocked : o.locked = false
  serving : o.closing = false

theorem Opened.send {o : Outbox} (h : o.Opened) (item : Item) : (o.send item).1.Opened := by
  obtain ⟨hunlocked, hserving⟩ := h
  constructor <;> simp [Outbox.send, post, tryLock, push, unlock, hunlocked, hserving]

theorem items_send {o : Outbox} (h : o.Opened) (item : Item) :
    (o.send item).1.items = o.items ++ [item] := by
  simp [send, post, tryLock, push, unlock, h.unlocked, h.serving]

/-- Nothing is queued, and items can be posted. -/
structure Free (o : Outbox) : Prop extends o.Opened where
  empty : o.items = []

end Outbox

namespace Http

variable {α π : Type}

/-! ### Programs and the outbox -/

/-- Whatever a program does, the outbox changes by posts alone. -/
theorem Program.run_outbox {P : Outbox → Prop} (hpost : ∀ o item, P o → P (o.send item).1)
    (program : Program α) {b : Bench} (hb : P b.outbox) : P (program.run b).1.outbox := by
  have hdrop {b : Bench} (hb : P b.outbox) : P b.drop.1.outbox := by
    unfold Bench.drop
    split
    · exact hb
    · exact hpost _ _ hb
  induction program generalizing b with
  | done app outcome => exact hdrop hb
  | send response next ih =>
    refine ih _ ?_
    unfold Bench.send
    split
    · exact hb
    · simp only [Responder.send]
      split <;> exact hpost _ _ hb
  | start head next ih =>
    refine ih _ ?_
    unfold Bench.start
    split
    · exact hb
    · simp only [Responder.start]
      split
      · exact hb
      · exact hpost _ _ hb
  | write data next ih =>
    refine ih _ ?_
    unfold Bench.write
    split
    · exact hb
    · simp only [Responder.write]
      split
      · exact hpost _ _ hb
      · exact hb
  | finish next ih =>
    refine ih _ ?_
    unfold Bench.finish
    split
    · exact hb
    · simp only [Responder.finish]
      split <;> exact hpost _ _ hb
  | drop next ih => exact ih _ (hdrop hb)
  | defer key next ih =>
    refine ih _ ?_
    unfold Bench.defer
    split <;> exact hb

/-- Without a responder nothing is posted. -/
theorem Program.run_of_none (program : Program α) {b : Bench} (hb : b.responder = none) :
    (program.run b).1.outbox = b.outbox := by
  induction program generalizing b with
  | done app outcome => simp [run, Bench.leave, Bench.drop, hb]
  | send response next ih => simpa [run, Bench.send, hb] using ih _ hb
  | start head next ih => simpa [run, Bench.start, hb] using ih _ hb
  | write data next ih => simpa [run, Bench.write, hb] using ih _ hb
  | finish next ih => simpa [run, Bench.finish, hb] using ih _ hb
  | drop next ih => simpa [run, Bench.drop, hb] using ih _ hb
  | defer key next ih => simpa [run, Bench.defer, hb] using ih _ hb

/-- The handler answers every request before it comes back, with one full response that depends on
the request alone. -/
def Service.AnswersWith (service : Service α π) (answer : Request → Response) : Prop :=
  ∀ app r slot outbox shelf, outbox.Free →
    ((service.handler app r).run ⟨some { slot }, outbox, shelf⟩).1.outbox.items =
      [.answer slot (.full (answer r))]

/-- So does a handler that sends first, whatever it does then. -/
theorem Service.answersWith_of_send {service : Service α π} {answer : Request → Response}
    (next : α → Request → Reply → Program α)
    (h : ∀ app r, service.handler app r = .send (answer r) (next app r)) :
    service.AnswersWith answer := by
  intro app r slot outbox shelf hfree
  rw [h, Program.run, Program.run_of_none _ (by simp [Bench.send])]
  simp [Bench.send, Responder.send, Responder.post, Outbox.items_send hfree.toOpened, hfree.empty]

/-! ### Complete responses -/

namespace Pending

/-- The slot is not asked about. -/
theorem applyFull_at (p : Pending π) (slot : Nat) (r : Response) :
    { p with slot }.applyFull r = { p.applyFull r with slot } := by
  have hhead : ({ p with slot }.begin r.head.status).pushHead r.head (.ofLength r.body.length) =
      { (p.begin r.head.status).pushHead r.head (.ofLength r.body.length) with slot } := by
    unfold pushHead
    dsimp only
    split <;> rfl
  unfold applyFull
  simp only [hhead, pushBody]
  split <;> rfl

theorem applyFull_isComplete (p : Pending π) (r : Response) : (p.applyFull r).isComplete := by
  simp [applyFull, isComplete]

/-- No other protocol takes over. -/
theorem successor_applyFull {p : Pending π} (h : p.successor = none) (r : Response) :
    (p.applyFull r).successor = none := by
  have hp : { p with successor := none } = p := by rw [← h]
  rw [← hp, applyFull_successor]

/-- A connection that ends behind a response ends behind it whatever the response is. -/
theorem keepAlive_applyFull {p : Pending π} (h : p.keepAlive = false) (r : Response) :
    (p.applyFull r).keepAlive = false := by
  have hhead : ((p.begin r.head.status).pushHead r.head (.ofLength r.body.length)).keepAlive =
      false := by
    unfold pushHead
    dsimp only
    split
    · rfl
    · exact h
  unfold applyFull pushBody
  dsimp only
  split
  · exact hhead
  · exact hhead

/-- The response to a request that is answered at once. -/
def answered (answer : Request → Response) (stopping : Bool) (slot : Nat) (r : Request) :
    Pending π :=
  (ofRequest slot r.head (r.head.keepAlive && !stopping)).applyFull (answer r)

/-- The slot only tells where the response stands. -/
theorem answered_at (answer : Request → Response) (stopping : Bool) (slot : Nat) (r : Request) :
    (answered answer stopping slot r : Pending π) = { answered answer stopping 0 r with slot } :=
  applyFull_at (ofRequest 0 r.head (r.head.keepAlive && !stopping)) slot (answer r)

end Pending

namespace Session

/-- Complete responses at the front of the line shield themselves: a part changes nothing of
them. -/
theorem applyToFirst_behind {front : List (Pending π)} (hfront : ∀ p ∈ front, p.isComplete)
    (slot : Nat) (part : Part) (back : List (Pending π)) :
    ∃ back', applyToFirst slot part (front ++ back) = front ++ back' := by
  induction front with
  | nil => exact ⟨_, rfl⟩
  | cons p front ih =>
    rw [List.forall_mem_cons] at hfront
    rw [List.cons_append, applyToFirst]
    split
    · exact ⟨back, by rw [Pending.accept_of_complete hfront.1]; rfl⟩
    · obtain ⟨back', hback⟩ := ih hfront.2
      exact ⟨back', by rw [hback]; rfl⟩

variable {service : Service α π} {answer : Request → Response}

/-- The handler leaves behind the complete response, and an outbox like before. -/
theorem callHandler_answers (hanswers : service.AnswersWith answer) {t : Turn α π}
    (hfree : t.desk.outbox.Free) {front : List (Pending π)} {p : Pending π}
    (hpending : t.session.pending = front ++ [p]) (hfront : ∀ q ∈ front, q.slot ≠ p.slot)
    (hwaiting : p.stage = .waiting) (r : Request) :
    (callHandler service t p.slot r).session =
        { t.session with pending := front ++ [p.applyFull (answer r)] } ∧
      (callHandler service t p.slot r).ctx = t.ctx ∧
      (callHandler service t p.slot r).desk.outbox.Free := by
  have hposted := hanswers t.desk.app r p.slot t.desk.outbox t.desk.shelf hfree
  have hopened := Program.run_outbox (P := Outbox.Opened) (fun _ item h => h.send item)
    (service.handler t.desk.app r) (b := ⟨some { slot := p.slot }, t.desk.outbox, t.desk.shelf⟩)
    hfree.toOpened
  unfold callHandler
  dsimp only
  generalize (service.handler t.desk.app r).run ⟨some { slot := p.slot }, t.desk.outbox,
    t.desk.shelf⟩ = ran at hposted hopened
  have htake : ran.1.outbox.take = ({ ran.1.outbox with items := [] },
      some [.answer p.slot (.full (answer r))]) := by
    simp [Outbox.take, hopened.unlocked, hposted]
  have hfull : p.accept (.full (answer r)) = p.applyFull (answer r) := by
    simp [Pending.accept, Pending.apply, hwaiting]
  have happlied : t.session.apply p.slot (.full (answer r)) =
      { t.session with pending := front ++ [p.applyFull (answer r)] } := by
    rw [apply, hpending, applyToFirst_at hfront, hfull]
  -- an abort behind it finds the response complete
  have habort : ({ t.session with pending := front ++ [p.applyFull (answer r)] } : Session π).apply
      p.slot .abort = { t.session with pending := front ++ [p.applyFull (answer r)] } := by
    have hslot : (p.applyFull (answer r)).slot = p.slot := Pending.applyFull_slot p _
    rw [apply, ← hslot, applyToFirst_at (by rwa [hslot]),
      Pending.accept_of_complete (Pending.applyFull_isComplete _ _)]
  have hafter : ({ ran.1.outbox with items := [] } : Outbox).Free :=
    ⟨⟨hopened.unlocked, hopened.serving⟩, rfl⟩
  rw [htake]
  simp only [Option.getD_some, List.foldl_cons, List.foldl_nil, applyItem, Turn.modify, happlied]
  split
  · exact ⟨habort, rfl, hafter⟩
  · exact ⟨rfl, rfl, hafter⟩

end Session

end Http

end WireServer
