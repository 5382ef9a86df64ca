import WireServer.Proofs.Http.AtOnce
import WireServer.Proofs.Http.Logging

/-! Handlers that answer every request before they come back. What such a handler leaves behind are
complete responses, all of which the next flush takes out of the line. -/

namespace WireServer.Http.Session

variable {α π : Type}

open Line (Follows)

/-- The handler answers every request before it comes back: what waits in the slot of the request
is complete then. -/
def AnswersAtOnce (service : Service α π) : Prop :=
  ∀ app r outbox shelf (p : Pending π), outbox.Free → p.stage = .waiting →
    ((Log.told p.slot (handlerChanges service ⟨app, outbox, shelf⟩ p.slot r)).foldl
      Pending.take p).isComplete

/-- One full response is all it takes. -/
theorem AnswersAtOnce.of_answersWith {service : Service α π} {answer : Request → Response}
    (h : service.AnswersWith answer) : AnswersAtOnce service := by
  intro app r outbox shelf p hfree hwaiting
  have hposted := h app r p.slot outbox shelf hfree
  have hopened := Program.run_outbox (P := Outbox.Opened) (fun _ item h => h.send item)
    (service.handler app r) (b := ⟨some { slot := p.slot }, outbox, shelf⟩) hfree.toOpened
  have hfull : p.take (.part (.full (answer r))) = p.applyFull (answer r) := by
    simp [Pending.take, Pending.accept, Pending.apply, hwaiting]
  have hcomplete := Pending.applyFull_isComplete p (answer r)
  unfold handlerChanges
  dsimp only
  generalize (service.handler app r).run ⟨some { slot := p.slot }, outbox, shelf⟩ = ran
    at hposted hopened
  have htake : ran.1.outbox.take.2 = some [.answer p.slot (.full (answer r))] := by
    simp [Outbox.take, hopened.unlocked, hposted]
  rw [htake]
  -- an abort behind it finds the response complete
  cases ran.2.2.failure?.isSome with
  | true =>
    simp only [Option.getD_some, List.flatMap_cons, List.flatMap_nil, List.append_nil, itemChanges,
      if_true, List.cons_append, List.nil_append, Log.told, List.foldl_cons, List.foldl_nil, hfull]
    rwa [Pending.take, Pending.accept_of_complete hcomplete]
  | false =>
    simp only [Option.getD_some, List.flatMap_cons, List.flatMap_nil, List.append_nil, itemChanges,
      if_true, Bool.false_eq_true, if_false, Log.told, List.foldl_cons, List.foldl_nil, hfull]
    exact hcomplete

/-- Only the last response in line listens, where all others are complete. -/
theorem Line.Follows.told_last {l l' : Line π} {log : Log π} (h : Follows l log l')
    (hl : l.Ordered) (hparts : ∀ c ∈ log, ∃ slot part, c = .told slot (.part part))
    {front : List (Pending π)} {p : Pending π} (hpending : l.pending = front ++ [p])
    (hfront : ∀ q ∈ front, q.isComplete) :
    l'.pending = front ++ [(Log.told p.slot log).foldl Pending.take p] := by
  induction h generalizing p with
  | nil l => exact hpending
  | @cons l l' c log hc _ ih =>
    rw [List.forall_mem_cons] at hparts
    obtain ⟨⟨slot, part, rfl⟩, hparts⟩ := hparts
    have hsame : front.map (fun q => if q.slot = slot then q.take (.part part) else q) = front := by
      refine (List.map_congr_left fun q hq => ?_).trans (List.map_id front)
      rw [Pending.take, Pending.accept_of_complete (hfront q hq), ite_self, id]
    have hchange : (l.change (.told slot (.part part))).pending =
        front ++ [if p.slot = slot then p.take (.part part) else p] := by
      rw [Line.change, Line.tellFirst_eq_map hl.nodup, hpending, List.map_append, hsame]
      rfl
    rw [ih (hl.change hc) hparts hchange, Log.told]
    by_cases hp : p.slot = slot
    · rw [if_pos hp, if_pos hp.symm, Pending.take_slot]
      rfl
    · rw [if_neg hp, if_neg (Ne.symm hp)]

section Calls

variable {service : Service α π} {t : Turn α π}

theorem decoder_callHandler (service : Service α π) (t : Turn α π) (slot : Nat) (r : Request) :
    (callHandler service t slot r).session.decoder = t.session.decoder := by
  unfold callHandler
  dsimp only
  generalize (service.handler t.desk.app r).run ⟨some { slot }, t.desk.outbox, t.desk.shelf⟩ = ran
  obtain ⟨pending, hitems⟩ := applyItems_eq t.session (ran.1.outbox.take.2.getD [])
  simp only [Turn.modify, hitems]
  split <;> rfl

theorem free_callHandler (service : Service α π) (hopened : t.desk.outbox.Opened) (slot : Nat)
    (r : Request) : (callHandler service t slot r).desk.outbox.Free := by
  have hafter := Program.run_outbox (P := Outbox.Opened) (fun _ item h => h.send item)
    (service.handler t.desk.app r) (b := ⟨some { slot }, t.desk.outbox, t.desk.shelf⟩) hopened
  unfold callHandler
  dsimp only
  generalize (service.handler t.desk.app r).run ⟨some { slot }, t.desk.outbox, t.desk.shelf⟩ = ran
    at hafter
  have hfree : ran.1.outbox.take.1.Free := by
    rw [Outbox.take, if_neg (by simp [hafter.unlocked])]
    exact ⟨⟨hafter.unlocked, hafter.serving⟩, rfl⟩
  split <;> exact hfree

theorem callHandler_complete (hanswers : AnswersAtOnce service) (hl : t.session.line.Ordered)
    (hfree : t.desk.outbox.Free) {front : List (Pending π)} {p : Pending π}
    (hpending : t.session.pending = front ++ [p]) (hfront : ∀ q ∈ front, q.isComplete)
    (hwaiting : p.stage = .waiting) (r : Request) :
    ∀ q ∈ (callHandler service t p.slot r).session.pending, q.isComplete := by
  have htold := (callHandler_follows service t p.slot r).told_last hl
    (fun c hc => parts_handlerChanges hc) hpending hfront
  have hlast := hanswers t.desk.app r t.desk.outbox t.desk.shelf p hfree hwaiting
  rw [show (callHandler service t p.slot r).session.pending = _ from htold]
  simp only [List.mem_append, List.mem_singleton]
  rintro q (hq | rfl)
  · exact hfront q hq
  · exact hlast

theorem flushFront_of_complete (s : Session π) {ps : List (Pending π)}
    (h : ∀ p ∈ ps, p.isComplete) : (s.flushFront ps).pending = [] := by
  induction ps generalizing s with
  | nil => rfl
  | cons p ps ih =>
    rw [List.forall_mem_cons] at h
    simp only [flushFront, h.1, Bool.not_true, Bool.false_eq_true, if_false]
    split
    · rfl
    split
    · exact ih _ h.2
    · rfl

/-- What an answered request leaves: complete responses, an outbox like before and the decoder where
it was. -/
structure Leaves (t t' : Turn α π) : Prop where
  complete : ∀ p ∈ t'.session.pending, p.isComplete
  free : t'.desk.outbox.Free
  decoder : t'.session.decoder = t.session.decoder

theorem serve_leaves (hanswers : AnswersAtOnce service) {p : Pending π}
    (hl : (⟨t.session.pending ++ [p], t.session.out, t.session.nextSlot⟩ : Line π).Ordered)
    (hfree : t.desk.outbox.Free) (hcomplete : ∀ q ∈ t.session.pending, q.isComplete)
    (hwaiting : p.stage = .waiting) (r : Request) : Leaves t (serve service t p r) := by
  have hcall (u : Turn α π) (hline : u.session.line = ⟨t.session.pending ++ [p], t.session.out,
      t.session.nextSlot⟩) (hdesk : u.desk = t.desk)
      (hdecoder : u.session.decoder = t.session.decoder) :
      Leaves t (callHandler service u p.slot r) := by
    have hfree' : u.desk.outbox.Free := hdesk ▸ hfree
    exact ⟨callHandler_complete hanswers (hline ▸ hl) hfree' (congrArg Line.pending hline) hcomplete
      hwaiting r, free_callHandler service hfree'.toOpened p.slot r,
      (decoder_callHandler service u p.slot r).trans hdecoder⟩
  unfold serve
  cases p.keepAlive with
  | true => exact hcall (t.modify fun s => { s with pending := s.pending ++ [p] }) rfl rfl rfl
  | false =>
    exact hcall (t.modify fun s => { s with pending := s.pending ++ [p], accepting := false }).disableRx
      rfl rfl rfl

theorem dispatch_leaves (hanswers : AnswersAtOnce service) (hl : t.session.line.Ordered)
    (hfree : t.desk.outbox.Free) (hcomplete : ∀ q ∈ t.session.pending, q.isComplete)
    (r : Request) : Leaves t (dispatch service t r) := by
  have hmore (p : Pending π) (hp : p.isComplete) : ∀ q ∈ t.session.pending ++ [p], q.isComplete := by
    simp only [List.mem_append, List.mem_singleton]
    rintro q (hq | rfl)
    · exact hcomplete q hq
    · exact hp
  have hserve (p : Pending π) (hslot : p.slot = t.session.nextSlot) (hwaiting : p.stage = .waiting)
      (hout : p.out = {}) : Leaves t (serve service
        (t.modify fun s => { s with nextSlot := t.session.nextSlot + 1 }) p r) := by
    have hordered := hl.change (c := .admitted p) ⟨Nat.le_of_eq hslot.symm, hwaiting, hout⟩
    obtain ⟨h1, h2, h3⟩ := serve_leaves hanswers (r := r)
      (t := t.modify fun s => { s with nextSlot := t.session.nextSlot + 1 })
      (by rw [Line.change, hslot] at hordered; exact hordered) hfree hcomplete hwaiting
    exact ⟨h1, h2, h3⟩
  have hfail (status : Status) : Leaves t ((t.modify fun s =>
      { s with nextSlot := t.session.nextSlot + 1 }).modify (·.fail r.head.version status)) :=
    ⟨hmore _ (Pending.applyFull_isComplete _ _), hfree, rfl⟩
  unfold dispatch
  dsimp only
  split
  · exact hserve _ rfl rfl rfl
  cases UpgradeHandler.ask service.upgradeChain r.head with
  | handled response next =>
    exact ⟨hmore _ (by simp [Pending.isComplete, Pending.applyFull]), hfree, rfl⟩
  | ignore => exact hserve _ rfl rfl rfl
  | unknown => exact hfail 501
  | refused status => exact hfail status

theorem decoder_flushFront (s : Session π) (ps : List (Pending π)) :
    (s.flushFront ps).decoder = s.decoder := by
  induction ps generalizing s with
  | nil => rfl
  | cons p ps ih =>
    simp only [flushFront]
    split
    · rfl
    split
    · rfl
    split
    · exact ih _
    · rfl

end Calls

end WireServer.Http.Session
