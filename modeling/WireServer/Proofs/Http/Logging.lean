import WireServer.Proofs.Http.Line

/-! What a session writes into the log of its line. Beside each operation of the session stand the
changes that it makes, in their order; the operation leads the line along these changes. -/

namespace WireServer.Http.Session

variable {α π : Type}

open Line (Follows)

/-! ### What is logged -/

def itemChanges : Item → Log π
  | .answer slot part => [.told slot (.part part)]
  | .frame _ _ | .close _ => []

/-- A call of the handler: the items that it takes along from the outbox, and the end of a response
whose handler failed. -/
def handlerChanges (service : Service α π) (desk : Desk α) (slot : Nat) (r : Request) : Log π :=
  let (bench, _, outcome) :=
    (service.handler desk.app r).run ⟨some { slot }, desk.outbox, desk.shelf⟩
  (bench.outbox.take.2.getD []).flatMap itemChanges ++
    if outcome.failure?.isSome then [.told slot (.part .abort)] else []

def serveChanges (service : Service α π) (desk : Desk α) (p : Pending π) (r : Request) : Log π :=
  .admitted p :: handlerChanges service desk p.slot r

/-- A response that is answered as soon as it is in line. -/
def answeredChanges (p : Pending π) (r : Response) : Log π :=
  [.admitted p, .told p.slot (.part (.full r))]

def failChanges (slot : Nat) (version : Version) (status : Status) : Log π :=
  answeredChanges { slot, version, keepAlive := false } (.empty status)

def dispatchChanges (service : Service α π) (t : Turn α π) (r : Request) : Log π :=
  let slot := t.session.nextSlot
  let p : Pending π := .ofRequest slot r.head (r.head.keepAlive && !t.ctx.stopping)
  if !r.head.fields.contains (fieldName "upgrade") then serveChanges service t.desk p r
  else match UpgradeHandler.ask service.upgradeChain r.head with
    | .handled response next => answeredChanges { p with successor := some next } response
    | .ignore => serveChanges service t.desk p r
    | .unknown => failChanges (slot + 1) r.head.version 501
    | .refused status => failChanges (slot + 1) r.head.version status

def startChanges (s : Session π) (head : RequestHead) (size : BodySize) : Log π :=
  if head.expectsContinue && size != .empty && s.pending.isEmpty then [.interim] else []

def rejectChanges (s : Session π) (expecting : Bool) (e : RequestError) : Log π :=
  let version := match s.current with
    | some r => r.head.version
    | none => .v11
  failChanges s.nextSlot version (e.status expecting)

def eventChanges (service : Service α π) (t : Turn α π) : RequestEvent → Log π
  | .head head size => t.session.startChanges head size
  | .body (.chunk _) => []
  | .body .eof =>
    match t.session.current with
    | none => []
    | some r => dispatchChanges service (t.modify fun s => { s with current := none }) r

def processChanges (service : Service α π) : Nat → Turn α π → Log π
  | 0, _ => []
  | fuel + 1, t =>
    if t.session.mode ≠ .serving || !t.session.accepting then []
    else match t.session.decoder.decode t.session.buffer with
      | (d, buffer, .error e) =>
        { t.session with decoder := d, buffer }.rejectChanges t.session.expecting e
      | (_, _, .ok none) => []
      | (d, buffer, .ok (some event)) =>
        let t := t.modify fun s => { s with decoder := d, buffer }
        eventChanges service t event ++ processChanges service fuel (handleEvent service t event)

def readChanges (service : Service α π) (t : Turn α π) (src : Bytes) : Log π :=
  let kept := t.modify fun s => { s with buffer := s.buffer ++ src }
  match t.session.mode with
  | .serving =>
    if t.session.accepting then
      processChanges service (2 * kept.session.buffer.length + 3) kept
    else []
  | _ => []

def lastChanges (s : Session π) : Log π :=
  match s.pending.getLast? with
  | some last => [.told last.slot .last]
  | none => []

def stopChanges (t : Turn α π) : Log π :=
  if t.session.mode = .serving && t.session.isIdle then []
  else if t.session.current.isSome then []
  else t.session.lastChanges

/-- Items of the outbox are parts of responses. -/
theorem parts_itemChanges {items : List Item} {c : Change π} (h : c ∈ items.flatMap itemChanges) :
    ∃ slot part, c = .told slot (.part part) := by
  obtain ⟨item, -, hc⟩ := List.mem_flatMap.1 h
  cases item with
  | answer slot part => exact ⟨slot, part, List.mem_singleton.1 hc⟩
  | frame flags payload => cases hc
  | close code => cases hc

/-- So is all that a call of the handler comes to. -/
theorem parts_handlerChanges {service : Service α π} {desk : Desk α} {slot : Nat} {r : Request}
    {c : Change π} (h : c ∈ handlerChanges service desk slot r) :
    ∃ slot part, c = .told slot (.part part) := by
  rcases List.mem_append.1 h with hitem | habort
  · exact parts_itemChanges hitem
  · split at habort
    · exact ⟨slot, .abort, List.mem_singleton.1 habort⟩
    · cases habort

/-! ### What is logged happens -/

theorem apply_line (s : Session π) (slot : Nat) (part : Part) :
    (s.apply slot part).line = s.line.change (.told slot (.part part)) := by
  simp only [apply, line, Line.change, Line.applyToFirst_eq]

theorem applyItem_follows (s : Session π) (item : Item) :
    Follows s.line (itemChanges item) (s.applyItem item).line := by
  cases item with
  | answer slot part =>
    rw [applyItem, apply_line]
    exact .single trivial
  | frame flags payload => exact .nil _
  | close code => exact .nil _

theorem applyItems_follows (s : Session π) (items : List Item) :
    Follows s.line (items.flatMap itemChanges) (items.foldl applyItem s).line := by
  induction items generalizing s with
  | nil => exact .nil _
  | cons item items ih => exact (applyItem_follows s item).append (ih _)

theorem callHandler_follows (service : Service α π) (t : Turn α π) (slot : Nat) (r : Request) :
    Follows t.session.line (handlerChanges service t.desk slot r)
      (callHandler service t slot r).session.line := by
  unfold callHandler handlerChanges
  dsimp only
  generalize (service.handler t.desk.app r).run ⟨some { slot }, t.desk.outbox, t.desk.shelf⟩ = ran
  refine (applyItems_follows t.session _).append ?_
  cases ran.2.2.failure?.isSome with
  | true =>
    have happly := apply_line ((ran.1.outbox.take.2.getD []).foldl applyItem t.session) slot .abort
    exact happly ▸ .single trivial
  | false => exact .nil _

theorem serve_follows (service : Service α π) (t : Turn α π) (p : Pending π) (r : Request) :
    Follows ⟨t.session.pending ++ [p], t.session.out, t.session.nextSlot⟩
      (handlerChanges service t.desk p.slot r) (serve service t p r).session.line := by
  unfold serve
  cases p.keepAlive with
  | true =>
    exact callHandler_follows service (t.modify fun s => { s with pending := s.pending ++ [p] }) _ r
  | false =>
    exact callHandler_follows service
      (t.modify fun s => { s with pending := s.pending ++ [p], accepting := false }).disableRx _ r

theorem answered_follows {l : Line π} (hl : l.Ordered) {p : Pending π} (hnext : l.next ≤ p.slot)
    (hwaiting : p.stage = .waiting) (hout : p.out = {}) (r : Response) :
    Follows l (answeredChanges p r) ⟨l.pending ++ [p.applyFull r], l.out, p.slot + 1⟩ := by
  have hfresh : ∀ q ∈ l.pending, q.slot ≠ p.slot := fun q hq =>
    Nat.ne_of_lt (Nat.lt_of_lt_of_le (hl.below _ (List.mem_map_of_mem hq)) hnext)
  have htold : p.take (.part (.full r)) = p.applyFull r := by
    simp [Pending.take, Pending.accept, Pending.apply, hwaiting]
  have hchange : (l.change (.admitted p)).change (.told p.slot (.part (.full r))) =
      ⟨l.pending ++ [p.applyFull r], l.out, p.slot + 1⟩ := by
    simp only [Line.change, Line.tellFirst_concat hfresh, htold]
  rw [← hchange]
  exact .cons ⟨hnext, hwaiting, hout⟩ (.single trivial)

/-- The slot may be skipped for which the failed request was meant. -/
theorem fail_follows (s : Session π) {l : Line π} (hl : l.Ordered)
    (hpending : l.pending = s.pending) (hout : l.out = s.out) (hnext : l.next ≤ s.nextSlot)
    (version : Version) (status : Status) :
    Follows l (failChanges s.nextSlot version status) (s.fail version status).line := by
  have h := answered_follows hl (p := { slot := s.nextSlot, version, keepAlive := false }) hnext rfl
    rfl (.empty status)
  rwa [hpending, hout] at h

theorem dispatch_follows (service : Service α π) (t : Turn α π) (hl : t.session.line.Ordered)
    (r : Request) :
    Follows t.session.line (dispatchChanges service t r) (dispatch service t r).session.line := by
  have hserve (p : Pending π) (hslot : p.slot = t.session.nextSlot) (hwaiting : p.stage = .waiting)
      (hout : p.out = {}) :
      Follows t.session.line (serveChanges service t.desk p r)
        (serve service (t.modify fun s => { s with nextSlot := t.session.nextSlot + 1 })
          p r).session.line := by
    refine .cons ⟨Nat.le_of_eq hslot.symm, hwaiting, hout⟩ ?_
    have h := serve_follows service
      (t.modify fun s => { s with nextSlot := t.session.nextSlot + 1 }) p r
    rwa [show ((t.modify fun s => { s with nextSlot := t.session.nextSlot + 1 }).session.nextSlot) =
      p.slot + 1 from hslot ▸ rfl] at h
  have hfail (status : Status) :
      Follows t.session.line (failChanges (t.session.nextSlot + 1) r.head.version status)
        ({ t.session with nextSlot := t.session.nextSlot + 1 }.fail r.head.version status).line :=
    fail_follows { t.session with nextSlot := t.session.nextSlot + 1 } hl rfl rfl (Nat.le_succ _)
      r.head.version status
  unfold dispatch dispatchChanges
  dsimp only
  split
  · exact hserve _ rfl rfl rfl
  cases UpgradeHandler.ask service.upgradeChain r.head with
  | handled response next =>
    have h := answered_follows hl (p := { Pending.ofRequest (π := π) t.session.nextSlot r.head
      (r.head.keepAlive && !t.ctx.stopping) with successor := some next }) (Nat.le_refl _) rfl rfl
      response
    rwa [Pending.applyFull_successor] at h
  | ignore => exact hserve _ rfl rfl rfl
  | unknown => exact hfail 501
  | refused status => exact hfail status

theorem startRequest_follows (s : Session π) (head : RequestHead) (size : BodySize) :
    Follows s.line (s.startChanges head size) (s.startRequest head size).line := by
  unfold startRequest startChanges
  split
  · rename_i h
    simp only [Bool.and_eq_true, List.isEmpty_iff] at h
    exact .single h.2
  · exact .nil _

theorem rejectRequest_follows (s : Session π) (hl : s.line.Ordered) (expecting : Bool)
    (e : RequestError) :
    Follows s.line (s.rejectChanges expecting e) (s.rejectRequest expecting e).line :=
  fail_follows s hl rfl rfl (Nat.le_refl _) _ _

theorem handleEvent_follows (service : Service α π) (t : Turn α π) (hl : t.session.line.Ordered)
    (e : RequestEvent) :
    Follows t.session.line (eventChanges service t e) (handleEvent service t e).session.line := by
  match e with
  | .head head size => exact startRequest_follows t.session head size
  | .body (.chunk data) => exact .nil _
  | .body .eof =>
    unfold handleEvent eventChanges
    cases t.session.current with
    | none => exact .nil _
    | some r => exact dispatch_follows service (t.modify fun s => { s with current := none }) hl r

theorem processEvents_follows (service : Service α π) (fuel : Nat) (t : Turn α π)
    (hl : t.session.line.Ordered) :
    Follows t.session.line (processChanges service fuel t)
      (processEvents service fuel t).session.line := by
  induction fuel generalizing t with
  | zero => exact .nil _
  | succ fuel ih =>
    unfold processEvents processChanges
    split
    · exact .nil _
    rcases t.session.decoder.decode t.session.buffer with ⟨d, buffer, e | _ | event⟩
    · exact rejectRequest_follows { t.session with decoder := d, buffer } hl _ e
    · exact .nil _
    · -- the order of the line is what the next event needs of this one
      have hevent := handleEvent_follows service
        (t.modify fun s => { s with decoder := d, buffer }) hl event
      exact hevent.append (ih _ (hevent.ordered hl))

/-- Only what a response in line hears can happen when the server stops. -/
theorem endWithLast_follows (s : Session π) (hl : s.line.Ordered) :
    Follows s.line s.lastChanges s.endWithLast.line := by
  unfold endWithLast lastChanges
  cases hlast : s.pending.getLast? with
  | none =>
    dsimp only
    split <;> exact .nil _
  | some last =>
    obtain ⟨ps, hps⟩ := List.getLast?_eq_some_iff.1 hlast
    have hfresh : ∀ p ∈ ps, p.slot ≠ last.slot := by
      have hsorted : (s.pending.map Pending.slot).Pairwise (· < ·) := hl.sorted
      rw [hps, List.map_append, List.pairwise_append] at hsorted
      exact fun p hp => Nat.ne_of_lt
        (hsorted.2.2 p.slot (List.mem_map_of_mem hp) last.slot (by simp))
    have hchange : s.line.change (.told last.slot .last) =
        ⟨ps ++ [{ last with keepAlive := false }], s.out, s.nextSlot⟩ := by
      simp only [line, Line.change, hps, Line.tellFirst_concat hfresh, Pending.take]
    have hallows : s.line.Allows (.told last.slot .last) := by
      rw [Line.Allows, line, hps]
      simp
    have h := Follows.single hallows
    dsimp only
    rw [hps, List.dropLast_concat]
    rw [hchange] at h
    exact h

end WireServer.Http.Session
