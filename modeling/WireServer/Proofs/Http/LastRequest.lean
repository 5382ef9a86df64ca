import WireServer.Proofs.Http.Parting

/-! The last request of a session. Where the server stops, requests are no longer answered with the
promise of more, so the request that is being read is the last one that is dispatched. -/

namespace WireServer.Http

variable {α π τ : Type}

/-- More of the same request came in. -/
structure Request.Grows (q r : Request) : Prop where
  head : r.head = q.head
  body : q.body <+: r.body

theorem Request.Grows.refl (q : Request) : q.Grows q := ⟨rfl, List.prefix_refl _⟩

theorem Request.Grows.more {q r : Request} (h : q.Grows r) (data : Bytes) :
    q.Grows { r with body := r.body ++ data } :=
  ⟨h.head, h.body.trans (List.prefix_append _ _)⟩

/-- Nothing is dispatched but a request that was being read. -/
def AtMost (q? : Option Request) (rs : List Request) : Prop :=
  rs = [] ∨ ∃ q r, q? = some q ∧ rs = [r] ∧ q.Grows r

namespace Session

/-! ### Dispatched requests -/

/-- The request that an event of the decoder dispatches. -/
def eventRequests (t : Turn α π) : RequestEvent → List Request
  | .head _ _ | .body (.chunk _) => []
  | .body .eof => t.session.current.toList

/-- The requests that are dispatched while the buffer is decoded. -/
def processRequests (service : Service α π) : Nat → Turn α π → List Request
  | 0, _ => []
  | fuel + 1, t =>
    if t.session.mode ≠ .serving || !t.session.accepting then []
    else match t.session.decoder.decode t.session.buffer with
      | (d, buffer, .ok (some event)) =>
        let t := t.modify fun s => { s with decoder := d, buffer }
        eventRequests t event ++ processRequests service fuel (handleEvent service t event)
      | (_, _, .ok none) | (_, _, .error _) => []

/-- The requests that a read dispatches. -/
def readRequests (service : Service α π) (t : Turn α π) (src : Bytes) : List Request :=
  let kept := t.modify fun s => { s with buffer := s.buffer ++ src }
  match t.session.mode with
  | .serving =>
    if t.session.accepting then
      processRequests service (2 * kept.session.buffer.length + 3) kept
    else []
  | .upgrading | .failed => []

section Requests

variable {service : Service α π} {t : Turn α π} {s s' : Session π} {q? : Option Request}
  {rs : List Request}

theorem callHandler_eq (service : Service α π) (t : Turn α π) (slot : Nat) (r : Request) :
    ∃ pending, (callHandler service t slot r).session = { t.session with pending } := by
  unfold callHandler
  dsimp only
  generalize (service.handler t.desk.app r).run ⟨some { slot }, t.desk.outbox, t.desk.shelf⟩ = ran
  obtain ⟨pending, hitems⟩ := applyItems_eq t.session (ran.1.outbox.take.2.getD [])
  split
  · exact ⟨_, by simp [Turn.modify, hitems, Session.apply]; rfl⟩
  · exact ⟨pending, hitems⟩

theorem refuses_callHandler (h : t.session.accepting = false) (slot : Nat) (r : Request) :
    ¬ (callHandler service t slot r).session.Takes := by
  obtain ⟨pending, hcall⟩ := callHandler_eq service t slot r
  rw [hcall]
  exact not_takes_refusing h

theorem refuses_serve (service : Service α π) (t : Turn α π) {p : Pending π}
    (hlast : p.keepAlive = false) (r : Request) : ¬ (serve service t p r).session.Takes := by
  unfold serve
  simp only [hlast, Bool.false_eq_true, if_false]
  exact refuses_callHandler rfl p.slot r

/-- Where the server stops, no request is taken behind one that is dispatched. -/
theorem refuses_dispatch (hstopping : t.ctx.stopping = true) (r : Request) :
    ¬ (dispatch service t r).session.Takes := by
  have hserve := refuses_serve service
    (t.modify fun s => { s with nextSlot := t.session.nextSlot + 1 })
    (p := .ofRequest t.session.nextSlot r.head (r.head.keepAlive && !t.ctx.stopping))
    (by simp [Pending.ofRequest, hstopping]) r
  unfold dispatch
  dsimp only
  split
  · exact hserve
  cases UpgradeHandler.ask service.upgradeChain r.head with
  | handled response next => exact not_takes_upgrading rfl
  | ignore => exact hserve
  | unknown => exact not_takes_failed rfl
  | refused status => exact not_takes_failed rfl

theorem process_refused (service : Service α π) (h : ¬ t.session.Takes) (n : Nat) :
    processRequests service n t = [] ∧ processEvents service n t = t := by
  have hrefuses : (t.session.mode ≠ .serving || !t.session.accepting) = true := by
    simpa [Takes, Decidable.imp_iff_not_or] using h
  cases n with
  | zero => exact ⟨rfl, rfl⟩
  | succ n => exact ⟨if_pos hrefuses, if_pos hrefuses⟩

/-- A session that has dispatched `rs` and will dispatch at most one request more in all, the one in
`q?`. It is either being read, or no request is taken any more. -/
def Settles (q? : Option Request) (rs : List Request) (s : Session π) : Prop :=
  rs = [] ∧ (∃ q q', q? = some q ∧ s.current = some q' ∧ q.Grows q') ∨ ¬ s.Takes ∧ AtMost q? rs

theorem Settles.atMost (h : Settles q? rs s) : AtMost q? rs := by
  rcases h with ⟨hnone, -⟩ | ⟨-, hmost⟩
  · exact .inl hnone
  · exact hmost

theorem settles_processEvents (service : Service α π) {q q' : Request}
    (h : t.session.Coherent True)
    (hstopping : t.ctx.stopping = true) (hq : q? = some q) (hcurrent : t.session.current = some q')
    (hgrows : q.Grows q') (n : Nat) :
    Settles q? (processRequests service n t) (processEvents service n t).session := by
  induction n generalizing t q' with
  | zero => exact .inl ⟨rfl, q, q', hq, hcurrent, hgrows⟩
  | succ n ih =>
    unfold processEvents processRequests
    split
    · exact .inl ⟨rfl, q, q', hq, hcurrent, hgrows⟩
    rename_i htakes
    have ht : t.session.Takes := by simpa [Takes] using htakes
    rcases hdecode : t.session.decoder.decode t.session.buffer with ⟨d, buffer, e | _ | event⟩
    · exact .inr ⟨not_takes_failed rfl, .inl rfl⟩
    · exact .inl ⟨rfl, q, q', hq, hcurrent, hgrows⟩
    have hcoherent := h.handleEvent service ht (fun _ => hstopping) hdecode
    obtain ⟨rx, hctx⟩ := ctx_handleEvent service
      (t.modify fun s => { s with decoder := d, buffer }) event
    have hpasses := RequestDecoder.decode_some hdecode
    rw [h.aligned ht, hcurrent] at hpasses
    rcases event with ⟨head, size⟩ | ⟨data⟩ | _
    case head => cases hpasses.1
    case body.chunk =>
      refine ih hcoherent ?_ ?_ (hgrows.more data)
      · rw [hctx]
        exact hstopping
      · simp [handleEvent, Turn.modify, hcurrent]
    case body.eof =>
      -- behind the last request nothing is decoded any more
      have hrefuses : ¬ (handleEvent service (t.modify fun s => { s with decoder := d, buffer })
          (.body .eof)).session.Takes := by
        simp only [handleEvent, Turn.modify, hcurrent]
        exact refuses_dispatch (t := t.modify fun s =>
          { s with decoder := d, buffer, current := none }) hstopping q'
      obtain ⟨hnone, hsame⟩ := process_refused service hrefuses n
      dsimp only
      rw [hsame, hnone]
      refine .inr ⟨hrefuses, .inr ⟨q, q', hq, ?_, hgrows⟩⟩
      simp [eventRequests, Turn.modify, hcurrent]

end Requests

/-! ### One callback -/

section Callback

variable {service : Service α π} {t : Turn α π} {s s' s'' : Session π} {q? : Option Request}
  {rs : List Request}

/-- The same request is read, and requests are not taken again. -/
structure Narrows (s s' : Session π) : Prop where
  current : s'.current = s.current
  takes : s'.Takes → s.Takes

theorem Narrows.trans (h : Narrows s s') (h' : Narrows s' s'') : Narrows s s'' :=
  ⟨h'.current.trans h.current, h.takes ∘ h'.takes⟩

theorem Settles.mono (h : Settles q? rs s) (hs : Narrows s s') : Settles q? rs s' := by
  rcases h with ⟨hnone, hreads⟩ | ⟨hrefuses, hmost⟩
  · exact .inl ⟨hnone, hs.current ▸ hreads⟩
  · exact .inr ⟨fun ht => hrefuses (hs.takes ht), hmost⟩

theorem narrows_applyItems (s : Session π) (items : List Item) :
    Narrows s (items.foldl applyItem s) := by
  obtain ⟨pending, hitems⟩ := applyItems_eq s items
  exact hitems ▸ ⟨rfl, id⟩

theorem narrows_flushFront (s : Session π) (ps : List (Pending π)) :
    Narrows s (s.flushFront ps) := by
  induction ps generalizing s with
  | nil => exact ⟨rfl, id⟩
  | cons p ps ih =>
    unfold flushFront
    dsimp only
    split
    · exact ⟨rfl, id⟩
    split
    · exact ⟨rfl, fun ht => absurd ht (not_takes_refusing rfl)⟩
    split
    · have hback := ih { s with out := s.out.append p.out }
      exact ⟨hback.current, hback.takes⟩
    · exact ⟨rfl, fun ht => absurd ht (not_takes_refusing rfl)⟩

theorem narrows_finishUp (t : Turn α π) : Narrows t.session (finishUp t).session := by
  unfold finishUp
  split <;> exact ⟨rfl, id⟩

theorem narrows_finishIfSent (t : Turn α π) : Narrows t.session (finishIfSent t).session := by
  unfold finishIfSent
  split
  · exact narrows_finishUp t
  · exact ⟨rfl, id⟩

theorem narrows_arm (t : Turn α π) : Narrows t.session (arm t).session := by
  unfold arm
  split
  · exact ⟨rfl, id⟩
  · exact narrows_finishUp t

theorem narrows_endWithLast (s : Session π) :
    Narrows s { s with accepting := false }.endWithLast := by
  unfold endWithLast
  dsimp only
  split
  · exact ⟨rfl, fun ht => absurd ht (not_takes_refusing rfl)⟩
  · split <;> exact ⟨rfl, fun ht => absurd ht (not_takes_refusing rfl)⟩

theorem narrows_wakeup (t : Turn α π) (items : List Item) :
    Narrows t.session (wakeup t items).session :=
  ((narrows_applyItems t.session items).trans (narrows_flushFront _ _)).trans
    (narrows_arm (t.modify fun s => (items.foldl applyItem s).flushReady))

theorem narrows_stop (t : Turn α π) : Narrows t.session (stop t).session := by
  unfold stop
  split
  · exact ⟨rfl, id⟩
  split
  · exact ⟨rfl, id⟩
  · exact (narrows_endWithLast t.session).trans
      (narrows_arm (t.modify fun s => endWithLast { s with accepting := false }).disableRx)

theorem narrows_write (t : Turn α π) (socket : Net.Sender τ) (io : τ) :
    Narrows t.session (write t socket io).1.session := by
  have hflush := narrows_flushFront t.session t.session.pending
  rw [write_eq]
  refine Narrows.trans ?_ (narrows_finishIfSent _)
  exact ⟨hflush.current, hflush.takes⟩

theorem settles_process {q q' : Request} (h : t.session.Coherent True)
    (hstopping : t.ctx.stopping = true) (hq : q? = some q) (hcurrent : t.session.current = some q')
    (hgrows : q.Grows q') :
    Settles q? (processRequests service (2 * t.session.buffer.length + 3) t)
      (process service t).session := by
  have hevents := settles_processEvents service h hstopping hq hcurrent hgrows
    (2 * t.session.buffer.length + 3)
  unfold process
  generalize processEvents service _ t = u at hevents ⊢
  exact (hevents.mono (narrows_flushFront _ _)).mono (narrows_arm (u.modify flushReady))

/-- What is dispatched altogether stays what was being read. -/
theorem Settles.read (h : Settles q? rs t.session) (hcoherent : t.session.Coherent True)
    (hstopping : t.ctx.stopping = true) (src : Bytes) :
    Settles q? (rs ++ readRequests service t src) (read service t src).session := by
  have hkept : Narrows t.session { t.session with buffer := t.session.buffer ++ src } := ⟨rfl, id⟩
  unfold Session.read readRequests
  dsimp only
  cases hmode : t.session.mode with
  | serving =>
    by_cases haccepting : t.session.accepting
    · simp only [haccepting, if_true]
      obtain ⟨rfl, q, q', hq, hcurrent, hgrows⟩ :=
        h.resolve_right fun hrefuses => hrefuses.1 ⟨hmode, haccepting⟩
      exact settles_process (t := t.modify fun s => { s with buffer := s.buffer ++ src })
        hcoherent.with_buffer hstopping hq hcurrent hgrows
    · simp only [haccepting, Bool.false_eq_true, if_false, List.append_nil]
      exact h
  | upgrading => exact (List.append_nil rs).symm ▸ h.mono hkept
  | failed => exact (List.append_nil rs).symm ▸ h

/-- When the server stops, a request is being read or none is taken any more. -/
theorem settles_stop (h : Poised True (stop t)) (hcalm : (stop t).ctx.Calm) :
    Settles t.session.current [] (stop t).session := by
  have hnarrows := narrows_stop t
  rcases (h.calm hcalm).winding trivial with hreads | hwinding
  · obtain ⟨q, hq⟩ := Option.isSome_iff_exists.1 hreads
    exact .inl ⟨rfl, q, q, hnarrows.current.symm.trans hq, hq, .refl q⟩
  · exact .inr ⟨hwinding.refuses, .inl rfl⟩

/-- A session on which the server stopped waits for no more requests. -/
theorem Poised.busy (h : Poised True t) (hcalm : t.ctx.Calm) :
    t.session.current.isSome ∨ t.session.pending ≠ [] ∨ 0 < t.session.out.total := by
  rcases (h.calm hcalm).winding trivial with hreads | ⟨-, hending | ⟨p, hp, -⟩⟩
  · exact .inl hreads
  · exact .inr (.inr (h.waiting hending))
  · exact .inr (.inl (List.ne_nil_of_mem (List.mem_of_getLast? hp)))

end Callback

end Session

end WireServer.Http
