import WireServer.Proofs.Http.Serving

/-! How an exchange of requests and responses comes to its end. A response behind which nothing
follows is the last one; once it is out of the line the session waits for the socket alone, and asks
for the end of the connection, or for the next protocol, as soon as all is sent. A session that
winds down already has the last response in its line, or reads the request for it. -/

namespace WireServer

/-- Neither a half-close nor another protocol is asked for. -/
structure Context.Calm {π : Type} (ctx : Context π) : Prop where
  shutdown : ctx.shutdown = false
  transition : ctx.transition = none

section Calm

variable {π : Type} {ctx : Context π} {P : Prop}

theorem Context.Calm.unasked (h : ctx.Calm) (hasked : ctx.shutdown = true) : P := by
  simp [h.shutdown] at hasked

theorem Context.Calm.stays (h : ctx.Calm) (hasked : ctx.transition.isSome) : P := by
  simp [h.transition] at hasked

end Calm

namespace Http

variable {α π τ : Type}

namespace Pending

variable (p : Pending π)

/-- Nothing follows behind this response. -/
def Ends : Prop := p.keepAlive = false ∨ p.successor.isSome

/-- The answer behind which another protocol takes over is there at once. -/
def Prepared : Prop := p.successor.isSome → p.isComplete ∧ 0 < p.out.total

@[simp] theorem successor_pushBody (body : Bytes) : (p.pushBody body).successor = p.successor := by
  unfold pushBody
  split <;> rfl

@[simp] theorem successor_pushHead (head : ResponseHead) (size : BodySize) :
    (p.pushHead head size).successor = p.successor := by
  unfold pushHead
  dsimp only
  split <;> rfl

@[simp] theorem successor_applyHead (head : ResponseHead) :
    (p.applyHead head).successor = p.successor := by
  unfold applyHead
  dsimp only
  split <;> simp [begin]

@[simp] theorem successor_accept (part : Part) : (p.accept part).successor = p.successor := by
  unfold accept
  cases part with
  | full r =>
    simp only [apply]
    cases p.stage <;> simp [applyFull, begin]
  | head head =>
    simp only [apply]
    cases p.stage <;> simp
  | data bytes =>
    simp only [apply, applyData]
    cases p.stage <;> simp [apply_ite successor, pushChunk, push]
  | finish =>
    simp only [apply, applyFinish]
    cases p.stage <;> simp [apply_ite successor, push]
  | abort =>
    simp only [apply, applyAbort]
    cases p.stage <;> simp [begin]

variable {p}

theorem keepAlive_pushBody (body : Bytes) : (p.pushBody body).keepAlive = p.keepAlive := by
  unfold pushBody
  split <;> rfl

theorem keepAlive_pushHead (h : p.keepAlive = false) (head : ResponseHead) (size : BodySize) :
    (p.pushHead head size).keepAlive = false := by
  unfold pushHead
  dsimp only
  split
  · rfl
  · exact h

/-- No part makes the connection stay open. -/
theorem keepAlive_accept (h : p.keepAlive = false) (part : Part) :
    (p.accept part).keepAlive = false := by
  unfold accept
  cases part with
  | full r =>
    simp only [apply]
    cases p.stage <;> simp [keepAlive_applyFull, h]
  | head head =>
    have hhead := keepAlive_pushHead (p := p.begin head.status) h head .chunked
    simp only [apply]
    cases p.stage with
    | waiting =>
      simp only [applyHead]
      split
      · exact hhead
      · exact h
    | _ => exact h
  | data bytes =>
    simp only [apply, applyData]
    cases p.stage <;> simp [apply_ite keepAlive, pushChunk, push, h]
  | finish =>
    simp only [apply, applyFinish]
    cases p.stage with
    | gathering head body =>
      exact (keepAlive_pushBody body).trans (keepAlive_pushHead h head _)
    | _ => simp [apply_ite keepAlive, push, h]
  | abort =>
    have herror := keepAlive_pushHead (p := { p with keepAlive := false }.begin 200) rfl
      { status := 500 } .empty
    simp only [apply, applyAbort]
    cases p.stage <;> first | exact herror | exact h

theorem Ends.accept (h : p.Ends) (part : Part) : (p.accept part).Ends := by
  rcases h with h | h
  · exact .inl (keepAlive_accept h part)
  · exact .inr (by rwa [successor_accept])

theorem total_pushBody (body : Bytes) : p.out.total ≤ (p.pushBody body).out.total := by
  unfold pushBody
  split
  · simp [push, Net.Chain.total]
  · exact Nat.le_refl _

theorem total_pushHead_pos (head : ResponseHead) (size : BodySize) :
    0 < (p.pushHead head size).out.total := by
  simp only [pushHead, push, Net.Chain.total, Net.Chain.toBytes_push, ResponseHead.wire,
    List.length_append, List.length_cons]
  omega

theorem prepared_applyFull (p : Pending π) (r : Response) (next : π) :
    { p.applyFull r with successor := some next }.Prepared := fun _ =>
  ⟨applyFull_isComplete p r, Nat.lt_of_lt_of_le (total_pushHead_pos _ _) (total_pushBody _)⟩

theorem Prepared.of_none (h : p.successor = none) : p.Prepared := by simp [Prepared, h]

end Pending

namespace RequestDecoder

/-- Behind a head the decoder is in the body, and it stays there up to the end of the body. -/
def Passes (before : Bool) (event : RequestEvent) (after : Bool) : Prop :=
  match event with
  | .head _ _ => before = false ∧ after = true
  | .body (.chunk _) => before = true ∧ after = true
  | .body .eof => before = true ∧ after = false

theorem decode_some {d d' : RequestDecoder} {src rest : Bytes} {event : RequestEvent}
    (h : d.decode src = (d', rest, .ok (some event))) :
    Passes d.body.isSome event d'.body.isSome := by
  unfold decode at h
  rcases hbody : d.body with _ | b <;> rw [hbody] at h
  · simp only [decodeHead] at h
    split at h
    · simp at h
    · simp at h
    · split at h
      · simp at h
      · cases h
        exact ⟨rfl, rfl⟩
  · simp only [decodeBody] at h
    split at h
    · simp at h
    · simp at h
    · cases h
      exact ⟨rfl, rfl⟩
    · split at h
      · simp at h
      · cases h
        exact ⟨rfl, rfl⟩

/-- Where more input is needed, the decoder stays where it is. -/
theorem decode_none {d d' : RequestDecoder} {src rest : Bytes}
    (h : d.decode src = (d', rest, .ok none)) : d'.body.isSome = d.body.isSome := by
  unfold decode at h
  rcases hbody : d.body with _ | b <;> rw [hbody] at h
  · simp only [decodeHead] at h
    split at h
    · simp at h
    · cases h
      simp [hbody]
    · split at h <;> simp at h
  · simp only [decodeBody] at h
    split at h
    · simp at h
    · cases h
      rfl
    · simp at h
    · split at h <;> simp at h

end RequestDecoder

namespace Session

/-- Requests are still taken. -/
def Takes (s : Session π) : Prop := s.mode = .serving ∧ s.accepting = true

theorem not_takes_upgrading {s : Session π} (h : s.mode = .upgrading) : ¬ s.Takes := by
  simp [Takes, h]

theorem not_takes_failed {s : Session π} (h : s.mode = .failed) : ¬ s.Takes := by
  simp [Takes, h]

theorem not_takes_refusing {s : Session π} (h : s.accepting = false) : ¬ s.Takes := by
  simp [Takes, h]

/-- No request is taken any more, and the last response is in line or out of it. -/
structure Winding (s : Session π) : Prop where
  refuses : ¬ s.Takes
  last : s.ending.isSome ∨ ∃ p, s.pending.getLast? = some p ∧ p.Ends

/-- What holds of a session all along. If it is `stopped`, it winds down, or a request is read that
makes it wind down. -/
structure Coherent (stopped : Prop) (s : Session π) : Prop where
  /-- Nothing is in line behind the last response. -/
  ended : s.ending.isSome → s.pending = [] ∧ s.accepting = false
  /-- The answer to a request to switch is still to be sent. -/
  switching : ∀ next, s.ending = some (.switchTo next) → 0 < s.out.total
  handing : ∀ p ∈ s.pending, p.Prepared
  /-- The decoder is in the body of the request that is being read. -/
  aligned : s.Takes → s.decoder.body.isSome = s.current.isSome
  winding : stopped → s.current.isSome ∨ s.Winding

theorem coherent_new (service : Service α π) : (new service).Coherent False := by
  constructor <;> simp [new]

theorem Coherent.weaken {stopped : Prop} {s : Session π} (h : s.Coherent stopped) :
    s.Coherent False :=
  { h with winding := False.elim }

/-- While requests are taken, the end is open. -/
theorem Coherent.open {stopped : Prop} {s : Session π} (h : s.Coherent stopped) (ht : s.Takes) :
    s.ending = none := by
  rcases hending : s.ending with _ | e
  · rfl
  · cases ht.2.symm.trans (h.ended (by simp [hending])).2

section Apply

variable {slot : Nat} {part : Part} {ps : List (Pending π)} {stopped : Prop} {s : Session π}

theorem mem_applyToFirst {q : Pending π} (hq : q ∈ applyToFirst slot part ps) :
    ∃ p ∈ ps, q = p ∨ q = p.accept part := by
  induction ps with
  | nil => cases hq
  | cons p ps ih =>
    rw [applyToFirst] at hq
    split at hq
    · rcases List.mem_cons.1 hq with rfl | hq
      · exact ⟨p, List.mem_cons_self, .inr rfl⟩
      · exact ⟨q, List.mem_cons_of_mem _ hq, .inl rfl⟩
    · rcases List.mem_cons.1 hq with rfl | hq
      · exact ⟨q, List.mem_cons_self, .inl rfl⟩
      · obtain ⟨p', hp', hsame⟩ := ih hq
        exact ⟨p', List.mem_cons_of_mem _ hp', hsame⟩

theorem getLast?_applyToFirst (slot : Nat) (part : Part) {p : Pending π}
    (hp : ps.getLast? = some p) :
    ∃ q, (applyToFirst slot part ps).getLast? = some q ∧ (q = p ∨ q = p.accept part) := by
  induction ps with
  | nil => cases hp
  | cons p' ps ih =>
    rw [applyToFirst]
    rcases ps with _ | ⟨p'', ps⟩
    · cases hp
      split
      · exact ⟨_, rfl, .inr rfl⟩
      · exact ⟨_, rfl, .inl rfl⟩
    · rw [List.getLast?_cons_cons] at hp
      split
      · exact ⟨p, by rwa [List.getLast?_cons_cons], .inl rfl⟩
      · obtain ⟨q, hq, hsame⟩ := ih hp
        refine ⟨q, ?_, hsame⟩
        rw [List.getLast?_cons, hq]
        rfl

/-- Parts come to responses in line, whatever becomes of them. -/
theorem Coherent.apply (h : s.Coherent stopped) (slot : Nat) (part : Part) :
    (s.apply slot part).Coherent stopped where
  ended hending := by
    obtain ⟨hpending, haccepting⟩ := h.ended hending
    exact ⟨by rw [Session.apply, hpending]; rfl, haccepting⟩
  switching := h.switching
  handing q hq hsuccessor := by
    obtain ⟨p, hp, rfl | rfl⟩ := mem_applyToFirst hq
    · exact h.handing q hp hsuccessor
    · have hp := h.handing p hp (by rwa [Pending.successor_accept] at hsuccessor)
      rwa [Pending.accept_of_complete hp.1]
  aligned := h.aligned
  winding hstopped := by
    refine (h.winding hstopped).imp id fun hw => ⟨hw.refuses, hw.last.imp id ?_⟩
    rintro ⟨p, hp, hends⟩
    obtain ⟨q, hq, rfl | rfl⟩ := getLast?_applyToFirst slot part hp
    · exact ⟨q, hq, hends⟩
    · exact ⟨_, hq, hends.accept part⟩

theorem Coherent.applyItems (h : s.Coherent stopped) (items : List Item) :
    (items.foldl applyItem s).Coherent stopped := by
  induction items generalizing s with
  | nil => exact h
  | cons item items ih =>
    refine ih ?_
    cases item with
    | answer slot part => exact h.apply slot part
    | frame flags payload => exact h
    | close code => exact h

end Apply

/-! ### Requests -/

section Requests

variable {stopped : Prop} {service : Service α π} {t : Turn α π} {s : Session π}

/-- A response gets in line. Where the session is stopped, it is the last one. -/
theorem Coherent.queue {s' : Session π} (h : ∀ p ∈ s.pending, p.Prepared)
    (hopen : s'.ending = none) {p : Pending π} (hpending : s'.pending = s.pending ++ [p])
    (hp : p.Prepared) (haligned : s'.Takes → s'.decoder.body.isSome = s'.current.isSome)
    (hends : stopped → ¬ s'.Takes ∧ p.Ends) : s'.Coherent stopped where
  ended hending := by simp [hopen] at hending
  switching next hnext := by simp [hopen] at hnext
  handing q hq := by
    rcases List.mem_append.1 (hpending ▸ hq) with hq | hq
    · exact h q hq
    · exact List.mem_singleton.1 hq ▸ hp
  aligned := haligned
  winding hstopped := .inr ⟨(hends hstopped).1, .inr ⟨p, by simp [hpending], (hends hstopped).2⟩⟩

/-- The error response is the last one. -/
theorem Coherent.fail (h : ∀ p ∈ s.pending, p.Prepared) (hopen : s.ending = none)
    (version : Version) (status : Status) : (s.fail version status).Coherent stopped :=
  have hkeep : (Pending.error s.nextSlot version status : Pending π).keepAlive = false :=
    Pending.keepAlive_applyFull rfl _
  .queue (p := .error s.nextSlot version status) h hopen rfl
    (.of_none (Pending.successor_applyFull rfl _))
    (fun ht => absurd ht (not_takes_failed rfl)) fun _ => ⟨not_takes_failed rfl, .inl hkeep⟩

theorem Coherent.callHandler (h : t.session.Coherent stopped) (slot : Nat) (r : Request) :
    (callHandler service t slot r).session.Coherent stopped := by
  unfold Session.callHandler
  dsimp only
  split
  · exact (h.applyItems _).apply _ _
  · exact h.applyItems _

/-- A request is served; one that is the last one closes the session to others. -/
theorem Coherent.serve (h : ∀ p ∈ t.session.pending, p.Prepared) (hopen : t.session.ending = none)
    (hbetween : t.session.decoder.body.isSome = t.session.current.isSome) {p : Pending π}
    (hp : p.successor = none) (hends : stopped → p.keepAlive = false) (r : Request) :
    (serve service t p r).session.Coherent stopped := by
  unfold Session.serve
  dsimp only
  split
  · rename_i hkeep
    have hqueued : { t.session with pending := t.session.pending ++ [p] }.Coherent stopped :=
      queue h hopen rfl (.of_none hp) (fun _ => hbetween)
        fun hstopped => by simp [hends hstopped] at hkeep
    exact hqueued.callHandler (t := t.modify fun s => { s with pending := s.pending ++ [p] }) _ _
  · rename_i hkeep
    have hlast : p.Ends := .inl (by simpa using hkeep)
    have hqueued : { t.session with
        pending := t.session.pending ++ [p], accepting := false }.Coherent stopped :=
      queue h hopen rfl (.of_none hp) (fun ht => absurd ht (not_takes_refusing rfl))
        fun _ => ⟨not_takes_refusing rfl, hlast⟩
    exact hqueued.callHandler (t := (t.modify fun s => { s with
      pending := s.pending ++ [p], accepting := false }).disableRx) _ _

theorem Coherent.dispatch (h : ∀ p ∈ t.session.pending, p.Prepared)
    (hopen : t.session.ending = none)
    (hbetween : t.session.decoder.body.isSome = t.session.current.isSome)
    (hstopping : stopped → t.ctx.stopping = true) (r : Request) :
    (dispatch service t r).session.Coherent stopped := by
  have hserve : (Session.serve service _ _ r).session.Coherent stopped :=
    serve (t := t.modify fun s => { s with nextSlot := t.session.nextSlot + 1 }) h hopen hbetween
      (p := .ofRequest t.session.nextSlot r.head (r.head.keepAlive && !t.ctx.stopping)) rfl
      (fun hstopped => by simp [Pending.ofRequest, hstopping hstopped]) r
  unfold Session.dispatch
  dsimp only
  split
  · exact hserve
  cases UpgradeHandler.ask service.upgradeChain r.head with
  | handled response next =>
    exact queue h hopen rfl (Pending.prepared_applyFull _ response next)
      (fun ht => absurd ht (not_takes_upgrading rfl)) fun _ => ⟨not_takes_upgrading rfl, .inr rfl⟩
  | ignore => exact hserve
  | unknown => exact fail (s := { t.session with nextSlot := t.session.nextSlot + 1 }) h hopen _ _
  | refused status =>
    exact fail (s := { t.session with nextSlot := t.session.nextSlot + 1 }) h hopen _ _

theorem startRequest_reads (s : Session π) (head : RequestHead) (size : BodySize) :
    ∃ out, s.startRequest head size = { s with out, current := some { head } } := by
  unfold startRequest
  dsimp only
  split
  · exact ⟨_, rfl⟩
  · exact ⟨_, rfl⟩

/-- More of a request is read. -/
theorem Coherent.advance (h : ∀ p ∈ s.pending, p.Prepared) (hopen : s.ending = none)
    {d : RequestDecoder} {buffer : Bytes} {out : Net.Chain} {current : Option Request}
    (haligned : d.body.isSome = current.isSome) (hreads : stopped → current.isSome) :
    { s with decoder := d, buffer, out, current }.Coherent stopped where
  ended hending := by simp [hopen] at hending
  switching next hnext := by simp [hopen] at hnext
  handing := h
  aligned _ := haligned
  winding hstopped := .inl (hreads hstopped)

/-- One event of the decoder. -/
theorem Coherent.handleEvent (service : Service α π) (h : t.session.Coherent stopped)
    (ht : t.session.Takes) (hstopping : stopped → t.ctx.stopping = true) {d : RequestDecoder}
    {buffer : Bytes} {event : RequestEvent}
    (hdecode : t.session.decoder.decode t.session.buffer = (d, buffer, .ok (some event))) :
    (handleEvent service (t.modify fun s => { s with decoder := d, buffer }) event).session.Coherent
      stopped := by
  -- the event tells whether a request is being read before it and behind it
  have hopen := h.open ht
  have hthrough := RequestDecoder.decode_some hdecode
  rw [h.aligned ht] at hthrough
  match event with
  | .head head size =>
    obtain ⟨out, hstart⟩ := startRequest_reads { t.session with decoder := d, buffer } head size
    simp only [Session.handleEvent, Turn.modify, hstart]
    exact advance h.handing hopen hthrough.2 fun _ => rfl
  | .body (.chunk data) =>
    have hcurrent (f : Request → Request) : (t.session.current.map f).isSome = true :=
      Option.isSome_map.trans hthrough.1
    exact advance h.handing hopen (hthrough.2.trans (hcurrent _).symm) fun _ => hcurrent _
  | .body .eof =>
    obtain ⟨r, hr⟩ := Option.isSome_iff_exists.1 hthrough.1
    simp only [Session.handleEvent, Turn.modify, hr]
    exact dispatch (t := t.modify fun s => { s with decoder := d, buffer, current := none })
      h.handing hopen hthrough.2 hstopping r

theorem ctx_handleEvent (service : Service α π) (t : Turn α π) (event : RequestEvent) :
    ∃ rx, (Session.handleEvent service t event).ctx = { t.ctx with rx } := by
  have hcall (u : Turn α π) (slot : Nat) (r : Request) :
      (Session.callHandler service u slot r).ctx = u.ctx := by
    unfold Session.callHandler
    dsimp only
    split <;> rfl
  have hserve (u : Turn α π) (p : Pending π) (r : Request) :
      ∃ rx, (Session.serve service u p r).ctx = { u.ctx with rx } := by
    unfold Session.serve
    dsimp only
    split
    · exact ⟨_, hcall _ _ _⟩
    · exact ⟨_, hcall _ _ _⟩
  match event with
  | .head _ _ => exact ⟨_, rfl⟩
  | .body (.chunk _) => exact ⟨_, rfl⟩
  | .body .eof =>
    unfold Session.handleEvent
    rcases t.session.current with _ | r
    · exact ⟨_, rfl⟩
    dsimp only
    unfold Session.dispatch
    dsimp only
    split
    · exact hserve _ _ r
    cases UpgradeHandler.ask service.upgradeChain r.head with
    | handled response next => exact ⟨_, rfl⟩
    | ignore => exact hserve _ _ r
    | unknown => exact ⟨_, rfl⟩
    | refused status => exact ⟨_, rfl⟩

theorem Coherent.processEvents (service : Service α π) (h : t.session.Coherent stopped)
    (hstopping : stopped → t.ctx.stopping = true) (n : Nat) :
    (processEvents service n t).session.Coherent stopped := by
  induction n generalizing t with
  | zero => exact h
  | succ n ih =>
    unfold Session.processEvents
    split
    · exact h
    rename_i htakes
    have ht : t.session.Takes := by
      simpa [Takes] using htakes
    have hopen := h.open ht
    rcases hdecode : t.session.decoder.decode t.session.buffer with ⟨d, buffer, e | _ | event⟩
    · exact fail (s := { t.session with decoder := d, buffer }) h.handing hopen _ _
    · have haligned := (RequestDecoder.decode_none hdecode).trans (h.aligned ht)
      exact ⟨h.ended, h.switching, h.handing, fun _ => haligned,
        fun hstopped => (h.winding hstopped).imp id fun hw => absurd ht hw.refuses⟩
    · obtain ⟨rx, hctx⟩ := ctx_handleEvent service
        (t.modify fun s => { s with decoder := d, buffer }) event
      refine ih (h.handleEvent service ht hstopping hdecode) fun hstopped => ?_
      rw [hctx]
      exact hstopping hstopped

end Requests

/-! ### The flush -/

section Flush

variable {stopped : Prop} {s : Session π} {ps : List (Pending π)}

/-- What the flush leaves: no response, or some behind one that is not complete, or the end of the
exchange. -/
inductive Flushed (s : Session π) (ps : List (Pending π)) : Session π → Prop
  | through (out : Net.Chain) : (∀ p ∈ ps, ¬ p.Ends) → Flushed s ps { s with out, pending := [] }
  | held (out : Net.Chain) (p : Pending π) (back : List (Pending π)) : p :: back <:+ ps →
    ¬ p.isComplete → Flushed s ps { s with out, pending := { p with out := {} } :: back }
  | last (out : Net.Chain) (e : Ending π) : (∀ next, e = .switchTo next → 0 < out.total) →
    Flushed s ps { s with out, pending := [], ending := some e, accepting := false }

theorem flushFront_flushed (s : Session π) (h : ∀ p ∈ ps, p.Prepared) :
    Flushed s ps (s.flushFront ps) := by
  induction ps generalizing s with
  | nil => exact .through s.out (by simp)
  | cons p ps ih =>
    rw [List.forall_mem_cons] at h
    unfold flushFront
    dsimp only
    split
    · rename_i hopen
      exact .held _ p ps (List.suffix_refl _) (by simpa using hopen)
    split
    · rename_i next hnext
      refine .last _ _ fun _ _ => ?_
      have hfull := (h.1 (by simp [hnext])).2
      simp only [Net.Chain.total, Net.Chain.toBytes_append, List.length_append] at hfull ⊢
      omega
    rename_i hnone
    split
    · rename_i hkeep
      have hback := ih { s with out := s.out.append p.out } h.2
      generalize flushFront { s with out := s.out.append p.out } ps = s' at hback
      cases hback with
      | through out hps =>
        refine .through out (List.forall_mem_cons.2 ⟨?_, hps⟩)
        simp [Pending.Ends, hkeep, hnone]
      | held out q back hsuffix hopen =>
        exact .held out q back (hsuffix.trans (List.suffix_cons p ps)) hopen
      | last out e he => exact .last out e he
    · exact .last _ _ (by simp)

/-- A flush takes nothing from the last response but its output. -/
theorem getLast?_held {p q : Pending π} {back : List (Pending π)} (hsuffix : p :: back <:+ ps)
    (hq : ps.getLast? = some q) (hends : q.Ends) :
    ∃ q', ({ p with out := {} } :: back).getLast? = some q' ∧ q'.Ends := by
  obtain ⟨front, rfl⟩ := hsuffix
  rw [List.getLast?_append, List.getLast?_eq_some_getLast (List.cons_ne_nil p back),
    Option.some_or, ← List.getLast?_eq_some_getLast] at hq
  rcases back with _ | ⟨p', back⟩
  · cases hq
    exact ⟨_, rfl, hends⟩
  · exact ⟨q, by rwa [List.getLast?_cons_cons] at hq ⊢, hends⟩

theorem Coherent.flushReady (h : s.Coherent stopped) : s.flushReady.Coherent stopped := by
  rcases Option.eq_none_or_eq_some s.ending with hending | ⟨e, hending⟩
  -- at the end of the exchange no response is in line any more
  case inr => rwa [flushReady_of_unanswered (h.ended (by simp [hending])).1]
  have hflushed := flushFront_flushed s h.handing
  unfold Session.flushReady
  generalize s.flushFront s.pending = s' at hflushed
  have hlast (hstopped : stopped) : s.current.isSome ∨
      ¬ s.Takes ∧ ∃ p, s.pending.getLast? = some p ∧ p.Ends :=
    (h.winding hstopped).imp id fun hw => ⟨hw.refuses, hw.last.resolve_left (by simp [hending])⟩
  cases hflushed with
  | through out hps =>
    refine ⟨by simp [hending], by simp [hending], by simp, h.aligned, fun hstopped => ?_⟩
    refine (hlast hstopped).imp id fun ⟨_, p, hp, hends⟩ => ?_
    exact absurd hends (hps p (List.mem_of_getLast? hp))
  | held out p back hsuffix hopen =>
    refine ⟨by simp [hending], by simp [hending], fun q hq => ?_, h.aligned, fun hstopped => ?_⟩
    · rcases List.mem_cons.1 hq with rfl | hq
      · exact fun hsome => absurd (h.handing p (hsuffix.mem List.mem_cons_self) hsome).1 hopen
      · exact h.handing q (hsuffix.mem (List.mem_cons_of_mem _ hq))
    · -- the one that is held back is the front of what is left, maybe the last one itself
      exact (hlast hstopped).imp id fun ⟨hrefuses, q, hq, hends⟩ =>
        ⟨hrefuses, .inr (getLast?_held hsuffix hq hends)⟩
  | last out e he =>
    refine ⟨fun _ => ⟨rfl, rfl⟩, fun next hnext => ?_, by simp,
      fun ht => absurd ht (not_takes_refusing rfl),
      fun _ => .inr ⟨not_takes_refusing rfl, .inl rfl⟩⟩
    cases hnext
    exact he next rfl

end Flush

/-! ### One callback -/

section Callback

variable {stopped : Prop} {service : Service α π} {t : Turn α π}

/-- What holds behind every callback. Unsent output waits for the socket. The end of the exchange
is asked for as soon as everything is sent, and not before. -/
structure Poised (stopped : Prop) (t : Turn α π) : Prop where
  coherent : t.session.Coherent False
  waiting : t.session.ending.isSome → 0 < t.session.out.total
  armed : 0 < t.session.out.total → t.ctx.tx = true
  finished : t.ctx.shutdown = true →
    t.session.out.total = 0 ∧ t.session.pending = [] ∧ t.session.ending = none
  either : t.ctx.transition.isSome → t.ctx.shutdown = false
  stopping : stopped → t.ctx.stopping = true
  winding : stopped → t.ctx.shutdown = true ∨ t.ctx.transition.isSome ∨
    t.session.current.isSome ∨ t.session.Winding

theorem Poised.weaken (h : Poised stopped t) : Poised False t :=
  { h with stopping := False.elim, winding := False.elim }

theorem Poised.calm (h : Poised stopped t) (hcalm : t.ctx.Calm) :
    t.session.Coherent stopped :=
  { h.coherent with
    winding := fun hstopped => by
      simpa [hcalm.shutdown, hcalm.transition] using h.winding hstopped }

/-- The requests of others and those taken back do not matter. -/
theorem Poised.recast {ctx ctx' : Context π} {s : Session π} {desk desk' : Desk α}
    (h : Poised stopped ⟨ctx, s, desk⟩) (hcalm : ctx.Calm) (hcalm' : ctx'.Calm)
    (htx : ctx'.tx = ctx.tx) (hstopping : stopped → ctx'.stopping = true) :
    Poised stopped ⟨ctx', s, desk'⟩ where
  coherent := h.coherent
  waiting := h.waiting
  armed hwaits := htx.trans (h.armed hwaits)
  finished := hcalm'.unasked
  either _ := hcalm'.shutdown
  stopping := hstopping
  winding hstopped := .inr (.inr ((h.calm hcalm).winding hstopped))

/-- Without unsent output, nothing has to wait for the socket. -/
theorem Poised.disarm {ctx : Context π} {s : Session π} {desk : Desk α}
    (h : Poised stopped ⟨ctx, s, desk⟩) (hsent : s.out.total = 0) :
    Poised stopped ⟨{ ctx with tx := false }, s, desk⟩ :=
  ⟨h.coherent, h.waiting, fun hwaits => absurd hwaits (by simp [hsent]), h.finished, h.either,
    h.stopping, h.winding⟩

theorem Coherent.with_buffer {s : Session π} (h : s.Coherent stopped) {buffer : Bytes} :
    { s with buffer }.Coherent stopped :=
  ⟨h.ended, h.switching, h.handing, h.aligned,
    fun hstopped => (h.winding hstopped).imp id fun hw => ⟨hw.refuses, hw.last⟩⟩

theorem Coherent.with_out {s : Session π} (h : s.Coherent stopped) {out : Net.Chain}
    (hwaits : 0 < out.total) : { s with out }.Coherent stopped :=
  ⟨h.ended, fun _ _ => hwaits, h.handing, h.aligned,
    fun hstopped => (h.winding hstopped).imp id fun hw => ⟨hw.refuses, hw.last⟩⟩

/-- While output waits for the socket, nothing is asked for. -/
theorem Coherent.wait (h : t.session.Coherent stopped) (hcalm : t.ctx.Calm)
    (hstopping : stopped → t.ctx.stopping = true) (hwaits : 0 < t.session.out.total)
    (htx : t.ctx.tx = true) : Poised stopped t where
  coherent := h.weaken
  waiting _ := hwaits
  armed _ := htx
  finished := hcalm.unasked
  either _ := hcalm.shutdown
  stopping := hstopping
  winding hstopped := .inr (.inr (h.winding hstopped))

/-- Once everything is sent, the end of the exchange is asked for. -/
theorem Coherent.finishUp {unsent : Net.Chain}
    (h : { t.session with out := unsent }.Coherent stopped) (hcalm : t.ctx.Calm)
    (hstopping : stopped → t.ctx.stopping = true) (hsent : t.session.out.total = 0) :
    Poised stopped (Session.finishUp t) := by
  have hcoherent : { t.session with ending := none }.Coherent False :=
    ⟨by simp, by simp, h.handing, h.aligned, False.elim⟩
  have harmed {tx : Bool} (hwaits : 0 < t.session.out.total) : tx = true := by omega
  unfold Session.finishUp
  rcases hending : t.session.ending with _ | _ | next
  · have hsame : { t.session with ending := none } = t.session := by rw [← hending]
    exact ⟨hsame ▸ hcoherent, by simp [hending], harmed, hcalm.unasked,
      fun _ => hcalm.shutdown, hstopping,
      fun hstopped => .inr (.inr ((h.winding hstopped).imp id fun hw => ⟨hw.refuses, hw.last⟩))⟩
  all_goals have hended := h.ended (by simp [hending])
  · exact ⟨hcoherent, (absurd · Bool.false_ne_true), harmed, fun _ => ⟨hsent, hended.1, rfl⟩,
      hcalm.stays, hstopping, fun _ => .inl rfl⟩
  · exact ⟨hcoherent, (absurd · Bool.false_ne_true), harmed, hcalm.unasked,
      fun _ => hcalm.shutdown, hstopping, fun _ => .inr (.inl rfl)⟩

theorem Coherent.arm (h : t.session.Coherent stopped) (hcalm : t.ctx.Calm)
    (hstopping : stopped → t.ctx.stopping = true) :
    Poised stopped (Session.arm t) ∧ (Session.arm t).ctx.transition = none := by
  unfold Session.arm
  split
  · rename_i hwaits
    exact ⟨h.wait (t := t.enableTx) ⟨hcalm.1, hcalm.2⟩ hstopping hwaits rfl, hcalm.transition⟩
  rename_i hsent
  refine ⟨h.finishUp hcalm hstopping (by omega), ?_⟩
  -- a request to switch would have its answer still to send
  unfold Session.finishUp
  rcases hending : t.session.ending with _ | _ | next
  · exact hcalm.transition
  · exact hcalm.transition
  · exact absurd (h.switching next hending) hsent

theorem ctx_processEvents (service : Service α π) (t : Turn α π) (n : Nat) :
    ∃ rx, (processEvents service n t).ctx = { t.ctx with rx } := by
  induction n generalizing t with
  | zero => exact ⟨_, rfl⟩
  | succ n ih =>
    unfold Session.processEvents
    split
    · exact ⟨_, rfl⟩
    rcases t.session.decoder.decode t.session.buffer with ⟨d, buffer, e | _ | event⟩
    · exact ⟨_, rfl⟩
    · exact ⟨_, rfl⟩
    · obtain ⟨rx, hctx⟩ := ctx_handleEvent service
        (t.modify fun s => { s with decoder := d, buffer }) event
      obtain ⟨rx', hctx'⟩ := ih (handleEvent service
        (t.modify fun s => { s with decoder := d, buffer }) event)
      exact ⟨rx', by rw [hctx', hctx]; rfl⟩

theorem Poised.process (service : Service α π) (h : Poised stopped t) (hcalm : t.ctx.Calm) :
    Poised stopped (process service t) ∧ (process service t).ctx.transition = none := by
  obtain ⟨rx, hctx⟩ := ctx_processEvents service t (2 * t.session.buffer.length + 3)
  have hevents := (h.calm hcalm).processEvents service h.stopping
    (2 * t.session.buffer.length + 3)
  unfold Session.process
  generalize processEvents service _ t = u at hctx hevents ⊢
  have hcalm : u.ctx.Calm := hctx ▸ ⟨hcalm.1, hcalm.2⟩
  have hstopping (hstopped : stopped) : u.ctx.stopping = true := hctx ▸ h.stopping hstopped
  exact hevents.flushReady.arm (t := u.modify flushReady) hcalm hstopping

/-- Behind a read, output waits for the socket, or the exchange is at its end. -/
theorem Poised.read (service : Service α π) (h : Poised stopped t) (hcalm : t.ctx.Calm)
    (src : Bytes) :
    Poised stopped (read service t src) ∧ (read service t src).ctx.transition = none := by
  have hkept : Poised stopped (t.modify fun s => { s with buffer := s.buffer ++ src }) :=
    ⟨h.coherent.with_buffer, h.waiting, h.armed, h.finished, h.either, h.stopping, fun hstopped =>
        (h.winding hstopped).imp id (.imp id (.imp id fun hw => ⟨hw.refuses, hw.last⟩))⟩
  unfold Session.read
  split
  · split
    · exact hkept.process service hcalm
    · exact ⟨h, hcalm.transition⟩
  · exact ⟨hkept, hcalm.transition⟩
  · exact ⟨h, hcalm.transition⟩

theorem Poised.wakeup (h : Poised stopped t) (hcalm : t.ctx.Calm) (items : List Item) :
    Poised stopped (wakeup t items) ∧ (wakeup t items).ctx.transition = none :=
  ((h.calm hcalm).applyItems items).flushReady.arm
    (t := t.modify fun s => (items.foldl applyItem s).flushReady) hcalm h.stopping

/-- A session that is told to take no more requests winds down from then on. -/
theorem Coherent.endWithLast {s : Session π} (h : s.Coherent False) :
    { s with accepting := false }.endWithLast.Coherent stopped := by
  unfold Session.endWithLast
  rcases hlast : s.pending.getLast? with _ | last
  · have hnone : s.pending = [] := List.getLast?_eq_none_iff.1 hlast
    dsimp only
    split
    · exact ⟨fun _ => ⟨hnone, rfl⟩, by simp, h.handing,
        fun ht => absurd ht (not_takes_refusing rfl),
        fun _ => .inr ⟨not_takes_refusing rfl, .inl rfl⟩⟩
    · rename_i hending
      have hending : s.ending.isSome := by simpa [Option.isSome_iff_ne_none] using hending
      exact ⟨fun _ => ⟨hnone, rfl⟩, h.switching, h.handing,
        fun ht => absurd ht (not_takes_refusing rfl),
        fun _ => .inr ⟨not_takes_refusing rfl, .inl hending⟩⟩
  · have hopen : s.ending = none := by
      rcases hending : s.ending with _ | e
      · rfl
      · simp [(h.ended (by simp [hending])).1] at hlast
    have hprepared : { last with keepAlive := false }.Prepared :=
      h.handing last (List.mem_of_getLast? hlast)
    exact .queue (s := { s with pending := s.pending.dropLast })
      (fun p hp => h.handing p (List.dropLast_sublist _ |>.mem hp)) hopen rfl hprepared
      (fun ht => absurd ht (not_takes_refusing rfl)) fun _ => ⟨not_takes_refusing rfl, .inl rfl⟩

theorem Poised.stop (h : Poised False t) (hcalm : t.ctx.Calm)
    (hstopping : stopped → t.ctx.stopping = true) :
    Poised stopped (stop t) ∧ (stop t).ctx.transition = none := by
  unfold Session.stop
  split
  · rename_i hidle
    simp only [isIdle, Bool.and_eq_true, List.isEmpty_iff, Option.isNone_iff_eq_none,
      decide_eq_true_iff] at hidle
    obtain ⟨-, ⟨⟨hpending, -⟩, hout⟩, hending⟩ := hidle
    have hempty : t.session.out.total = 0 := by simp [Net.Chain.total, Net.Chain.toBytes, hout]
    exact ⟨⟨h.coherent, h.waiting, h.armed, fun _ => ⟨hempty, hpending, hending⟩, hcalm.stays,
      hstopping, fun _ => .inl rfl⟩, hcalm.transition⟩
  split
  · rename_i hreads
    exact ⟨{ h with stopping := hstopping, winding := fun _ => .inr (.inr (.inl hreads)) },
      hcalm.transition⟩
  · exact Coherent.arm
      (t := (t.modify fun s => endWithLast { s with accepting := false }).disableRx)
      h.coherent.endWithLast ⟨hcalm.1, hcalm.2⟩ hstopping

variable {socket : Net.Sender τ} {io io' : τ} {t' : Turn α π} {status : WriteStatus}

/-- A write that comes back has sent everything, or the rest waits. -/
theorem Poised.write (h : Poised stopped t) (hcalm : t.ctx.Calm) (htx : t.ctx.tx = true)
    (hwrite : write t socket io = (t', io', .ok status)) : Poised stopped t' := by
  have hflushed := (h.calm hcalm).flushReady
  have hstatus := Net.sendChain_status socket io t.session.flushReady.out t.ctx.maxIovec
  unfold Session.write at hwrite
  simp only [Turn.modify] at hwrite
  rcases hsend : Net.sendChain socket io t.session.flushReady.out t.ctx.maxIovec with
    ⟨io'', out, fault | _ | _⟩
  all_goals
    rw [hsend] at hstatus hwrite
    cases hwrite
  · obtain rfl : out = {} := hstatus.1 rfl
    exact hflushed.finishUp (t := t.modify fun s => { s.flushReady with out := {} }) hcalm
      h.stopping rfl
  · have hwaits : 0 < out.total := List.length_pos_iff.2 (hstatus.2 rfl)
    exact (hflushed.with_out hwaits).wait (t := t.modify fun s => { s.flushReady with out }) hcalm
      h.stopping hwaits htx

/-- A write that answers so leaves nothing unsent. -/
theorem out_of_flushed (hwrite : write t socket io = (t', io', .ok .flushed)) :
    t'.session.out = {} := by
  have hstatus := Net.sendChain_status socket io t.session.flushReady.out t.ctx.maxIovec
  have hfinish (u : Turn α π) : (Session.finishUp u).session.out = u.session.out := by
    unfold Session.finishUp
    split <;> rfl
  unfold Session.write at hwrite
  simp only [Turn.modify] at hwrite
  rcases hsend : Net.sendChain socket io t.session.flushReady.out t.ctx.maxIovec with
    ⟨io'', out, fault | _ | _⟩
  all_goals
    rw [hsend] at hstatus hwrite
    cases hwrite
  rw [hfinish]
  exact hstatus.1 rfl

end Callback

end Session

end Http

end WireServer
