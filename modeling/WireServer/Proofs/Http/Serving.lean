import WireServer.Proofs.Http.AtOnce
import WireServer.Proofs.Http.FieldStarts
import WireServer.Proofs.Http.Order
import WireServer.Proofs.Http.RequestStream

/-! Serving a stream of requests. Where every request is answered at once, what goes out of a
session and whether its connection ends behind that can be read off the stream, request by request,
up to the first that ends it. So it does not matter how the input is cut, nor how much the socket takes at
a time: requests that come together wait in line, and those that come apart find it empty, but the
same bytes go out. -/

namespace WireServer.Http

variable {τ α π : Type}

open RequestDecoder (readHead reading versionOf Stands Tells)

/-! ### What a stream comes to -/

/-- What goes out of a connection, and whether it ends its side behind that. -/
structure Exchange where
  output : Bytes := []
  ends : Bool := false
  deriving DecidableEq, Inhabited, Repr

namespace Exchange

def behind (front : Bytes) (e : Exchange) : Exchange := { e with output := front ++ e.output }

theorem behind_behind (xs ys : Bytes) (e : Exchange) :
    (e.behind ys).behind xs = e.behind (xs ++ ys) := by
  simp [behind]

end Exchange

namespace Service

variable (service : Service α π) (answer : Request → Response) (stopping : Bool)

/-- The requests of a stream with their answers, up to the first that ends the connection: a request
that says so, an answer that says so, or what cannot be read as a request. -/
def exchange (src : Bytes) : Exchange :=
  match _h : readHead service.maxBody src with
  | .more => {}
  | .refused version status => ⟨(Pending.error 0 version status : Pending π).out.toBytes, true⟩
  | .done r rest =>
    let p : Pending π := .answered answer stopping 0 r
    if p.keepAlive then (exchange rest).behind p.out.toBytes else ⟨p.out.toBytes, true⟩
termination_by src.length
decreasing_by exact RequestDecoder.length_lt_of_done ‹_›

variable {service answer stopping} {src rest : Bytes} {r : Request}

theorem exchange_more (h : readHead service.maxBody src = .more) :
    service.exchange answer stopping src = {} := by
  rw [exchange]
  split <;> simp_all

theorem exchange_refused {version : Version} {status : Status}
    (h : readHead service.maxBody src = .refused version status) (slot : Nat) :
    service.exchange answer stopping src =
      ⟨(Pending.error slot version status : Pending π).out.toBytes, true⟩ := by
  have hslot : (Pending.error slot version status : Pending π) =
      { (Pending.error 0 version status : Pending π) with slot } :=
    Pending.applyFull_at { slot := 0, version, keepAlive := false } slot (.empty status)
  rw [exchange, hslot]
  split <;> simp_all

/-- The slot only tells where the answer stands. -/
theorem exchange_done (h : readHead service.maxBody src = .done r rest) {p : Pending π} {slot : Nat}
    (hp : p = .answered answer stopping slot r) : service.exchange answer stopping src =
      if p.keepAlive then (service.exchange answer stopping rest).behind p.out.toBytes
      else ⟨p.out.toBytes, true⟩ := by
  rw [exchange, hp, Pending.answered_at]
  split <;> simp_all

end Service

/-! ### Plain streams -/

/-- A request of the stream begins here. -/
inductive Begins (maxBody : Nat) (stream : Bytes) : Bytes → Prop
  | first : Begins maxBody stream stream
  | next {src rest : Bytes} {r : Request} : Begins maxBody stream src →
      readHead maxBody src = .done r rest → Begins maxBody stream rest

/-- No line begins with an `Expect` field, what is wrong with a head shows within the limit for
heads, and no request asks for another protocol. -/
structure Plain (maxBody : Nat) (stream : Bytes) : Prop where
  silent : ¬ LineStarts (Bytes.ofString "expect:") stream
  bounded : ∀ src, Begins maxBody stream src → HeadDecoder.Bounded src
  stays : ∀ src, Begins maxBody stream src → ∀ r rest, readHead maxBody src = .done r rest →
    r.head.fields.contains (fieldName "upgrade") = false

theorem Begins.suffix {maxBody : Nat} {stream src : Bytes} (h : Begins maxBody stream src) :
    src <:+ stream := by
  induction h with
  | first => exact List.suffix_refl _
  | next _ hdone ih => exact (RequestDecoder.suffix_of_done hdone).trans ih

/-- It is enough that the stream is short, and that no line begins with either field. -/
theorem plain_of_lines {maxBody : Nat} {stream : Bytes}
    (hexpect : ¬ LineStarts (Bytes.ofString "expect:") stream)
    (hupgrade : ¬ LineStarts (Bytes.ofString "upgrade:") stream)
    (hshort : stream.length ≤ HeadDecoder.maxBytes) : Plain maxBody stream where
  silent := hexpect
  bounded := fun _ hsrc =>
    HeadDecoder.bounded_of_short (Nat.le_trans hsrc.suffix.length_le hshort)
  stays := by
    intro src hsrc r rest hdone
    obtain ⟨behind, size, hdecode, -⟩ := RequestDecoder.decode_of_done hdone
    obtain ⟨used, rfl⟩ := hsrc.suffix
    refine HeadDecoder.not_contains used [] hdecode (by decide) ?_
    rw [List.append_nil]
    exact hupgrade

namespace Session

/-! ### Behind the last response -/

/-- The line begins with these responses, and nothing was moved out of it yet. -/
structure Holds (front : List (Pending π)) (out : Net.Chain) (s : Session π) : Prop where
  line : front <+: s.pending
  out : s.out = out
  ending : s.ending = none

namespace Holds

variable {service : Service α π} {front : List (Pending π)} {out : Net.Chain} {s : Session π}
  {t : Turn α π}

theorem apply (hfront : ∀ p ∈ front, p.isComplete) (h : s.Holds front out) (slot : Nat)
    (part : Part) : (s.apply slot part).Holds front out := by
  obtain ⟨back, hback⟩ := h.line
  obtain ⟨back', hback'⟩ := applyToFirst_behind hfront slot part back
  exact ⟨⟨back', by rw [Session.apply, ← hback, hback']⟩, h.out, h.ending⟩

theorem applyItems (hfront : ∀ p ∈ front, p.isComplete) (h : s.Holds front out)
    (items : List Item) : (items.foldl applyItem s).Holds front out := by
  induction items generalizing s with
  | nil => exact h
  | cons item items ih =>
    refine ih ?_
    cases item with
    | answer slot part => exact h.apply hfront slot part
    | frame flags payload => exact h
    | close code => exact h

theorem queue (h : s.Holds front out) (p : Pending π) :
    { s with pending := s.pending ++ [p] }.Holds front out :=
  ⟨h.line.trans (List.prefix_append _ _), h.out, h.ending⟩

theorem fail (h : s.Holds front out) (version : Version) (status : Status) :
    (s.fail version status).Holds front out :=
  ⟨h.line.trans (List.prefix_append _ _), h.out, h.ending⟩

theorem callHandler (hfront : ∀ p ∈ front, p.isComplete) (h : t.session.Holds front out)
    (slot : Nat) (r : Request) : (callHandler service t slot r).session.Holds front out := by
  unfold Session.callHandler
  dsimp only
  split
  · exact (h.applyItems hfront _).apply hfront _ _
  · exact h.applyItems hfront _

theorem serve (hfront : ∀ p ∈ front, p.isComplete) (h : t.session.Holds front out)
    (p : Pending π) (r : Request) : (serve service t p r).session.Holds front out := by
  have hqueue := h.queue p
  unfold Session.serve
  dsimp only
  split
  · exact callHandler hfront hqueue _ _
  · exact callHandler (t := (t.modify fun s =>
      { s with pending := s.pending ++ [p], accepting := false }).disableRx) hfront
      ⟨hqueue.line, hqueue.out, hqueue.ending⟩ _ _

theorem dispatch (hfront : ∀ p ∈ front, p.isComplete) (h : t.session.Holds front out)
    (r : Request) : (dispatch service t r).session.Holds front out := by
  have hnext : { t.session with nextSlot := t.session.nextSlot + 1 }.Holds front out :=
    ⟨h.line, h.out, h.ending⟩
  have hserve (p : Pending π) : (Session.serve service
      (t.modify fun s => { s with nextSlot := t.session.nextSlot + 1 }) p r).session.Holds front
        out := serve hfront hnext p r
  unfold Session.dispatch
  dsimp only
  split
  · exact hserve _
  cases UpgradeHandler.ask service.upgradeChain r.head with
  | handled response next =>
    have hqueue := hnext.queue { (Pending.ofRequest t.session.nextSlot r.head
      (r.head.keepAlive && !t.ctx.stopping) : Pending π).applyFull response with
        successor := some next }
    exact ⟨hqueue.line, hqueue.out, hqueue.ending⟩
  | ignore => exact hserve _
  | unknown => exact hnext.fail _ _
  | refused status => exact hnext.fail _ _

theorem handleEvent (hfront : ∀ p ∈ front, p.isComplete) (hne : front ≠ [])
    (h : t.session.Holds front out) (e : RequestEvent) :
    (handleEvent service t e).session.Holds front out := by
  match e with
  | .head head size =>
    -- nobody is told to go on while responses are in line
    have hline : t.session.pending.isEmpty = false := by
      rw [List.isEmpty_eq_false_iff]
      exact fun hnil => hne (List.prefix_nil.1 (hnil ▸ h.line))
    simp only [Session.handleEvent, Turn.modify, startRequest, hline, Bool.and_false,
      Bool.false_eq_true, if_false]
    exact ⟨h.line, h.out, h.ending⟩
  | .body (.chunk data) => exact ⟨h.line, h.out, h.ending⟩
  | .body .eof =>
    unfold Session.handleEvent
    cases t.session.current with
    | none => exact h
    | some r =>
      exact dispatch (t := t.modify fun s => { s with current := none }) hfront
        ⟨h.line, h.out, h.ending⟩ r

theorem processEvents (hfront : ∀ p ∈ front, p.isComplete) (hne : front ≠ []) (n : Nat)
    (h : t.session.Holds front out) : (processEvents service n t).session.Holds front out := by
  induction n generalizing t with
  | zero => exact h
  | succ n ih =>
    unfold Session.processEvents
    split
    · exact h
    rcases t.session.decoder.decode t.session.buffer with ⟨d, buffer, e | _ | event⟩
    · exact fail (s := { t.session with decoder := d, buffer }) ⟨h.line, h.out, h.ending⟩ _ _
    · exact ⟨h.line, h.out, h.ending⟩
    · exact ih (handleEvent (t := t.modify fun s => { s with decoder := d, buffer }) hfront hne
        ⟨h.line, h.out, h.ending⟩ event)

end Holds

/-- The bytes of responses in line. -/
def lineBytes (ps : List (Pending π)) : Bytes := ps.flatMap fun p => p.out.toBytes

/-- Complete responses leave the line. -/
theorem flushFront_passing {ps : List (Pending π)} (hps : ∀ p ∈ ps, p.passes) (s : Session π)
    (back : List (Pending π)) :
    ∃ out, s.flushFront (ps ++ back) = { s with out }.flushFront back ∧
      out.toBytes = s.out.toBytes ++ lineBytes ps := by
  induction ps generalizing s with
  | nil => exact ⟨s.out, rfl, by simp [lineBytes]⟩
  | cons p ps ih =>
    rw [List.forall_mem_cons] at hps
    have hp := hps.1
    simp only [Pending.passes, Bool.and_eq_true, Option.isNone_iff_eq_none] at hp
    obtain ⟨out, hflush, hout⟩ := ih hps.2 { s with out := s.out.append p.out }
    refine ⟨out, ?_, by rw [hout]; simp [lineBytes]⟩
    rw [List.cons_append, flushFront]
    simp only [hp.1.1, hp.1.2, hp.2, Bool.not_true, Bool.false_eq_true, if_false, if_true]
    exact hflush

theorem flushReady_passing {s : Session π} (h : ∀ p ∈ s.pending, p.passes) :
    ∃ out, s.flushReady = { s with out, pending := [] } ∧
      out.toBytes = s.out.toBytes ++ lineBytes s.pending := by
  obtain ⟨out, hflush, hout⟩ := flushFront_passing h s []
  exact ⟨out, by rw [flushReady, ← List.append_nil s.pending, hflush]; rfl, hout⟩

/-- A response that ends the connection leaves the line, and drops what stands behind it. -/
theorem flushReady_last {s : Session π} {front : List (Pending π)} {p : Pending π}
    (hline : front ++ [p] <+: s.pending) (hfront : ∀ q ∈ front, q.passes) (hcomplete : p.isComplete)
    (hends : p.keepAlive = false) (hsuccessor : p.successor = none) :
    ∃ out, s.flushReady =
        { s with out, pending := [], ending := some .shutdown, accepting := false } ∧
      out.toBytes = s.out.toBytes ++ lineBytes front ++ p.out.toBytes := by
  obtain ⟨back, hback⟩ := hline
  obtain ⟨out, hflush, hout⟩ := flushFront_passing hfront s (p :: back)
  refine ⟨out.append p.out, ?_, by simp [hout]⟩
  rw [flushReady, ← hback, List.append_assoc, List.singleton_append, hflush, flushFront]
  simp [hcomplete, hends, hsuccessor]

/-! ### Before the last response -/

section Live

variable {service : Service α π} {answer : Request → Response} {stopping : Bool}
  {stream future sent : Bytes}

/-- The responses in line may all go out, and so may more: with what stands at `start`, and was read
in part, the exchange of the whole stream comes out. -/
structure Live (service : Service α π) (answer : Request → Response) (stopping : Bool)
    (stream future sent : Bytes) (t : Turn α π) (start : Bytes) : Prop where
  begins : Begins service.maxBody stream start
  stands : Stands service.maxBody t.session.decoder t.session.current
  reads : readHead service.maxBody start =
    t.session.decoder.reading t.session.current (t.session.buffer ++ future)
  between : t.session.current = none → start = t.session.buffer ++ future
  ahead : t.session.buffer ++ future <:+ stream
  silent : ∀ r ∈ t.session.current, r.head.hasExpect = false
  serving : t.session.mode = .serving
  accepting : t.session.accepting = true
  ending : t.session.ending = none
  passed : ∀ p ∈ t.session.pending, p.passes
  slots : ∀ p ∈ t.session.pending, p.slot < t.session.nextSlot
  free : t.desk.outbox.Free
  stops : t.ctx.stopping = stopping
  unshut : t.ctx.shutdown = false
  account : service.exchange answer stopping stream =
    (service.exchange answer stopping start).behind
      (sent ++ t.session.out.toBytes ++ lineBytes t.session.pending)

/-- The line holds a response that ends the connection, and with it the exchange is complete. -/
def Last (service : Service α π) (answer : Request → Response) (stopping : Bool)
    (stream sent : Bytes) (t : Turn α π) : Prop :=
  ∃ front p out, t.session.Holds (front ++ [p]) out ∧ (∀ q ∈ front, q.passes) ∧ p.isComplete ∧
    p.keepAlive = false ∧ p.successor = none ∧ service.exchange answer stopping stream =
      ⟨sent ++ out.toBytes ++ lineBytes front ++ p.out.toBytes, true⟩

theorem Last.processEvents {t : Turn α π} (h : Last service answer stopping stream sent t)
    (n : Nat) : Last service answer stopping stream sent (processEvents service n t) := by
  obtain ⟨front, p, out, hholds, hfront, hcomplete, hlast⟩ := h
  have hall : ∀ q ∈ front ++ [p], q.isComplete := by
    intro q hq
    rcases List.mem_append.1 hq with hq | hq
    · exact Pending.isComplete_of_passes (hfront q hq)
    · exact List.mem_singleton.1 hq ▸ hcomplete
  exact ⟨front, p, out, hholds.processEvents hall (by simp) n, hfront, hcomplete, hlast⟩

/-- A request in the stream is not the client's way to wait. -/
theorem startRequest_silent {head : RequestHead} (h : head.hasExpect = false) (s : Session π)
    (size : BodySize) : s.startRequest head size = { s with current := some { head } } := by
  have hcontinue : head.expectsContinue = false := by
    have hnot : ¬ head.fields.contains (fieldName "expect") := by
      simpa [RequestHead.hasExpect] using h
    simp [RequestHead.expectsContinue, Fields.get?, Fields.getAll_of_not_contains hnot]
  simp [startRequest, hcontinue]

/-- A request that does not ask for another protocol is answered, and its response is the next in
line. -/
theorem dispatch_answers (hanswers : service.AnswersWith answer) {t : Turn α π} {r : Request}
    (hfree : t.desk.outbox.Free) (hslots : ∀ p ∈ t.session.pending, p.slot < t.session.nextSlot)
    (hstays : r.head.fields.contains (fieldName "upgrade") = false) {p : Pending π}
    (hp : p = .answered answer t.ctx.stopping t.session.nextSlot r) :
    ∃ accepting rx, (dispatch service t r).session = { t.session with
        pending := t.session.pending ++ [p], nextSlot := t.session.nextSlot + 1, accepting } ∧
      (p.keepAlive → accepting = t.session.accepting) ∧
      (dispatch service t r).ctx = { t.ctx with rx } ∧
      (dispatch service t r).desk.outbox.Free := by
  have hothers : ∀ q ∈ t.session.pending, q.slot ≠ t.session.nextSlot :=
    fun q hq => Nat.ne_of_lt (hslots q hq)
  unfold dispatch
  simp only [hstays, Bool.not_false, if_true, serve]
  generalize hq : (Pending.ofRequest t.session.nextSlot r.head
    (r.head.keepAlive && !t.ctx.stopping) : Pending π) = q
  have hslot : q.slot = t.session.nextSlot := by rw [← hq]; rfl
  have hwaiting : q.stage = .waiting := by rw [← hq]; rfl
  have hanswered : q.applyFull (answer r) = p := by rw [hp, ← hq]; rfl
  rw [← hslot] at hothers ⊢
  cases hkeep : q.keepAlive with
  | true =>
    obtain ⟨hsession, hctx, hafter⟩ := callHandler_answers hanswers
      (t := (t.modify fun s => { s with nextSlot := q.slot + 1 }).modify fun s =>
        { s with pending := s.pending ++ [q] }) hfree rfl hothers hwaiting r
    simp only [if_true]
    rw [hsession, hctx, hanswered]
    exact ⟨t.session.accepting, t.ctx.rx, rfl, fun _ => rfl, rfl, hafter⟩
  | false =>
    obtain ⟨hsession, hctx, hafter⟩ := callHandler_answers hanswers
      (t := (((t.modify fun s => { s with nextSlot := q.slot + 1 }).modify fun s =>
        { s with pending := s.pending ++ [q] }).modify fun s =>
          { s with accepting := false }).disableRx) hfree rfl hothers hwaiting r
    have hends : p.keepAlive = false := hanswered ▸ Pending.keepAlive_applyFull hkeep _
    simp only [Bool.false_eq_true, if_false]
    rw [hsession, hctx, hanswered]
    exact ⟨false, false, rfl, fun hkept => absurd hkept (by simp [hends]), rfl, hafter⟩

/-- The session has nothing to do until more input comes. -/
def Waits (s : Session π) : Prop := s.decoder.reading s.current s.buffer = .more

/-- How many events of the decoder the input can still give, at most. -/
def work (s : Session π) : Nat := 2 * s.buffer.length + if s.current.isSome then 1 else 0

namespace Live

variable {t : Turn α π} {start : Bytes}

theorem suffix (h : Live service answer stopping stream future sent t start) {rest : Bytes}
    (hrest : rest <:+ t.session.buffer) : rest ++ future <:+ stream := by
  obtain ⟨front, hfront⟩ := hrest
  obtain ⟨used, hused⟩ := h.ahead
  exact ⟨used ++ front, by rw [← hused, ← hfront]; simp⟩

/-- More of the same request is read. -/
theorem advance (h : Live service answer stopping stream future sent t start) {d : RequestDecoder}
    {current : Option Request} {rest : Bytes} (hsuffix : rest <:+ t.session.buffer)
    (hstands : Stands service.maxBody d current)
    (hreads : t.session.decoder.reading t.session.current (t.session.buffer ++ future) =
      d.reading current (rest ++ future))
    (hbetween : current = none → start = rest ++ future)
    (hsilent : ∀ r ∈ current, r.head.hasExpect = false) :
    Live service answer stopping stream future sent
      (t.modify fun s => { s with decoder := d, buffer := rest, current }) start where
  begins := h.begins
  stands := hstands
  reads := h.reads.trans hreads
  between := hbetween
  ahead := h.suffix hsuffix
  silent := hsilent
  serving := h.serving
  accepting := h.accepting
  ending := h.ending
  passed := h.passed
  slots := h.slots
  free := h.free
  stops := h.stops
  unshut := h.unshut
  account := h.account

theorem not_expecting (hstream : Plain service.maxBody stream)
    (h : Live service answer stopping stream future sent t start) :
    t.session.expecting = false := by
  unfold expecting
  cases hcurrent : t.session.current with
  | some r => exact h.silent r hcurrent
  | none =>
    obtain ⟨used, hused⟩ := h.ahead
    refine not_announcesExpect used future ?_
    rw [List.append_assoc, hused]
    exact hstream.silent

/-- What cannot be read is answered with an error, the last response. -/
theorem reject (hstream : Plain service.maxBody stream)
    (h : Live service answer stopping stream future sent t start) {d : RequestDecoder}
    {rest : Bytes} {e : RequestError}
    (hreads : t.session.decoder.reading t.session.current (t.session.buffer ++ future) =
      .refused (versionOf t.session.current) (e.status false)) :
    Last service answer stopping stream sent (t.modify fun s =>
      { s with decoder := d, buffer := rest }.rejectRequest t.session.expecting e) := by
  have hreject :
      { t.session with decoder := d, buffer := rest }.rejectRequest t.session.expecting e =
        { t.session with decoder := d, buffer := rest }.fail (versionOf t.session.current)
          (e.status false) := by
    rw [h.not_expecting hstream]
    unfold rejectRequest
    cases t.session.current <;> rfl
  refine ⟨t.session.pending, .error t.session.nextSlot (versionOf t.session.current)
    (e.status false), t.session.out, ?_, h.passed, Pending.applyFull_isComplete _ _,
    Pending.keepAlive_applyFull rfl _, Pending.successor_applyFull rfl _, ?_⟩
  · rw [Turn.modify, hreject]
    exact ⟨List.prefix_refl _, rfl, h.ending⟩
  · rw [h.account, Service.exchange_refused (h.reads.trans hreads) t.session.nextSlot,
      Exchange.behind]

/-- A request that is all there is answered: the response passes, or it is the last. -/
theorem dispatch (hstream : Plain service.maxBody stream) (hanswers : service.AnswersWith answer)
    (h : Live service answer stopping stream future sent t start) {d : RequestDecoder}
    {rest : Bytes} {r : Request} (hsuffix : rest <:+ t.session.buffer)
    (hstands : Stands service.maxBody d none)
    (hreads : t.session.decoder.reading t.session.current (t.session.buffer ++ future) =
      .done r (rest ++ future)) (t' : Turn α π)
    (ht' : t' = Session.dispatch service
      (t.modify fun s => { s with decoder := d, buffer := rest, current := none }) r) :
    (Live service answer stopping stream future sent t' (rest ++ future) ∧
        t'.session.buffer = rest ∧ t'.session.current = none) ∨
      Last service answer stopping stream sent t' := by
  have hdone := h.reads.trans hreads
  obtain ⟨p, hp⟩ : ∃ p : Pending π, p = .answered answer t.ctx.stopping t.session.nextSlot r :=
    ⟨_, rfl⟩
  have hcomplete : p.isComplete := hp ▸ Pending.applyFull_isComplete _ _
  have hsuccessor : p.successor = none := hp ▸ Pending.successor_applyFull rfl _
  have hslot : p.slot = t.session.nextSlot := hp ▸ Pending.applyFull_slot _ _
  obtain ⟨accepting, rx, hsession, haccepting, hctx, hfree⟩ := dispatch_answers hanswers
    (t := t.modify fun s => { s with decoder := d, buffer := rest, current := none }) h.free
    h.slots (hstream.stays _ h.begins _ _ hdone) hp
  rw [← ht'] at hsession hctx hfree
  have hexchange := Service.exchange_done hdone (h.stops ▸ hp)
  cases hkeep : p.keepAlive with
  | true =>
    rw [hkeep, if_pos rfl] at hexchange
    refine .inl ⟨?_, by rw [hsession]; rfl, by rw [hsession]; rfl⟩
    have hpasses : p.passes := by simp [Pending.passes, hcomplete, hkeep, hsuccessor]
    have ht'' : t' = ⟨t'.ctx, t'.session, t'.desk⟩ := rfl
    rw [hsession, hctx] at ht''
    rw [ht'']
    exact {
      begins := h.begins.next hdone
      stands := hstands
      reads := by cases hstands; rfl
      between := fun _ => rfl
      ahead := h.suffix hsuffix
      silent := fun _ hq => absurd hq (Option.not_mem_none _)
      serving := h.serving
      accepting := (haccepting hkeep).trans h.accepting
      ending := h.ending
      passed := by
        intro q hq
        rcases List.mem_append.1 hq with hq | hq
        · exact h.passed q hq
        · exact List.mem_singleton.1 hq ▸ hpasses
      slots := by
        intro q hq
        rcases List.mem_append.1 hq with hq | hq
        · exact Nat.lt_succ_of_lt (h.slots q hq)
        · rw [List.mem_singleton.1 hq, hslot]
          exact Nat.lt_succ_self _
      free := hfree
      stops := h.stops
      unshut := h.unshut
      account := by
        rw [h.account, hexchange, Exchange.behind_behind]
        simp [lineBytes, Turn.modify] }
  | false =>
    rw [hkeep, if_neg (by simp)] at hexchange
    refine .inr ⟨t.session.pending, p, t.session.out, ?_, h.passed, hcomplete, hkeep, hsuccessor,
      by rw [h.account, hexchange, Exchange.behind]⟩
    rw [hsession]
    exact ⟨List.prefix_refl _, rfl, h.ending⟩

/-- All requests that the input holds are answered, up to the last. -/
theorem processEvents (hstream : Plain service.maxBody stream)
    (hanswers : service.AnswersWith answer) (n : Nat)
    (h : Live service answer stopping stream future sent t start) (hn : t.session.work < n) :
    (∃ start, Live service answer stopping stream future sent (processEvents service n t) start ∧
        (Session.processEvents service n t).session.Waits) ∨
      Last service answer stopping stream sent (Session.processEvents service n t) := by
  -- over the events: each takes some of the work, so the input runs out before `n` does
  induction n generalizing t start with
  | zero => exact absurd hn (Nat.not_lt_zero _)
  | succ n ih =>
    have htells : Tells service.maxBody t.session.current t.session.buffer future
        (t.session.decoder.reading t.session.current (t.session.buffer ++ future))
        (t.session.decoder.decode t.session.buffer) :=
      RequestDecoder.tells_decode h.stands fun hnone =>
        h.between hnone ▸ hstream.bounded _ h.begins
    have hopen : ¬ (t.session.mode ≠ .serving || !t.session.accepting : Bool) := by
      simp [h.serving, h.accepting]
    rw [Session.processEvents, if_neg hopen]
    generalize t.session.decoder.decode t.session.buffer = outcome at htells
    cases htells with
    | head d head size rest hcurrent hdecode _ hsuffix hshort hstands hreads =>
      have hsilent : head.hasExpect = false := by
        obtain ⟨used, hused⟩ := h.ahead
        refine HeadDecoder.not_contains used future hdecode (by decide) ?_
        rw [List.append_assoc, hused]
        exact hstream.silent
      have hstart :=
        startRequest_silent hsilent { t.session with decoder := d, buffer := rest } size
      have hlive := h.advance hsuffix hstands hreads (by simp) (by rintro r ⟨⟩; exact hsilent)
      simp only [handleEvent, Turn.modify, hstart]
      refine ih hlive ?_
      simp only [work, hcurrent, Option.isSome_none, Option.isSome_some, if_true,
        Bool.false_eq_true, if_false] at hn ⊢
      omega
    | chunk r d data rest hcurrent hsuffix hshort hstands hreads =>
      have hlive := h.advance hsuffix hstands hreads (by simp) (by
        rintro q ⟨⟩
        exact h.silent r hcurrent)
      simp only [handleEvent, Turn.modify, hcurrent, Option.map_some]
      refine ih hlive ?_
      simp only [work, hcurrent, Option.isSome_some, if_true] at hn ⊢
      omega
    | eof r d rest hcurrent hsuffix hstands hreads =>
      have hstep := h.dispatch hstream hanswers hsuffix hstands hreads _ rfl
      simp only [handleEvent, Turn.modify, hcurrent] at hstep ⊢
      rcases hstep with ⟨hlive, hbuffer, hnone⟩ | hlast
      · refine ih hlive ?_
        have hlen := hsuffix.length_le
        simp only [work, hcurrent, Option.isSome_some, if_true] at hn
        simp only [work, hbuffer, hnone, Option.isSome_none, Bool.false_eq_true, if_false]
        omega
      · exact .inr (hlast.processEvents n)
    | wait d rest hsuffix hsame hstands hreads hmore =>
      have hlive := h.advance hsuffix hstands hreads
        (fun hnone => by rw [h.between hnone, hsame hnone]) h.silent
      exact .inl ⟨start, hlive, hmore⟩
    | fail d rest e hreads => exact .inr (h.reject hstream hreads)

end Live

/-! ### Between the calls -/

/-- The last response went out of the line, and the connection is shut down as soon as all is
sent. -/
structure Closed (service : Service α π) (answer : Request → Response) (stopping : Bool)
    (stream sent : Bytes) (t : Turn α π) : Prop where
  refuses : t.session.accepting = false
  empty : t.session.pending = []
  ending : t.session.ending = some .shutdown ∧ t.session.out.total ≠ 0 ∨
    t.session.ending = none ∧ t.ctx.shutdown
  account : service.exchange answer stopping stream = ⟨sent ++ t.session.out.toBytes, true⟩

/-- Between the calls the line is empty: everything was answered that could be. -/
def Settled (service : Service α π) (answer : Request → Response) (stopping : Bool)
    (stream future sent : Bytes) (t : Turn α π) : Prop :=
  (t.ctx.shutdown = false ∧ t.session.pending = [] ∧ t.session.Waits ∧
      ∃ start, Live service answer stopping stream future sent t start) ∨
    Closed service answer stopping stream sent t

/-- At the end of each call, once the line was flushed, the connection is shut down if nothing is
left to send. -/
def finishIfSent (t : Turn α π) : Turn α π := if t.session.out.total = 0 then finishUp t else t

theorem arm_eq (t : Turn α π) :
    ∃ tx, arm t = { finishIfSent t with ctx := { (finishIfSent t).ctx with tx } } := by
  unfold arm finishIfSent
  by_cases h : t.session.out.total = 0
  · exact ⟨_, by rw [if_neg (by omega), if_pos h]⟩
  · exact ⟨true, by rw [if_pos (by omega), if_neg h]; rfl⟩

theorem write_eq (t : Turn α π) (socket : Net.Sender τ) (io : τ) :
    (write t socket io).1 = finishIfSent (t.modify fun s => { s.flushReady with
      out := (Net.sendChain socket io s.flushReady.out t.ctx.maxIovec).2.1 }) := by
  have hdrained := Net.sendChain_drained_iff socket io t.session.flushReady.out t.ctx.maxIovec
  rcases hsend : Net.sendChain socket io t.session.flushReady.out t.ctx.maxIovec with
    ⟨io', out, fault | _ | _⟩
  all_goals
    rw [hsend] at hdrained
    simp only [write, finishIfSent, Turn.modify, hsend]
  · exact (if_neg fun h => by cases hdrained.2 h).symm
  · exact (if_pos (hdrained.1 rfl)).symm
  · exact (if_neg fun h => by cases hdrained.2 h).symm

theorem finishUp_of_none {t : Turn α π} (h : t.session.ending = none) : finishUp t = t := by
  unfold finishUp
  rw [h]

theorem closed_finishIfSent {t : Turn α π} (hrefuses : t.session.accepting = false)
    (hempty : t.session.pending = [])
    (hending : t.session.ending = some .shutdown ∨ t.session.ending = none ∧ t.ctx.shutdown)
    (haccount : service.exchange answer stopping stream = ⟨sent ++ t.session.out.toBytes, true⟩) :
    Closed service answer stopping stream sent (finishIfSent t) := by
  rcases hending with hending | ⟨hending, hshut⟩
  · unfold finishIfSent
    split
    · unfold finishUp
      rw [hending]
      exact ⟨hrefuses, hempty, .inr ⟨rfl, rfl⟩, haccount⟩
    · rename_i hleft
      exact ⟨hrefuses, hempty, .inl ⟨hending, hleft⟩, haccount⟩
  · have hsame : finishIfSent t = t := by
      rw [finishIfSent, finishUp_of_none hending, ite_self]
    rw [hsame]
    exact ⟨hrefuses, hempty, .inr ⟨hending, hshut⟩, haccount⟩

/-- Whatever a call did, behind the flush at its end the session is settled, with some of the output
sent. -/
theorem settled_finishIfSent {t : Turn α π} (out : Net.Chain) {sent' : Bytes}
    (h : (∃ start, Live service answer stopping stream future sent t start ∧ t.session.Waits) ∨
      Last service answer stopping stream sent t ∨ Closed service answer stopping stream sent t)
    (hsent : sent' ++ out.toBytes = sent ++ t.session.flushReady.out.toBytes) :
    Settled service answer stopping stream future sent'
      (finishIfSent (t.modify fun s => { s.flushReady with out })) := by
  rcases h with ⟨start, hlive, hwaits⟩ | ⟨front, p, out', hholds, hfront, hcomplete, hends,
    hsuccessor, haccount⟩ | hclosed
  · obtain ⟨out', hflush, hout⟩ := flushReady_passing hlive.passed
    have hsame : finishIfSent (t.modify fun s => { s.flushReady with out }) =
        t.modify fun s => { s with out, pending := [] } := by
      have hmodify : (t.modify fun s => { s.flushReady with out }) =
          t.modify fun s => { s with out, pending := [] } := by
        simp only [Turn.modify, hflush]
      rw [hmodify, finishIfSent, finishUp_of_none (by exact hlive.ending), ite_self]
    rw [hsame]
    rw [hflush] at hsent
    refine .inl ⟨hlive.unshut, rfl, hwaits, start, { hlive with
      passed := List.forall_mem_nil _, slots := List.forall_mem_nil _, account := ?_ }⟩
    rw [hlive.account]
    simp [lineBytes, Turn.modify, hsent, hout]
  · obtain ⟨out'', hflush, hout⟩ := flushReady_last hholds.line hfront hcomplete hends hsuccessor
    refine .inr (closed_finishIfSent ?_ ?_ (.inl ?_) ?_)
    · simp [Turn.modify, hflush]
    · simp [Turn.modify, hflush]
    · simp [Turn.modify, hflush]
    · rw [haccount]
      rw [hflush] at hsent
      simp only [Turn.modify, hsent, hout, hholds.out, List.append_assoc]
  · have hflush : t.session.flushReady = t.session := by
      simp only [flushReady, hclosed.empty, flushFront]
      rw [← hclosed.empty]
    rw [hflush] at hsent
    refine .inr (closed_finishIfSent ?_ ?_ ?_ ?_)
    · simpa [Turn.modify, hflush] using hclosed.refuses
    · simpa [Turn.modify, hflush] using hclosed.empty
    · simpa [Turn.modify, hflush] using hclosed.ending.imp And.left id
    · rw [hclosed.account, ← hsent]
      rfl

/-- Whether the socket is waited for is not asked about. -/
theorem Settled.withTx {t : Turn α π} (h : Settled service answer stopping stream future sent t)
    (tx : Bool) : Settled service answer stopping stream future sent
      { t with ctx := { t.ctx with tx } } := by
  rcases h with ⟨hunshut, hempty, hwaits, start, hlive⟩ | hclosed
  · exact .inl ⟨hunshut, hempty, hwaits, start, { hlive with }⟩
  · exact .inr { hclosed with }

theorem settled_arm {t : Turn α π}
    (h : (∃ start, Live service answer stopping stream future sent t start ∧ t.session.Waits) ∨
      Last service answer stopping stream sent t ∨ Closed service answer stopping stream sent t) :
    Settled service answer stopping stream future sent (arm (t.modify flushReady)) := by
  obtain ⟨tx, harm⟩ := arm_eq (t.modify flushReady)
  rw [harm]
  exact (settled_finishIfSent t.session.flushReady.out h rfl).withTx tx

theorem Settled.ready {t : Turn α π} (h : Settled service answer stopping stream future sent t) :
    (∃ start, Live service answer stopping stream future sent t start ∧ t.session.Waits) ∨
      Last service answer stopping stream sent t ∨
        Closed service answer stopping stream sent t := by
  rcases h with ⟨-, -, hwaits, start, hlive⟩ | hclosed
  · exact .inl ⟨start, hlive, hwaits⟩
  · exact .inr (.inr hclosed)

/-- Input behind the last response is kept or thrown away. -/
theorem Closed.read {t : Turn α π} (h : Closed service answer stopping stream sent t)
    (src : Bytes) : Closed service answer stopping stream sent (read service t src) := by
  unfold Session.read
  cases t.session.mode with
  | serving =>
    rw [h.refuses]
    exact h
  | upgrading => exact { h with }
  | failed => exact h

theorem Settled.read (hstream : Plain service.maxBody stream)
    (hanswers : service.AnswersWith answer) {t : Turn α π} (src : Bytes)
    (h : Settled service answer stopping stream (src ++ future) sent t) :
    Settled service answer stopping stream future sent (read service t src) := by
  rcases h with ⟨-, -, -, start, hlive⟩ | hclosed
  · have hkept : Live service answer stopping stream future sent
        (t.modify fun s => { s with buffer := s.buffer ++ src }) start :=
      { hlive with
        reads := by simpa [Turn.modify] using hlive.reads
        between := by simpa [Turn.modify] using hlive.between
        ahead := by simpa [Turn.modify] using hlive.ahead }
    simp only [Session.read, hlive.serving, hlive.accepting, if_true, process]
    have hprocessed := hkept.processEvents hstream hanswers
      (2 * (t.modify fun s => { s with buffer := s.buffer ++ src }).session.buffer.length + 3) (by
        unfold work
        split <;> omega)
    exact settled_arm (hprocessed.imp_right .inl)
  · exact .inr (hclosed.read src)

end Live

/-! ### Runs -/

namespace Event

/-- Input comes in, the socket may take output, or the connection is woken up, with nothing queued
for it. -/
def IsTraffic : Event τ α π → Prop
  | .read _ | .write _ => True
  | .wakeup items => items = []
  | .stop | .takeLeftover | .outside _ _ => False

def input : Event τ α π → Bytes
  | .read src => src
  | _ => []

end Event

/-- What came of the connection: all bytes that it moved to its output, and whether it is shut down,
or will be when they are sent. -/
def Record.exchange (r : Record α π) : Exchange :=
  ⟨r.moved, r.turn.ctx.shutdown || r.turn.session.ending matches some .shutdown⟩

section Runs

variable {service : Service α π} {answer : Request → Response} {stopping : Bool}
  {stream future : Bytes} {socket : Net.Sender τ}

theorem Settled.next (hstream : Plain service.maxBody stream)
    (hanswers : service.AnswersWith answer) (hsocket : socket.Honest) {r : Record α π}
    {e : Event τ α π} (he : e.IsTraffic)
    (h : Settled service answer stopping stream (e.input ++ future) r.sent r.turn) :
    Settled service answer stopping stream future (r.next service socket e).sent
      (r.next service socket e).turn := by
  cases e with
  | read src =>
    have hread := Settled.read hstream hanswers src h
    simpa [Record.next, happen, taken] using hread
  | write io =>
    have htaken := taken_write hsocket r.turn io
    obtain ⟨ending, hwrite⟩ := (write_session r.turn socket io).2
    rw [hwrite] at htaken
    simp only [Record.next, happen]
    rw [write_eq]
    exact settled_finishIfSent _ h.ready (by rw [List.append_assoc, htaken])
  | wakeup items =>
    cases he
    have hwoken : Settled service answer stopping stream future r.sent
        (arm (r.turn.modify flushReady)) := settled_arm h.ready
    simpa [Record.next, happen, taken, wakeup] using hwoken
  | stop | takeLeftover | outside _ _ => cases he

theorem Settled.run (hstream : Plain service.maxBody stream)
    (hanswers : service.AnswersWith answer) (hsocket : socket.Honest) {r : Record α π}
    {es : List (Event τ α π)} (hes : ∀ e ∈ es, e.IsTraffic)
    (h : Settled service answer stopping stream (es.flatMap Event.input) r.sent r.turn) :
    Settled service answer stopping stream [] (r.run service socket es).sent
      (r.run service socket es).turn := by
  induction es generalizing r with
  | nil => exact h
  | cons e es ih =>
    rw [List.forall_mem_cons] at hes
    rw [List.flatMap_cons] at h
    exact ih hes.2 (h.next hstream hanswers hsocket hes.1)

/-- At the end of the stream the exchange is the one of the stream. -/
theorem Settled.exchange {r : Record α π}
    (h : Settled service answer stopping stream [] r.sent r.turn) :
    r.exchange = service.exchange answer stopping stream ∧
      (r.turn.session.out.total = 0 → r.turn.ctx.shutdown = r.exchange.ends) := by
  rcases h with ⟨hunshut, hempty, hwaits, start, hlive⟩ | hclosed
  · have hmore : readHead service.maxBody start = .more := by
      rw [hlive.reads, List.append_nil]
      exact hwaits
    have haccount := hlive.account
    rw [Service.exchange_more hmore, hempty] at haccount
    rw [haccount]
    simp [Record.exchange, Record.moved, Exchange.behind, lineBytes, hunshut, hlive.ending]
  · rw [hclosed.account]
    rcases hclosed.ending with ⟨hending, hleft⟩ | ⟨hending, hshut⟩
    · refine ⟨by simp [Record.exchange, Record.moved, hending], fun hnone => absurd hnone hleft⟩
    · simp [Record.exchange, Record.moved, hending, hshut]

theorem settled_fresh (service : Service α π) (answer : Request → Response) (ctx : Context π)
    (hctx : ctx.shutdown = false) (desk : Desk α) (hdesk : desk.outbox.Free)
    (hinput : future = stream) :
    Settled service answer ctx.stopping stream future [] (Record.fresh service ctx desk).turn :=
  .inl ⟨hctx, rfl, rfl, stream, {
    begins := .first
    stands := .between 0
    reads := hinput ▸ rfl
    between := fun _ => hinput.symm
    ahead := hinput ▸ List.suffix_refl _
    silent := by simp [Record.fresh, new]
    serving := rfl
    accepting := rfl
    ending := rfl
    passed := List.forall_mem_nil _
    slots := List.forall_mem_nil _
    free := hdesk
    stops := rfl
    unshut := hctx
    account := rfl }⟩

/-- Where a handler answers every request at once, and the answer depends on the request alone, what
goes out of a connection for a plain stream does not depend on how the stream is cut into reads, nor
on how much of the output leaves between them: it is the exchange of the stream, and the connection
is shut down behind it exactly if the exchange ends it. -/
theorem exchange_of_any_cuts (service : Service α π) (answer : Request → Response)
    (hanswers : service.AnswersWith answer) (socket : Net.Sender τ) (hsocket : socket.Honest)
    (ctx : Context π) (hctx : ctx.shutdown = false) (desk : Desk α) (hdesk : desk.outbox.Free)
    (stream : Bytes) (hstream : Plain service.maxBody stream) (es es' : List (Event τ α π))
    (hes : ∀ e ∈ es, e.IsTraffic) (hes' : ∀ e ∈ es', e.IsTraffic)
    (hinput : es.flatMap Event.input = stream) (hinput' : es'.flatMap Event.input = stream) :
    ∀ r r', r = (Record.fresh service ctx desk).run service socket es →
      r' = (Record.fresh service ctx desk).run service socket es' →
      r.exchange = r'.exchange ∧
      r.exchange = service.exchange answer ctx.stopping stream ∧
      (r.turn.session.out.total = 0 → r.turn.ctx.shutdown = r.exchange.ends) := by
  rintro r r' rfl rfl
  have hrun := (Settled.run hstream hanswers hsocket hes
    (settled_fresh service answer ctx hctx desk hdesk hinput)).exchange
  have hrun' := (Settled.run hstream hanswers hsocket hes'
    (settled_fresh service answer ctx hctx desk hdesk hinput')).exchange
  exact ⟨hrun.1.trans hrun'.1.symm, hrun⟩

/-- A handler that sends the body of each request back. -/
def echoing : Service Unit Unit where
  handler _ r := .send (.text 200 r.body) fun _ => .done () .ok

/-- The second request ends the connection. -/
def twoBodies : Bytes := Bytes.ofString
  "POST / HTTP/1.1\r\nContent-Length: 2\r\n\r\nhiGET / HTTP/1.0\r\n\r\n"

/-- Each byte by itself, and a socket that takes three bytes at a time, or none. -/
def trickle : List (Event Net.MemorySocket Unit Unit) :=
  twoBodies.flatMap fun b => [.read [b], .write { window := some 3 }, .write { window := some 0 }]

theorem exchange_of_any_cuts_trickle :
    ((Record.fresh echoing {} { app := () }).run echoing Net.MemorySocket.socket.toSender
        trickle).exchange =
      ((Record.fresh echoing {} { app := () }).run echoing Net.MemorySocket.socket.toSender
        [.read twoBodies, .wakeup [], .write {}]).exchange ∧
    ((Record.fresh echoing {} { app := () }).run echoing Net.MemorySocket.socket.toSender
        [.read twoBodies, .wakeup [], .write {}]).exchange.ends := by
  have hplain : Plain echoing.maxBody twoBodies :=
    plain_of_lines (by decide +kernel) (by decide +kernel) (by decide +kernel)
  have htrickle : ∀ e ∈ trickle, e.IsTraffic := by
    intro e he
    obtain ⟨b, -, he⟩ := List.mem_flatMap.1 he
    simp only [List.mem_cons, List.not_mem_nil, or_false] at he
    rcases he with rfl | rfl | rfl <;> trivial
  have hwhole : ∀ e ∈ ([.read twoBodies, .wakeup [], .write {}] :
      List (Event Net.MemorySocket Unit Unit)), e.IsTraffic := by
    simp [Event.IsTraffic]
  have hanswers : echoing.AnswersWith fun r => .text 200 r.body :=
    Service.answersWith_of_send (fun _ _ _ => .done () .ok) fun _ _ => rfl
  refine ⟨(exchange_of_any_cuts echoing _ hanswers Net.MemorySocket.socket.toSender
    Net.MemorySocket.honest {} rfl { app := () } ⟨⟨rfl, rfl⟩, rfl⟩ twoBodies hplain trickle _
    htrickle hwhole (by decide +kernel) (by decide +kernel) _ _ rfl rfl).1, by decide +kernel⟩

end Runs

end Session

end WireServer.Http
