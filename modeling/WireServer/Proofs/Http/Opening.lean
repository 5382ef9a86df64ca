import WireServer.Proofs.Http.Answering
import WireServer.Proofs.Http.RequestPieces
import WireServer.Proofs.Net.Sending

/-! A connection that opens with a request to go on with WebSocket. However the request comes in,
the session waits until it is whole, answers it once, and keeps what came behind it. -/

namespace WireServer

/-- What is asked of a connection, its two directions apart. -/
def Context.orders {π : Type} (ctx : Context π) : Bool × Bool × Option π :=
  (ctx.shutdown, ctx.close, ctx.transition)

namespace Http

variable {α π τ : Type}

/-- A request to go on with WebSocket, to a service that switches to `next` then. The decoder reads
it as one request up to its end, and the handlers in front have nothing to do with it. -/
structure Opening (service : Service α π) (next : π) where
  bytes : Bytes
  head : RequestHead
  size : BodySize
  /-- The body in the pieces that the decoder makes of it. -/
  pieces : List Bytes
  key : Bytes
  whole : ∃ d, RequestDecoder.decodeAll { maxBody := service.maxBody } bytes =
    (d, [], RequestDecoder.requestEvents head size pieces, none)
  handled : ∃ front back, service.upgrades = front ++ UpgradeHandler.webSocket next :: back ∧
    ∀ handler ∈ front, handler head = .unknown
  asks : UpgradeHandler.asksFor head "websocket"
  accepted : UpgradeHandler.handshakeKey? head = some key

namespace Opening

variable {service : Service α π} {next : π}

/-- What goes out while the body is still to come. -/
def interim (o : Opening service next) : Bytes :=
  if o.head.expectsContinue && o.size != .empty then Session.continueLine else []

/-- The response that switches protocols. -/
def response (o : Opening service next) : Bytes :=
  ResponseHead.wire { (UpgradeHandler.switching o.key).head with version := o.head.version } .empty

def output (o : Opening service next) : Bytes := o.interim ++ o.response

theorem response_ne_nil (o : Opening service next) : o.response ≠ [] := by
  simp [response, ResponseHead.wire]

theorem names_upgrade (o : Opening service next) :
    o.head.fields.contains (fieldName "upgrade") := by
  by_cases hnamed : o.head.fields.contains (fieldName "upgrade")
  · exact hnamed
  · have hasks := o.asks
    simp [UpgradeHandler.asksFor, Fields.get?, Fields.getAll_of_not_contains hnamed] at hasks

theorem ask_chain (o : Opening service next) : UpgradeHandler.ask service.upgradeChain o.head =
    .handled (UpgradeHandler.switching o.key) next := by
  obtain ⟨front, back, hupgrades, hfront⟩ := o.handled
  have hdecides : UpgradeHandler.webSocket next o.head =
      .handled (UpgradeHandler.switching o.key) next := by
    simp [UpgradeHandler.webSocket, o.asks, o.accepted]
  rw [Service.upgradeChain, hupgrades]
  clear hupgrades
  induction front with
  | nil => simp [UpgradeHandler.ask, hdecides]
  | cons handler front ih =>
    rw [List.forall_mem_cons] at hfront
    simpa [UpgradeHandler.ask, hfront.1] using ih hfront.2

/-- The response in its place. -/
def answer (o : Opening service next) (slot : Nat) (keepAlive : Bool) : Pending π :=
  { (Pending.ofRequest slot o.head keepAlive : Pending π).applyFull
      (UpgradeHandler.switching o.key) with
    successor := some next }

/-- The answer is nothing but its head. -/
theorem toBytes_answer (o : Opening service next) (slot : Nat) (keepAlive : Bool) :
    (o.answer slot keepAlive).out.toBytes = o.response := by
  simp [answer, Pending.applyFull, Pending.pushHead, Pending.pushBody, Pending.push, Pending.begin,
    Pending.connectionFields, UpgradeHandler.switching, Pending.ofRequest, response,
    BodySize.ofLength, Net.Chain.toBytes, Net.Chain.push]

/-! ### How far the session is -/

/-- The opening is still coming in: `came` did so far and `sent` went out, and from the buffer on,
`left` is needed. -/
structure Reading (o : Opening service next) (came sent left : Bytes) (s : Session π) : Prop where
  serves : s.mode = .serving
  accepts : s.accepting
  unanswered : s.pending = []
  unended : s.ending = none
  needs : RequestDecoder.Needs service.maxBody o.head o.size s.decoder s.current left
  came : ∃ used, o.bytes = used ++ left ∧ came = used ++ s.buffer
  made : sent ++ s.out.toBytes = if s.current.isSome then o.interim else []
  idle : s.current = none → s.out = {}

/-- All input at hand is looked at, and more is needed. -/
def Waiting (o : Opening service next) (came sent : Bytes) (s : Session π) : Prop :=
  ∃ left, o.Reading came sent left s ∧ s.buffer <+: left ∧ s.buffer ≠ left

/-- The opening came in and is answered; the answer is not moved to the output yet. -/
structure Decided (o : Opening service next) (came sent : Bytes) (s : Session π) : Prop where
  upgrades : s.mode = .upgrading
  idle : s.current = none
  unended : s.ending = none
  came : came = o.bytes ++ s.buffer
  made : sent ++ s.out.toBytes = o.interim
  answer : ∃ p, s.pending = [p] ∧ p.isComplete ∧ p.successor = some next ∧
    p.out.toBytes = o.response

/-- The answer is in the output, and what came behind the opening is kept. -/
structure Answered (o : Opening service next) (came sent : Bytes) (s : Session π) : Prop where
  upgrades : s.mode = .upgrading
  idle : s.current = none
  flushed : s.pending = []
  ends : s.ending = some (.switchTo next)
  came : came = o.bytes ++ s.buffer
  made : sent ++ s.out.toBytes = o.output
  waits : s.out.toBytes ≠ []

/-- Behind the input that was at hand; nothing else is asked of the connection yet. -/
structure Passes (o : Opening service next) (came sent : Bytes) (t u : Session.Turn α π) :
    Prop where
  stage : o.Waiting came sent u.session ∨ o.Decided came sent u.session
  orders : u.ctx.orders = t.ctx.orders
  tx : u.ctx.tx = t.ctx.tx

/-- Where a session is that has not switched. -/
def Stands (o : Opening service next) (came sent : Bytes) (s : Session π) : Prop :=
  o.Waiting came sent s ∨ o.Answered came sent s

section Calls

open Session

variable {o : Opening service next} {came sent left : Bytes} {t : Session.Turn α π}

/-- A session of a connection that is just open. -/
theorem waiting_new (o : Opening service next) : o.Waiting [] [] (Session.new service) := by
  obtain ⟨d, hd⟩ := o.whole
  obtain ⟨front, body, hbytes, henc⟩ := RequestDecoder.exists_encodes hd
  refine ⟨front ++ body, ⟨rfl, rfl, rfl, rfl, .head henc, ⟨[], hbytes, rfl⟩, rfl, fun _ => rfl⟩,
    List.nil_prefix, fun hnone => ?_⟩
  exact henc.front_ne_nil (List.append_eq_nil_iff.1 hnone.symm).1

/-- What is taken from the buffer came in before. -/
theorem Reading.take (h : o.Reading came sent left t.session) {taken rest left' : Bytes}
    (hbuffer : t.session.buffer = taken ++ rest) (hleft : left = taken ++ left') :
    ∃ used, o.bytes = used ++ left' ∧ came = used ++ rest := by
  obtain ⟨used, hbytes, hcame⟩ := h.came
  exact ⟨used ++ taken, by rw [hbytes, hleft, List.append_assoc],
    by rw [hcame, hbuffer, List.append_assoc]⟩

/-- With no response in front of it, the interim response goes out at once. -/
theorem startRequest_eq (o : Opening service next) {s : Session π} (h : s.pending = []) :
    s.startRequest o.head o.size = { s with
      current := some { head := o.head }
      out := if o.head.expectsContinue && o.size != .empty then s.out.push continueLine
        else s.out } := by
  have hfirst : s.pending.isEmpty := by rw [h]; rfl
  simp only [startRequest, hfirst, Bool.and_true]
  split <;> rfl

/-- The head came in. -/
theorem Reading.start (h : o.Reading came sent left t.session) {d : RequestDecoder}
    {front rest left' : Bytes} (hcurrent : t.session.current = none)
    (hbuffer : t.session.buffer = front ++ rest) (hleft : left = front ++ left')
    (hneeds :
      RequestDecoder.Needs service.maxBody o.head o.size d (some { head := o.head }) left') :
    o.Reading came sent left' { t.session with
      decoder := d, buffer := rest, current := some { head := o.head }
      out := if o.head.expectsContinue && o.size != .empty then t.session.out.push continueLine
        else t.session.out } := by
  have hmade := h.made
  rw [hcurrent, Option.isSome_none, if_neg Bool.false_ne_true] at hmade
  refine ⟨h.serves, h.accepts, h.unanswered, h.unended, hneeds, h.take hbuffer hleft, ?_, nofun⟩
  simp only [Option.isSome_some, if_true, interim]
  split
  · rw [Net.Chain.toBytes_push, ← List.append_assoc, hmade, List.nil_append]
  · exact hmade

/-- A piece of the body came in. -/
theorem Reading.gather (h : o.Reading came sent left t.session) {d : RequestDecoder} {r : Request}
    {taken rest left' data : Bytes} (hcurrent : t.session.current = some r)
    (hbuffer : t.session.buffer = taken ++ rest) (hleft : left = taken ++ left')
    (hneeds : RequestDecoder.Needs service.maxBody o.head o.size d
      (some { r with body := r.body ++ data }) left') :
    o.Reading came sent left' { t.session with
      decoder := d, buffer := rest, current := some { r with body := r.body ++ data } } := by
  have hmade := h.made
  rw [hcurrent] at hmade
  exact ⟨h.serves, h.accepts, h.unanswered, h.unended, hneeds, h.take hbuffer hleft, hmade, nofun⟩

/-- The end of the body came in. -/
theorem Reading.dispatch (h : o.Reading came sent left t.session) {r : Request} {rest : Bytes}
    (hcurrent : t.session.current = some r) (hhead : r.head = o.head)
    (hbuffer : t.session.buffer = left ++ rest) (d : RequestDecoder) :
    let u := Session.dispatch service
      (t.modify fun s => { s with decoder := d, buffer := rest, current := none }) r
    o.Decided came sent u.session ∧ u.ctx.orders = t.ctx.orders ∧ u.ctx.tx = t.ctx.tx := by
  have hmade := h.made
  rw [hcurrent, Option.isSome_some, if_pos rfl] at hmade
  obtain ⟨used, hbytes, hcame⟩ := h.came
  have hcame' : came = o.bytes ++ rest := by rw [hcame, hbuffer, hbytes, List.append_assoc]
  simp only [Session.dispatch, hhead, o.names_upgrade, o.ask_chain, Bool.not_true,
    Bool.false_eq_true, if_false]
  have hpending : t.session.pending ++
      [o.answer t.session.nextSlot (o.head.keepAlive && !t.ctx.stopping)] =
      [o.answer t.session.nextSlot (o.head.keepAlive && !t.ctx.stopping)] := by
    rw [h.unanswered, List.nil_append]
  exact ⟨⟨rfl, rfl, h.unended, hcame', hmade, _, hpending, rfl, rfl, o.toBytes_answer _ _⟩,
    rfl, rfl⟩

theorem processEvents_of_upgrading {n : Nat} {t : Session.Turn α π}
    (h : t.session.mode = .upgrading) : Session.processEvents service n t = t := by
  cases n with
  | zero => rfl
  | succ n => simp [Session.processEvents, h]

/-- Going through the input ends where more is needed, or with the answer to the opening. -/
theorem Reading.processEvents {n : Nat} (h : o.Reading came sent left t.session)
    (hsrc : t.session.buffer <+: left ∨ left <+: t.session.buffer)
    (hn : t.session.buffer.length + (if t.session.current.isSome then 0 else 1) < n) :
    o.Passes came sent t (Session.processEvents service n t) := by
  induction n generalizing t left with
  | zero => exact absurd hn (Nat.not_lt_zero _)
  | succ n ih =>
    have hgo : ¬ (decide (t.session.mode ≠ .serving) || !t.session.accepting) := by
      simp [h.serves, h.accepts]
    have hproceeds := RequestDecoder.proceeds_decode h.needs hsrc
    have hrest {taken rest left' : Bytes} (hbuffer : t.session.buffer = taken ++ rest)
        (hleft : left = taken ++ left') : rest <+: left' ∨ left' <+: rest := by
      rwa [hbuffer, hleft, List.prefix_append_right_inj, List.prefix_append_right_inj] at hsrc
    rcases hdecode : t.session.decoder.decode t.session.buffer with ⟨d, rest, e | _ | event⟩
    all_goals rw [hdecode] at hproceeds
    · cases hproceeds
    · have hstop : Session.processEvents service (n + 1) t =
          t.modify fun s => { s with decoder := d, buffer := rest } := by
        simp only [Session.processEvents, if_neg hgo, hdecode]
      rw [hstop]
      cases hproceeds with
      | wait _ taken _ left' hbuffer hleft hneeds hpast hne =>
        exact ⟨.inl ⟨left', ⟨h.serves, h.accepts, h.unanswered, h.unended, hneeds,
          h.take hbuffer hleft, h.made, h.idle⟩, hpast, hne⟩, rfl, rfl⟩
    · have hstep : Session.processEvents service (n + 1) t = Session.processEvents service n
          (handleEvent service
            (t.modify fun s => { s with decoder := d, buffer := rest }) event) := by
        simp only [Session.processEvents, if_neg hgo, hdecode]
      rw [hstep]
      cases hproceeds with
      | head _ front _ left' hcurrent hbuffer hleft hneeds =>
        rw [hcurrent, hbuffer, List.length_append] at hn
        have hstart := h.start hcurrent hbuffer hleft hneeds
        have hevent : handleEvent service
            (t.modify fun s => { s with decoder := d, buffer := rest }) (.head o.head o.size) =
            t.modify fun s => { s with
              decoder := d, buffer := rest, current := some { head := o.head }
              out := if o.head.expectsContinue && o.size != .empty then s.out.push continueLine
                else s.out } := by
          simp only [handleEvent, Turn.modify]
          rw [o.startRequest_eq (s := { t.session with decoder := d, buffer := rest }) h.unanswered]
        rw [hevent]
        obtain ⟨hstage, horders, htx⟩ := ih (t := t.modify fun s => { s with
          decoder := d, buffer := rest, current := some { head := o.head }
          out := if o.head.expectsContinue && o.size != .empty then s.out.push continueLine
            else s.out }) hstart (hrest hbuffer hleft)
          (show rest.length + 0 < n by simp at hn; omega)
        exact ⟨hstage, horders, htx⟩
      | chunk r _ taken _ left' data hcurrent hne hbuffer hleft hneeds =>
        rw [hcurrent, hbuffer, List.length_append] at hn
        have hpos := List.length_pos_iff.2 hne
        have hgather := h.gather hcurrent hbuffer hleft hneeds
        have hevent : handleEvent service
            (t.modify fun s => { s with decoder := d, buffer := rest }) (.body (.chunk data)) =
            t.modify fun s => { s with
              decoder := d, buffer := rest
              current := some { r with body := r.body ++ data } } := by
          simp only [handleEvent, Turn.modify, hcurrent, Option.map_some]
        rw [hevent]
        obtain ⟨hstage, horders, htx⟩ := ih (t := t.modify fun s => { s with
          decoder := d, buffer := rest, current := some { r with body := r.body ++ data } }) hgather
          (hrest hbuffer hleft) (show rest.length + 0 < n by simp at hn; omega)
        exact ⟨hstage, horders, htx⟩
      | eof r _ _ hcurrent hhead hbuffer =>
        have hevent : handleEvent service
            (t.modify fun s => { s with decoder := d, buffer := rest }) (.body .eof) =
            Session.dispatch service
              (t.modify fun s => { s with decoder := d, buffer := rest, current := none }) r := by
          simp only [handleEvent, Turn.modify, hcurrent]
        obtain ⟨hdecided, horders, htx⟩ := h.dispatch hcurrent hhead hbuffer d
        rw [hevent, processEvents_of_upgrading hdecided.upgrades]
        exact ⟨.inr hdecided, horders, htx⟩

/-- The answer moves to the output. -/
theorem Decided.flush {s : Session π} (h : o.Decided came sent s) :
    o.Answered came sent s.flushReady := by
  obtain ⟨p, hpending, hcomplete, hsuccessor, hout⟩ := h.answer
  have hflush : s.flushReady = { s with
      out := s.out.append p.out, pending := [], ending := some (.switchTo next)
      accepting := false } := by
    simp [flushReady, hpending, flushFront, hcomplete, hsuccessor]
  rw [hflush]
  refine ⟨h.upgrades, h.idle, rfl, rfl, h.came, ?_, ?_⟩
  · simp only [Net.Chain.toBytes_append]
    rw [← List.append_assoc, h.made, hout, output]
  · simp only [Net.Chain.toBytes_append, hout]
    exact List.append_ne_nil_of_right_ne_nil _ o.response_ne_nil

theorem stands_flushReady {s : Session π} (h : o.Waiting came sent s ∨ o.Decided came sent s) :
    o.Stands came sent s.flushReady := by
  rcases h with ⟨left, hreading, hcut⟩ | hdecided
  · rw [flushReady_of_unanswered hreading.unanswered]
    exact .inl ⟨left, hreading, hcut⟩
  · exact .inr hdecided.flush

/-- Between two calls: the socket is waited for while there is output, and nothing else is asked of
the connection. -/
structure Calm (o : Opening service next) (came sent : Bytes) (t : Session.Turn α π) : Prop where
  stands : o.Stands came sent t.session
  armed : t.session.out.toBytes ≠ [] → t.ctx.tx
  orders : t.ctx.orders = (false, false, none)

theorem Stands.unanswered {s : Session π} (h : o.Stands came sent s) : s.pending = [] := by
  rcases h with ⟨left, h, -⟩ | h
  · exact h.unanswered
  · exact h.flushed

theorem calm_arm (h : o.Stands came sent t.session)
    (horders : t.ctx.orders = (false, false, none)) : o.Calm came sent (arm t) := by
  unfold arm
  by_cases htotal : t.session.out.total > 0
  · rw [if_pos htotal]
    exact ⟨h, fun _ => rfl, horders⟩
  · rw [if_neg htotal]
    have hnone : t.session.out.toBytes = [] :=
      Net.Chain.total_eq_zero_iff.1 (Nat.eq_zero_of_not_pos htotal)
    rcases h with ⟨left, hreading, hcut⟩ | hanswered
    · have hsame : finishUp t = t := by simp only [finishUp, hreading.unended]
      rw [hsame]
      exact ⟨.inl ⟨left, hreading, hcut⟩, fun hout => absurd hnone hout, horders⟩
    · exact absurd hnone hanswered.waits

/-- More input. -/
theorem Reading.feed (h : o.Reading came sent left t.session) (src : Bytes) :
    o.Reading (came ++ src) sent left { t.session with buffer := t.session.buffer ++ src } := by
  obtain ⟨used, hbytes, hcame⟩ := h.came
  exact ⟨h.serves, h.accepts, h.unanswered, h.unended, h.needs,
    ⟨used, hbytes, by rw [hcame, List.append_assoc]⟩, h.made, h.idle⟩

theorem Calm.read (h : o.Calm came sent t) {src : Bytes}
    (hsrc : came ++ src <+: o.bytes ∨ o.bytes <+: came ++ src) :
    o.Calm (came ++ src) sent (Session.read service t src) := by
  rcases h.stands with ⟨left, hreading, -⟩ | hanswered
  · have hprocess : Session.read service t src =
        Session.process service (t.modify fun s => { s with buffer := s.buffer ++ src }) := by
      simp only [Session.read, hreading.serves, hreading.accepts, if_true]
    rw [hprocess, Session.process]
    obtain ⟨used, hbytes, hcame⟩ := hreading.came
    rw [hcame, hbytes, List.append_assoc, List.prefix_append_right_inj,
      List.prefix_append_right_inj] at hsrc
    have hfuel (current : Bool) : (t.session.buffer ++ src).length + (if current then 0 else 1) <
        2 * (t.session.buffer ++ src).length + 3 := by
      split <;> omega
    obtain ⟨hstage, horders, -⟩ := (hreading.feed src).processEvents
      (t := t.modify fun s => { s with buffer := s.buffer ++ src }) hsrc (hfuel _)
    exact calm_arm (stands_flushReady hstage) (horders.trans h.orders)
  · have hkeep : Session.read service t src =
        t.modify fun s => { s with buffer := s.buffer ++ src } := by
      simp only [Session.read, hanswered.upgrades]
    rw [hkeep]
    have hcame : came ++ src = o.bytes ++ (t.session.buffer ++ src) := by
      rw [← List.append_assoc, ← hanswered.came]
    exact ⟨.inr ⟨hanswered.upgrades, hanswered.idle, hanswered.flushed, hanswered.ends, hcame,
      hanswered.made, hanswered.waits⟩, h.armed, h.orders⟩

theorem Calm.wakeup (h : o.Calm came sent t) (items : List Item) :
    o.Calm came sent (Session.wakeup t items) := by
  have hpending := h.stands.unanswered
  have hsame : (t.modify fun s => (items.foldl applyItem s).flushReady) = t := by
    simp only [Turn.modify, foldl_applyItem_of_unanswered hpending,
      flushReady_of_unanswered hpending]
  rw [Session.wakeup, hsame]
  exact calm_arm h.stands h.orders

/-- A session that has seen no head yet has nothing to finish. -/
theorem Calm.stop (h : o.Calm came sent t) :
    o.Calm came sent (Session.stop t) ∨ Session.stop t = t.shutdown ∧
      o.Waiting came sent t.session ∧ t.session.current = none := by
  rcases h.stands with ⟨left, hreading, hcut⟩ | hanswered
  · rcases hcurrent : t.session.current with _ | r
    · refine .inr ⟨?_, ⟨left, hreading, hcut⟩, rfl⟩
      simp [Session.stop, isIdle, hreading.serves, hreading.unanswered, hreading.unended,
        hreading.idle hcurrent, hcurrent]
    · have hsame : Session.stop t = t := by
        simp [Session.stop, isIdle, hcurrent]
      rw [hsame]
      exact .inl h
  · have hstop : Session.stop t =
        arm (t.modify fun s => { s with accepting := false }).disableRx := by
      simp [Session.stop, hanswered.upgrades, hanswered.idle, endWithLast, Turn.modify,
        hanswered.flushed, hanswered.ends]
    rw [hstop]
    exact .inl (calm_arm (.inr ⟨hanswered.upgrades, hanswered.idle, hanswered.flushed,
      hanswered.ends, hanswered.came, hanswered.made, hanswered.waits⟩) h.orders)

/-- All that goes out before the switch is the interim response and the answer. -/
theorem Stands.made_prefix {s : Session π} (h : o.Stands came sent s) :
    sent ++ s.out.toBytes <+: o.output := by
  rcases h with ⟨left, h, -⟩ | h
  · rw [h.made]
    split
    · exact List.prefix_append _ _
    · exact List.nil_prefix
  · exact h.made ▸ List.prefix_rfl

/-- Before the switch, the answer is not out. -/
theorem Stands.sent_ne {s : Session π} (h : o.Stands came sent s) : sent ≠ o.output := by
  rintro rfl
  rcases h with ⟨left, h, -⟩ | h
  · have hmade := congrArg List.length h.made
    have hresponse := List.length_pos_iff.2 o.response_ne_nil
    simp only [output, List.length_append] at hmade
    split at hmade
    · omega
    · rw [List.length_nil] at hmade
      omega
  · exact h.waits (List.append_right_eq_self.1 h.made)

/-- Once all of the opening came in, the answer waits for the socket, and what came behind the
opening is kept. -/
theorem Stands.answered {s : Session π} (h : o.Stands came sent s) (hcame : o.bytes <+: came) :
    s.out.toBytes ≠ [] ∧ came = o.bytes ++ s.buffer := by
  rcases h with ⟨left, h, hcut, hne⟩ | h
  · obtain ⟨used, hbytes, hused⟩ := h.came
    rw [hbytes, hused, List.prefix_append_right_inj] at hcame
    exact absurd (hcut.eq_of_length (Nat.le_antisymm hcut.length_le hcame.length_le)) hne
  · exact ⟨h.waits, h.came⟩

/-- Sending takes from the output. -/
theorem Waiting.send {s : Session π} {sent' : Bytes} {out : Net.Chain} (h : o.Waiting came sent s)
    (hsent : sent' ++ out.toBytes = sent ++ s.out.toBytes) (hidle : s.current = none → out = {}) :
    o.Waiting came sent' { s with out } := by
  obtain ⟨left, h, hcut⟩ := h
  exact ⟨left, ⟨h.serves, h.accepts, h.unanswered, h.unended, h.needs, h.came,
    hsent.trans h.made, hidle⟩, hcut⟩

theorem Answered.send {s : Session π} {sent' : Bytes} {out : Net.Chain}
    (h : o.Answered came sent s) (hsent : sent' ++ out.toBytes = sent ++ s.out.toBytes)
    (hwaits : out.toBytes ≠ []) : o.Answered came sent' { s with out } :=
  ⟨h.upgrades, h.idle, h.flushed, h.ends, h.came, hsent.trans h.made, hwaits⟩

/-- What sending comes to: the opening is as far as it was, or all is sent and the connection is
asked to switch. -/
inductive Written (o : Opening service next) (came sent : Bytes) (u : Session.Turn α π) :
    Except Failure WriteStatus → Prop
  | failed (e : Failure) : Written o came sent u (.error e)
  | pending : o.Calm came sent u → Written o came sent u (.ok .pending)
  | flushed : (∀ tx, o.Calm came sent { u with ctx := { u.ctx with tx } }) →
      Written o came sent u (.ok .flushed)
  | done : sent = o.output → came = o.bytes ++ u.session.buffer →
      u.ctx.orders = (false, false, some next) → Written o came sent u (.ok .flushed)

/-- Where nothing is left, the answer is out, or it is not made yet. -/
theorem Calm.flush (h : o.Calm came sent t) {sent' : Bytes}
    (hsent : sent' = sent ++ t.session.out.toBytes) :
    o.Written came sent' (finishUp (t.modify fun s => { s with out := .empty }))
      (.ok .flushed) := by
  have hsent' : sent' ++ Net.Chain.empty.toBytes = sent ++ t.session.out.toBytes := by
    rw [Net.Chain.toBytes_empty, List.append_nil, hsent]
  rcases h.stands with hwaiting | hanswered
  · have hsame : finishUp (t.modify fun s => { s with out := .empty }) =
        t.modify fun s => { s with out := .empty } := by
      obtain ⟨left, hreading, -⟩ := hwaiting
      simp only [finishUp, Turn.modify, hreading.unended]
    rw [hsame]
    exact .flushed fun tx => ⟨.inl (hwaiting.send hsent' fun _ => rfl), fun hout => absurd rfl hout,
      h.orders⟩
  · have hover : finishUp (t.modify fun s => { s with out := .empty }) =
        (t.modify fun s => { s with out := .empty, ending := none }).switchTo next := by
      simp only [finishUp, Turn.modify, hanswered.ends]
    rw [hover]
    have horders := h.orders
    simp only [Context.orders, Prod.mk.injEq] at horders
    refine .done (hsent.trans hanswered.made) hanswered.came ?_
    simp [Context.orders, Turn.switchTo, Turn.modify, horders]

theorem Calm.write {ρ : Type} {socket : Net.Sender ρ} {log : ρ → Bytes} (hlogs : socket.Logs log)
    {io : ρ} (h : o.Calm came (log io) t) :
    log (Session.write t socket io).2.1 <+: o.output ∧
      o.Written came (log (Session.write t socket io).2.1) (Session.write t socket io).1
        (Session.write t socket io).2.2 := by
  have hflush : t.modify flushReady = t := by
    simp only [Turn.modify, flushReady_of_unanswered h.stands.unanswered]
  have hsent := Net.sendChain_logs hlogs io t.session.out t.ctx.maxIovec
  have hstatus := Net.sendChain_status socket io t.session.out t.ctx.maxIovec
  have hsuffix := Net.sendChain_suffix socket io t.session.out t.ctx.maxIovec
  simp only [Session.write, hflush]
  generalize Net.sendChain socket io t.session.out t.ctx.maxIovec = r at hsent hstatus hsuffix ⊢
  have hpast : log r.1 <+: o.output := by
    refine .trans ?_ h.stands.made_prefix
    rw [← hsent]
    exact List.prefix_append _ _
  obtain ⟨io', out, fault | _ | _⟩ := r
  · exact ⟨hpast, .failed _⟩
  · obtain rfl := hstatus.1 rfl
    rw [Net.Chain.toBytes_empty, List.append_nil] at hsent
    exact ⟨hpast, h.flush hsent⟩
  · have hwaits := hstatus.2 rfl
    have hout : t.session.out.toBytes ≠ [] := fun hnone =>
      hwaits (List.suffix_nil.1 (hnone ▸ hsuffix))
    refine ⟨hpast, .pending ⟨?_, fun _ => h.armed hout, h.orders⟩⟩
    rcases h.stands with hwaiting | hanswered
    · refine .inl (hwaiting.send hsent fun hcurrent => absurd ?_ hout)
      obtain ⟨left, hreading, -⟩ := hwaiting
      rw [hreading.idle hcurrent]
      rfl
    · exact .inr (hanswered.send hsent hwaits)

end Calls

end Opening

end Http

end WireServer
