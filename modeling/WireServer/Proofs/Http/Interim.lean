import WireServer.Proofs.Http.Promptness
import WireServer.Proofs.Http.Story

/-! Interim responses. Where a handler answers every request before it comes back, a client that
waits is told to go on exactly once, directly behind the head of its request, and only such a
client is; the interim response stands behind all earlier responses and in front of all later ones.
A head behind another request in the same read is the exception: the response to that one is still
in line. -/

namespace WireServer.Http

variable {τ α π : Type}

/-! ### Decoded heads -/

theorem BodySize.length_pos_of_ofFields {fields : Fields} {n : Nat}
    (h : BodySize.ofFields fields = .ok (.length n)) : 0 < n := by
  unfold BodySize.ofFields at h
  split at h
  · cases h
  · split at h <;> cases h
  · split at h
    · cases h
    split at h
    · rename_i m _
      by_cases hm : m = 0
      · simp [BodySize.ofLength, hm] at h
      · simp only [BodySize.ofLength, if_neg hm] at h
        cases h
        exact Nat.pos_of_ne_zero hm
    · cases h
  · cases h

/-- No body is announced with a length of zero. -/
theorem HeadDecoder.length_pos_of_decode {src rest : Bytes} {head : RequestHead} {n : Nat}
    (h : HeadDecoder.decode src = (rest, .ok (some (head, .length n)))) : 0 < n := by
  unfold HeadDecoder.decode at h
  split at h
  · cases h
  split at h
  · split at h <;> cases h
  · cases h
  · cases h
  · cases h
  · dsimp only at h
    split at h
    · cases h
    unfold HeadDecoder.assemble at h
    split at h
    · cases h
    dsimp only at h
    split at h
    · cases h
    · rename_i size hsize
      cases h
      exact BodySize.length_pos_of_ofFields hsize

namespace RequestDecoder

variable {d d' : RequestDecoder} {src rest : Bytes}

theorem maxBody_decode (d : RequestDecoder) (src : Bytes) :
    (d.decode src).1.maxBody = d.maxBody := by
  unfold decode
  cases d.body with
  | some body =>
    simp only [decodeBody]
    rcases body.decode src with ⟨b, rest, e | _ | data | _⟩
    · rfl
    · rfl
    · dsimp only
      split <;> rfl
    · rfl
  | none =>
    simp only [decodeHead]
    rcases HeadDecoder.decode src with ⟨rest, e | _ | ⟨head, size⟩⟩
    · rfl
    · rfl
    · dsimp only
      split <;> rfl

/-- A request whose announced length is over the limit is refused at its head. -/
theorem length_of_decode {head : RequestHead} {n : Nat}
    (h : d.decode src = (d', rest, .ok (some (.head head (.length n))))) :
    0 < n ∧ n ≤ d.maxBody := by
  unfold decode at h
  cases hbody : d.body with
  | some body =>
    simp only [hbody, decodeBody] at h
    generalize body.decode src = x at h
    obtain ⟨b, rest, e | _ | data | _⟩ := x
    · cases h
    · cases h
    · dsimp only at h
      split at h <;> cases h
    · cases h
  | none =>
    simp only [hbody, decodeHead] at h
    rcases hhead : HeadDecoder.decode src with ⟨rest, e | _ | ⟨head, size⟩⟩
    all_goals rw [hhead] at h
    · cases h
    · cases h
    · dsimp only at h
      split at h
      · cases h
      · rename_i hlimit
        cases h
        exact ⟨HeadDecoder.length_pos_of_decode hhead, by simpa [overLimit] using hlimit⟩

end RequestDecoder

namespace Session

/-! ### Within a read -/

/-- Every response in line is complete, and there is none while the read is quiet. -/
structure Prompt (service : Service α π) (front : Story π) (t : Turn α π) : Prop where
  ordered : t.session.line.Ordered
  complete : ∀ p ∈ t.session.pending, p.isComplete
  free : t.desk.outbox.Free
  limit : t.session.decoder.maxBody = service.maxBody
  quiet : Story.Quiet front → t.session.pending = []

section Within

variable {service : Service α π} {t : Turn α π} {front : Story π}

/-- The place of a response ends the quiet. -/
theorem not_quiet_ofLog {l : Log π} {p : Pending π} (h : .admitted p ∈ l) :
    ¬ Story.Quiet (front ++ Story.ofLog l) := fun hquiet => by
  have hreads : .reads ∉ Story.ofLog l := by simp [Story.ofLog]
  exact (hquiet.of_append hreads).2 p (List.mem_map_of_mem h)

theorem Prompt.head (h : Prompt service front t) {head : RequestHead} {size : BodySize}
    (hsize : ∀ n, size = .length n → 0 < n ∧ n ≤ service.maxBody) :
    Story.Proper service.maxBody front (eventBeats service t (.head head size)) ∧
      Prompt service (front ++ eventBeats service t (.head head size))
        (handleEvent service t (.head head size)) := by
  have hbeats : Story.Quiet (front ++ eventBeats service t (.head head size)) →
      Story.Quiet front := fun hquiet =>
    (hquiet.of_append (by simp [eventBeats, Story.ofLog])).1
  have hsession : (handleEvent service t (.head head size)).session.pending = t.session.pending ∧
      (handleEvent service t (.head head size)).session.decoder = t.session.decoder := by
    simp only [handleEvent, Turn.modify, startRequest]
    split <;> exact ⟨rfl, rfl⟩
  refine ⟨?_, ?_, ?_, h.free, hsession.2 ▸ h.limit, fun hquiet =>
    hsession.1.trans (h.quiet (hbeats hquiet))⟩
  · rw [eventBeats, startChanges]
    split
    · rename_i hcond
      simp only [Bool.and_eq_true, bne_iff_ne, ne_eq] at hcond
      obtain ⟨⟨hexpects, hnonempty⟩, -⟩ := hcond
      refine .cons ⟨hsize, fun _ _ _ => List.prefix_rfl⟩ (.cons ?_ .nil)
      exact ⟨front, head, size, rfl, hexpects, hnonempty⟩
    · rename_i hcond
      refine .cons ⟨hsize, fun hexpects hnonempty hquiet => absurd ?_ hcond⟩ .nil
      simp [hexpects, hnonempty, h.quiet hquiet]
  · exact (handleEvent_follows service t h.ordered (.head head size)).ordered h.ordered
  · rw [hsession.1]
    exact h.complete

theorem Prompt.body (hanswers : AnswersAtOnce service) (h : Prompt service front t)
    (item : BodyItem) :
    Story.Proper service.maxBody front (eventBeats service t (.body item)) ∧
      Prompt service (front ++ eventBeats service t (.body item))
        (handleEvent service t (.body item)) := by
  have hordered := (handleEvent_follows service t h.ordered (.body item)).ordered h.ordered
  cases item with
  | chunk data =>
    refine ⟨.nil, ?_⟩
    rw [show front ++ eventBeats service t (.body (.chunk data)) = front from List.append_nil front]
    exact ⟨hordered, h.complete, h.free, h.limit, h.quiet⟩
  | eof =>
    cases hcurrent : t.session.current with
    | none =>
      simp only [eventBeats, eventChanges, handleEvent, hcurrent, Story.ofLog, List.map_nil,
        List.append_nil]
      exact ⟨.nil, h⟩
    | some r =>
      obtain ⟨p, hp⟩ := admitted_mem_dispatchChanges service
        (t.modify fun s => { s with current := none }) r
      have hleaves := dispatch_leaves hanswers (t := t.modify fun s => { s with current := none })
        h.ordered h.free h.complete r
      simp only [eventBeats, eventChanges, handleEvent, hcurrent] at hordered ⊢
      exact ⟨Story.proper_ofLog (interim_not_mem_dispatchChanges service _ r), hordered,
        hleaves.complete, hleaves.free, (congrArg _ hleaves.decoder).trans h.limit,
        fun hquiet => absurd hquiet (not_quiet_ofLog hp)⟩

theorem Prompt.processEvents (hanswers : AnswersAtOnce service) (h : Prompt service front t)
    (fuel : Nat) :
    Story.Proper service.maxBody front (processBeats service fuel t) ∧
      Prompt service (front ++ processBeats service fuel t) (processEvents service fuel t) := by
  induction fuel generalizing front t with
  | zero => exact ⟨.nil, by simpa [processBeats, Session.processEvents] using h⟩
  | succ fuel ih =>
    rw [processBeats, Session.processEvents]
    split
    · exact ⟨.nil, by simpa using h⟩
    have hlimit := RequestDecoder.maxBody_decode t.session.decoder t.session.buffer
    rcases hdecode : t.session.decoder.decode t.session.buffer with ⟨d, buffer, e | _ | event⟩
    all_goals rw [hdecode] at hlimit
    · -- the refusal is a response in line itself, so the read is not quiet any more
      refine ⟨Story.proper_ofLog (interim_not_mem_answeredChanges _ _), ?_, ?_, h.free,
        hlimit.trans h.limit, fun hquiet => absurd hquiet (not_quiet_ofLog List.mem_cons_self)⟩
      · exact (rejectRequest_follows { t.session with decoder := d, buffer } h.ordered _ e).ordered
          h.ordered
      · simp only [Turn.modify, rejectRequest, fail, List.mem_append, List.mem_singleton]
        rintro q (hq | rfl)
        · exact h.complete q hq
        · exact Pending.applyFull_isComplete _ _
    · refine ⟨.nil, ?_⟩
      rw [List.append_nil]
      exact ⟨h.ordered, h.complete, h.free, hlimit.trans h.limit, h.quiet⟩
    · have hprompt : Prompt service front (t.modify fun s => { s with decoder := d, buffer }) :=
        ⟨h.ordered, h.complete, h.free, hlimit.trans h.limit, h.quiet⟩
      have hevent : Story.Proper service.maxBody front (eventBeats service
            (t.modify fun s => { s with decoder := d, buffer }) event) ∧
          Prompt service (front ++ eventBeats service
            (t.modify fun s => { s with decoder := d, buffer }) event) (handleEvent service
              (t.modify fun s => { s with decoder := d, buffer }) event) := by
        cases event with
        | head head size =>
          refine hprompt.head fun n hn => h.limit ▸ ?_
          subst hn
          exact RequestDecoder.length_of_decode hdecode
        | body item => exact hprompt.body hanswers item
      obtain ⟨hproper, hrest⟩ := ih hevent.2
      exact ⟨hevent.1.append hproper, by rwa [← List.append_assoc]⟩

end Within

/-! ### From read to read -/

section Runs

variable {service : Service α π} {t : Turn α π}

/-- Between the calls no response is in line. -/
structure Rested (service : Service α π) (t : Turn α π) : Prop where
  empty : t.session.pending = []
  free : t.desk.outbox.Free
  limit : t.session.decoder.maxBody = service.maxBody

theorem Rested.prompt (h : Rested service t) {front : Story π} : Prompt service front t :=
  ⟨by simp [Line.Ordered, line, h.empty, Rising.nil], by simp [h.empty], h.free, h.limit,
    fun _ => h.empty⟩

theorem Rested.finishUp (h : Rested service t) : Rested service (finishUp t) := by
  obtain ⟨ending, hsession⟩ := finishUp_session t
  have hdesk : (Session.finishUp t).desk = t.desk := by
    unfold Session.finishUp
    dsimp only
    split <;> rfl
  exact ⟨by rw [hsession]; exact h.empty, hdesk ▸ h.free, by rw [hsession]; exact h.limit⟩

theorem Rested.arm (h : Rested service t) : Rested service (arm t) := by
  unfold Session.arm
  split
  · exact ⟨h.empty, h.free, h.limit⟩
  · exact h.finishUp

theorem Rested.read (hanswers : AnswersAtOnce service) (h : Rested service t) (front : Story π)
    (src : Bytes) : Story.Proper service.maxBody front (readBeats service t src) ∧
      Rested service (read service t src) := by
  unfold readBeats Session.read
  dsimp only
  have hkept : Rested service (t.modify fun s => { s with buffer := s.buffer ++ src }) :=
    ⟨h.empty, h.free, h.limit⟩
  cases t.session.mode with
  | serving =>
    dsimp only
    split
    · have hstart : Prompt service (front ++ [.reads])
          (t.modify fun s => { s with buffer := s.buffer ++ src }) := hkept.prompt
      obtain ⟨hproper, hprompt⟩ := hstart.processEvents hanswers
        (2 * (t.modify fun s => { s with buffer := s.buffer ++ src }).session.buffer.length + 3)
      -- the flush behind the last event takes out all that was answered
      refine ⟨.cons trivial hproper, Rested.arm ⟨?_, hprompt.free, ?_⟩⟩
      · exact flushFront_of_complete _ hprompt.complete
      · exact (congrArg _ (decoder_flushFront _ _)).trans hprompt.limit
    · exact ⟨.nil, h⟩
  | upgrading => exact ⟨.nil, hkept⟩
  | failed => exact ⟨.nil, h⟩

theorem Rested.wakeup (h : Rested service t) (items : List Item) :
    Rested service (wakeup t items) := by
  refine Rested.arm ?_
  simp only [Turn.modify, foldl_applyItem_of_unanswered h.empty, flushReady_of_unanswered h.empty]
  exact h

theorem Rested.write (h : Rested service t) (socket : Net.Sender τ) (io : τ) :
    Rested service (write t socket io).1 := by
  simp only [Session.write, Turn.modify, flushReady_of_unanswered h.empty]
  rcases Net.sendChain socket io t.session.out t.ctx.maxIovec with ⟨io', out, fault | _ | _⟩
  · exact ⟨h.empty, h.free, h.limit⟩
  · exact Rested.finishUp ⟨h.empty, h.free, h.limit⟩
  · exact ⟨h.empty, h.free, h.limit⟩

theorem Rested.stop (h : Rested service t) : Rested service (stop t) := by
  unfold Session.stop
  split
  · exact ⟨h.empty, h.free, h.limit⟩
  split
  · exact h
  · obtain ⟨ending, hend⟩ :=
      endWithLast_of_empty (s := { t.session with accepting := false }) h.empty
    refine Rested.arm ?_
    simp only [Turn.modify, hend]
    exact ⟨h.empty, h.free, h.limit⟩

/-- Whatever happens, what is told of it is proper, and no response is left in line. -/
theorem Rested.happen (hanswers : AnswersAtOnce service) (h : Rested service t) (front : Story π)
    (socket : Net.Sender τ) {e : Event τ α π}
    (houtside : ∀ ctx desk, e = .outside ctx desk → desk.outbox.Free) :
    Story.Proper service.maxBody front (beats service t e) ∧
      Rested service (happen service socket t e) := by
  have hplain (he : ∀ src, e ≠ .read src) :
      Story.Proper service.maxBody front (Story.ofLog (changes service t e)) :=
    Story.proper_ofLog (interim_not_mem_changes service t he)
  cases e with
  | read src => exact h.read hanswers front src
  | wakeup items => exact ⟨hplain nofun, h.wakeup items⟩
  | write io => exact ⟨hplain nofun, h.write socket io⟩
  | stop => exact ⟨hplain nofun, h.stop⟩
  | takeLeftover => exact ⟨hplain nofun, h.empty, h.free, h.limit⟩
  | outside ctx desk => exact ⟨hplain nofun, h.empty, houtside ctx desk rfl, h.limit⟩

theorem Rested.story (hanswers : AnswersAtOnce service) (socket : Net.Sender τ) {r : Record α π}
    (h : Rested service r.turn) (front : Story π) {es : List (Event τ α π)}
    (houtside : ∀ ctx desk, .outside ctx desk ∈ es → desk.outbox.Free) :
    Story.Proper service.maxBody front (story service socket r es) := by
  induction es generalizing r front with
  | nil => exact .nil
  | cons e es ih =>
    obtain ⟨hproper, hrest⟩ := h.happen hanswers front socket
      fun ctx desk he => houtside ctx desk (he ▸ List.mem_cons_self)
    exact hproper.append (ih hrest _ fun ctx desk he =>
      houtside ctx desk (List.mem_cons_of_mem _ he))

end Runs

/-! ### Where interim responses stand -/

theorem Log.places_around_interim (log more : Log π) : ∃ before behind : List (Place π),
    Log.places (log ++ .interim :: more) = before ++ .interim :: behind ∧
      before.filterMap Place.slot? = log.slots ∧ behind.filterMap Place.slot? = more.slots := by
  induction log with
  | nil => exact ⟨[], more.places, rfl, rfl, Log.filterMap_places more⟩
  | cons c log ih =>
    obtain ⟨before, behind, hplaces, hbefore, hbehind⟩ := ih
    cases c with
    | admitted p =>
      refine ⟨_ :: before, behind, by rw [List.cons_append, Log.places, hplaces]; rfl, ?_, hbehind⟩
      rw [List.filterMap_cons, hbefore, Place.slot?, Pending.foldl_take_slot]
      rfl
    | told slot input => exact ⟨before, behind, hplaces, hbefore, hbehind⟩
    | interim =>
      exact ⟨.interim :: before, behind, by rw [List.cons_append, Log.places, hplaces]; rfl, hbefore,
        hbehind⟩

/-- A head that was decoded is directly followed by an interim response if its client waits, there
is a body to wait for and no response got a place since the read began. An interim response directly
follows such a head, whose body is not over the limit: so there is none for a request that was
refused for its length, and never a second one. All responses that got a place before it stand in
front of it, are complete and keep the connection open; what goes out is their bytes, then the
interim response, then what is shown of the responses that got their places later. -/
theorem interim_follows_head (service : Service α π) (hanswers : AnswersAtOnce service)
    (socket : Net.Sender τ) (hsocket : socket.Honest) (ctx : Context π) (desk : Desk α)
    (hfree : desk.outbox.Free) (es : List (Event τ α π))
    (houtside : ∀ ctx desk, .outside ctx desk ∈ es → desk.outbox.Free) :
    let r := (Record.fresh service ctx desk).run service socket es
    let told := story service socket (Record.fresh service ctx desk) es
    r.log = told.log ∧
      (∀ (front : Story π) (head : RequestHead) (size : BodySize) (back : Story π),
        told = front ++ .head head size :: back →
        (∀ n, size = .length n → 0 < n ∧ n ≤ service.maxBody) ∧
        (head.expectsContinue → size ≠ .empty → front.Quiet →
          ∃ rest, back = .change .interim :: rest)) ∧
      ∀ front back : Story π, told = front ++ .change .interim :: back →
        (∃ (before : Story π) (head : RequestHead) (size : BodySize),
          front = before ++ [.head head size] ∧ head.expectsContinue ∧ size ≠ .empty) ∧
        ∃ before behind : List (Place π), r.log.places = before ++ .interim :: behind ∧
          before.filterMap Place.slot? = front.log.slots ∧
          behind.filterMap Place.slot? = back.log.slots ∧ (∀ b ∈ before, b.passes) ∧
          r.moved = before.flatMap Place.bytes ++
            (continueLine ++ (Place.shown behind).flatMap Place.bytes) := by
  intro r told
  have hlog : r.log = told.log := log_story service socket (Record.fresh service ctx desk) es
  have hproper : Story.Proper service.maxBody [] told :=
    Rested.story hanswers socket (r := Record.fresh service ctx desk) ⟨rfl, hfree, rfl⟩ [] houtside
  have hrun : r.turn.session.InOrder r.log r.sent := inOrder_run hsocket service ctx desk es
  refine ⟨hlog, fun front head size back htold => ?_, fun front back htold => ?_⟩
  · obtain ⟨hsize, hfollows⟩ := hproper front (.head head size) back htold
    refine ⟨hsize, fun hexpects hbody hquiet => ?_⟩
    obtain ⟨rest, hrest⟩ := hfollows hexpects hbody hquiet
    exact ⟨rest, hrest.symm⟩
  · refine ⟨hproper front (.change .interim) back htold, ?_⟩
    have hsplit : r.log = front.log ++ .interim :: back.log := by
      rw [hlog, htold, Story.log_append]
      rfl
    obtain ⟨before, behind, hplaces, hbefore, hbehind⟩ :=
      Log.places_around_interim front.log back.log
    rw [← hsplit] at hplaces
    have hpassed := hrun.interim hplaces
    refine ⟨before, behind, hplaces, hbefore, hbehind, hpassed, ?_⟩
    rw [Record.moved, hrun.shown, hplaces, Place.shown_append hpassed, List.flatMap_append,
      Place.shown, if_pos (by rfl), List.flatMap_cons]
    rfl

/-- A handler that answers with no body. -/
def nodding : Service Unit Unit where
  handler _ _ := .send (.empty 200) fun _ => .done () .ok

theorem answersAtOnce_nodding : AnswersAtOnce nodding :=
  .of_answersWith (Service.answersWith_of_send (fun _ _ _ => .done () .ok) fun _ _ => rfl)

/-- A request, and the head of another one whose client waits. -/
def bareText : Bytes := Bytes.ofString "GET / HTTP/1.1\r\n\r\n"

def waitingText (version : String) : Bytes :=
  Bytes.ofString ("POST /up HTTP/" ++ version ++
    "\r\nExpect: 100-continue\r\nContent-Length: 5\r\n\r\n")

def waitingHead (version : Version) : RequestHead where
  method := Bytes.ofString "POST"
  uri := { pathPart := Bytes.ofString "/up" }
  version := version
  fields := .ofList [(fieldName "expect", Bytes.ofString "100-continue"),
    (fieldName "content-length", Bytes.ofString "5")]

def nods (es : List (Event Net.MemorySocket Unit Unit)) : Record Unit Unit :=
  (Record.fresh nodding {} { app := () }).run nodding Net.MemorySocket.socket.toSender es

def nodStory (es : List (Event Net.MemorySocket Unit Unit)) : Story Unit :=
  story nodding Net.MemorySocket.socket.toSender (Record.fresh nodding {} { app := () }) es

/-- In a read of its own the head is followed by the interim response, which goes out between the two
responses. -/
theorem interim_follows_head_own_read :
    let es : List (Event Net.MemorySocket Unit Unit) :=
      [.read bareText, .read (waitingText "1.1"), .write {}, .read (Bytes.ofString "hello")]
    Net.MemorySocket.socket.toSender.Honest ∧ AnswersAtOnce nodding ∧
      ({} : Outbox).Free ∧ (∀ ctx desk, .outside ctx desk ∈ es → desk.outbox.Free) ∧
      nodStory es = (nodStory es).take 5 ++
        .head (waitingHead .v11) (.length 5) :: (nodStory es).drop 6 ∧
      (∃ rest, (nodStory es).drop 6 = .change .interim :: rest) ∧
      (nods es).moved = Bytes.ofString ("HTTP/1.1 200 OK\r\ncontent-length: 0\r\n\r\n" ++
        "HTTP/1.1 100 Continue\r\n\r\n" ++ "HTTP/1.1 200 OK\r\ncontent-length: 0\r\n\r\n") := by
  intro es
  have hfree : ({} : Outbox).Free := ⟨⟨rfl, rfl⟩, rfl⟩
  have houtside : ∀ ctx desk, .outside ctx desk ∈ es → desk.outbox.Free := by simp [es]
  have hhead : nodStory es = (nodStory es).take 5 ++
      .head (waitingHead .v11) (.length 5) :: (nodStory es).drop 6 := by decide +kernel
  have hquiet : Story.Quiet ((nodStory es).take 5) :=
    ⟨(nodStory es).take 4, [], by decide +kernel, by simp⟩
  have hmain := interim_follows_head nodding answersAtOnce_nodding
    Net.MemorySocket.socket.toSender Net.MemorySocket.honest {} { app := () } hfree es houtside
  exact ⟨Net.MemorySocket.honest, answersAtOnce_nodding, hfree, houtside, hhead,
    (hmain.2.1 _ _ _ _ hhead).2 (by decide +kernel) (by decide +kernel) hquiet, by decide +kernel⟩

/-- Behind another request in one read there is no interim response, though the response to that
request is complete and the connection stays open. The version of the request does not matter. -/
theorem interim_withheld_behind_request :
    (waitingHead .v11).expectsContinue ∧ 5 ≤ nodding.maxBody ∧
      (nodStory [.read (bareText ++ waitingText "1.1")]).getLast? =
        some (.head (waitingHead .v11) (.length 5)) ∧
      (nods [.read (bareText ++ waitingText "1.1")]).turn.session.buffer = [] ∧
      ((nods [.read (bareText ++ waitingText "1.1")]).log.places.all Place.passes) ∧
      .interim ∉ (nods [.read (bareText ++ waitingText "1.1")]).log ∧
      nodStory [.read (waitingText "1.0")] =
        [.reads, .head (waitingHead .v10) (.length 5), .change .interim] := by
  decide +kernel

end Session

end WireServer.Http
