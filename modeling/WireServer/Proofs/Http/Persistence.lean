import WireServer.Proofs.Http.Announcing
import WireServer.Proofs.Http.HalfClosing
import WireServer.Proofs.Http.Intake

/-! Whether a connection stays open is what its responses announce. As long as the server does not
stop, a response in line is the one that its parts make, and it goes by what its head says. Once
such a response is all there and the first in line, the session asks for a half-close behind it if
it announced the end, and goes on to the next response if it did not. -/

namespace WireServer.Http

variable {α π τ : Type}

/-- Requests are those of HTTP/1. -/
theorem RequestDecoder.version_of_decode {d d' : RequestDecoder} {src rest : Bytes}
    {head : RequestHead} {size : BodySize}
    (h : d.decode src = (d', rest, .ok (some (.head head size)))) :
    head.version = .v10 ∨ head.version = .v11 := by
  unfold decode at h
  cases hbody : d.body with
  | some body =>
    simp only [hbody, decodeBody] at h
    generalize body.decode src = x at h
    obtain ⟨b, rest, e | _ | data | _⟩ := x
    · cases h
    · cases h
    · dsimp only at h
      split at h <;> cases h
    · cases h
  | none =>
    simp only [hbody, decodeHead] at h
    rcases hhead : HeadDecoder.decode src with ⟨rest, e | _ | ⟨head, size⟩⟩
    all_goals rw [hhead] at h
    · cases h
    · cases h
    · dsimp only at h
      split at h
      · cases h
      · cases h
        obtain ⟨t, -, rfl⟩ := HeadDecoder.exists_spelling hhead
        exact t.known

namespace Session

/-! ### What is logged while the server does not stop -/

/-- What may happen to the line as long as the server does not stop: responses are to requests of
HTTP/1, and none is told that it is the last one. -/
def Change.Usual : Change π → Prop
  | .admitted p => p.version = .v10 ∨ p.version = .v11
  | .told _ .last => False
  | .told _ (.part _) | .interim => True

/-- The request that is being read is one of HTTP/1. -/
def Versioned (s : Session π) : Prop :=
  ∀ r ∈ s.current, r.head.version = .v10 ∨ r.head.version = .v11

section Within

variable {service : Service α π} {t : Turn α π} {s s' : Session π} {r : Request}

theorem usual_handlerChanges (desk : Desk α) (slot : Nat) (r : Request) :
    ∀ c ∈ handlerChanges service desk slot r, c.Usual := fun c hc => by
  obtain ⟨slot, part, rfl⟩ := parts_handlerChanges hc
  exact trivial

theorem usual_answeredChanges {p : Pending π} (hp : p.version = .v10 ∨ p.version = .v11)
    (r : Response) : ∀ c ∈ answeredChanges p r, c.Usual := by
  simp [answeredChanges, Change.Usual, hp]

theorem usual_dispatchChanges (hversion : r.head.version = .v10 ∨ r.head.version = .v11) :
    ∀ c ∈ dispatchChanges service t r, c.Usual := by
  have hserve {p : Pending π} (hp : p.version = .v10 ∨ p.version = .v11) :
      ∀ c ∈ serveChanges service t.desk p r, c.Usual :=
    List.forall_mem_cons.2 ⟨hp, usual_handlerChanges _ _ _⟩
  unfold dispatchChanges
  dsimp only
  split
  · exact hserve hversion
  cases UpgradeHandler.ask service.upgradeChain r.head with
  | handled response next => exact usual_answeredChanges hversion response
  | ignore => exact hserve hversion
  | unknown => exact usual_answeredChanges hversion _
  | refused status => exact usual_answeredChanges hversion _

theorem usual_rejectChanges (h : s.Versioned) (expecting : Bool) (e : RequestError) :
    ∀ c ∈ s.rejectChanges expecting e, c.Usual := by
  refine usual_answeredChanges ?_ _
  cases hcurrent : s.current with
  | none => exact .inr rfl
  | some r => exact h r (by simp [hcurrent])

theorem usual_startChanges (s : Session π) (head : RequestHead) (size : BodySize) :
    ∀ c ∈ s.startChanges head size, c.Usual := by
  unfold startChanges
  split <;> simp [Change.Usual]

theorem usual_eventChanges (h : t.session.Versioned) (event : RequestEvent) :
    ∀ c ∈ eventChanges service t event, c.Usual := by
  match event with
  | .head head size => exact usual_startChanges _ head size
  | .body (.chunk data) => exact List.forall_mem_nil _
  | .body .eof =>
    unfold eventChanges
    cases hcurrent : t.session.current with
    | none => exact List.forall_mem_nil _
    | some r => exact usual_dispatchChanges (h r (by simp [hcurrent]))

theorem Versioned.handleEvent (service : Service α π) (h : t.session.Versioned)
    {event : RequestEvent}
    (hevent : ∀ head size, event = .head head size →
      head.version = .v10 ∨ head.version = .v11) :
    (handleEvent service t event).session.Versioned := by
  match event with
  | .head head size =>
    obtain ⟨out, hstart⟩ := startRequest_reads t.session head size
    rw [Session.handleEvent, Turn.modify, hstart]
    rintro r ⟨⟩
    exact hevent head size rfl
  | .body (.chunk data) =>
    intro r hr
    obtain ⟨q, hq, rfl⟩ := Option.map_eq_some_iff.1 hr
    exact h q hq
  | .body .eof =>
    unfold Session.handleEvent
    cases t.session.current with
    | none => exact h
    | some r =>
      have hcurrent := (dispatch_keeps service (t.modify fun s => { s with current := none }) r).2
      exact fun q hq => absurd (hcurrent q hq) (Option.not_mem_none q)

theorem usual_processChanges (service : Service α π) (h : t.session.Versioned) (n : Nat) :
    (∀ c ∈ processChanges service n t, c.Usual) ∧
      (processEvents service n t).session.Versioned := by
  induction n generalizing t with
  | zero => exact ⟨List.forall_mem_nil _, h⟩
  | succ n ih =>
    unfold processChanges processEvents
    split
    · exact ⟨List.forall_mem_nil _, h⟩
    rcases hdecode : t.session.decoder.decode t.session.buffer with ⟨d, buffer, e | _ | event⟩
    · exact ⟨usual_rejectChanges (s := { t.session with decoder := d, buffer }) h _ e,
        fun r hr => absurd hr (Option.not_mem_none r)⟩
    · exact ⟨List.forall_mem_nil _, h⟩
    · have hbefore : (t.modify fun s => { s with decoder := d, buffer }).session.Versioned := h
      have hversion (head : RequestHead) (size : BodySize) (hhead : event = .head head size) :
          head.version = .v10 ∨ head.version = .v11 :=
        RequestDecoder.version_of_decode (hhead ▸ hdecode)
      obtain ⟨husual, hversioned⟩ := ih (hbefore.handleEvent service hversion)
      refine ⟨fun c hc => ?_, hversioned⟩
      rcases List.mem_append.1 hc with hc | hc
      · exact usual_eventChanges hbefore event c hc
      · exact husual c hc

end Within

section Calls

variable {service : Service α π} {socket : Net.Sender τ} {t : Turn α π} {s s' : Session π}
  {e : Event τ α π}

theorem usual_itemChanges (items : List Item) :
    ∀ c ∈ items.flatMap itemChanges, (c : Change π).Usual := fun c hc => by
  obtain ⟨slot, part, rfl⟩ := parts_itemChanges hc
  exact trivial

theorem usual_changes (h : t.session.Versioned) (he : e ≠ .stop) :
    ∀ c ∈ changes service t e, c.Usual := by
  cases e with
  | read src =>
    unfold changes readChanges
    dsimp only
    split
    · split
      · exact (usual_processChanges (t := t.modify fun s => { s with buffer := s.buffer ++ src })
          service h _).1
      · exact List.forall_mem_nil _
    · exact List.forall_mem_nil _
  | wakeup items => exact usual_itemChanges items
  | stop => exact absurd rfl he
  | _ => exact List.forall_mem_nil _

theorem Versioned.mono (h : s.Versioned) (hintake : s'.intake = s.intake) : s'.Versioned := by
  have hcurrent : s'.current = s.current := congrArg (·.2.2.2) hintake
  rwa [Versioned, hcurrent]

theorem Versioned.happen (h : t.session.Versioned) (socket : Net.Sender τ) (e : Event τ α π) :
    (happen service socket t e).session.Versioned := by
  cases e with
  | read src =>
    show (Session.read service t src).session.Versioned
    unfold Session.read
    dsimp only
    split
    · split
      · let kept := t.modify fun s => { s with buffer := s.buffer ++ src }
        have hevents := (usual_processChanges (t := kept) service h
          (2 * kept.session.buffer.length + 3)).2
        exact hevents.mono ((intake_arm _).trans (intake_flushFront _ _))
      · exact h
    · exact h
    · exact h
  | wakeup items => exact h.mono (intake_wakeup t items)
  | write io => exact h.mono (intake_write t socket io)
  | stop => exact h.mono (intake_stop t)
  | takeLeftover => exact h
  | outside ctx desk => exact h

theorem usual_run (service : Service α π) (socket : Net.Sender τ) {r : Record α π}
    (h : r.turn.session.Versioned) (hlog : ∀ c ∈ r.log, c.Usual)
    {es : List (Event τ α π)} (hstop : .stop ∉ es) :
    ∀ c ∈ (r.run service socket es).log, c.Usual := by
  induction es generalizing r with
  | nil => exact hlog
  | cons e es ih =>
    rw [List.mem_cons, not_or] at hstop
    refine ih (r := r.next service socket e) (h.happen socket e) (fun c hc => ?_) hstop.2
    rcases List.mem_append.1 hc with hc | hc
    · exact hlog c hc
    · exact usual_changes h (Ne.symm hstop.1) c hc

end Calls

end Session

/-! ### The response to a request -/

/-- The part that an input is, if it is one. -/
def Pending.Input.part? : Pending.Input → Option Part
  | .part given => some given
  | .last => none

theorem Pending.foldl_take {p : Pending π} {inputs : List Pending.Input} (h : .last ∉ inputs) :
    inputs.foldl Pending.take p =
      (inputs.filterMap Pending.Input.part?).foldl Pending.accept p := by
  induction inputs generalizing p with
  | nil => rfl
  | cons input inputs ih =>
    rw [List.mem_cons, not_or] at h
    cases input with
    | part given =>
      exact ih (p := p.take (.part given)) h.2
    | last => exact absurd rfl h.1

namespace Session

namespace Log

variable {log : Log π} {p q : Pending π} {slot : Nat}

/-- The parts that came for a slot. -/
def parts (slot : Nat) (log : Log π) : List Part :=
  (heard slot log).filterMap Pending.Input.part?

theorem told_of_mem_told {input : Pending.Input} (h : input ∈ told slot log) :
    .told slot input ∈ log := by
  induction log with
  | nil => cases h
  | cons c log ih =>
    cases c with
    | told other input' =>
      rw [told] at h
      split at h
      · rename_i hslot
        rcases List.mem_cons.1 h with rfl | h
        · exact hslot ▸ List.mem_cons_self
        · exact List.mem_cons_of_mem _ (ih h)
      · exact List.mem_cons_of_mem _ (ih h)
    | admitted p => exact List.mem_cons_of_mem _ (ih h)
    | interim => exact List.mem_cons_of_mem _ (ih h)

theorem told_of_mem_heard {input : Pending.Input} (h : input ∈ heard slot log) :
    .told slot input ∈ log := by
  induction log with
  | nil => cases h
  | cons c log ih =>
    cases c with
    | admitted p =>
      rw [heard] at h
      split at h
      · exact List.mem_cons_of_mem _ (told_of_mem_told h)
      · exact List.mem_cons_of_mem _ (ih h)
    | told other input' => exact List.mem_cons_of_mem _ (ih h)
    | interim => exact List.mem_cons_of_mem _ (ih h)

theorem answer_mem_arrivals (h : .admitted p ∈ log) : .answer p ∈ arrivals log := by
  induction log with
  | nil => cases h
  | cons c log ih =>
    rcases List.mem_cons.1 h with rfl | hlater
    · exact List.mem_cons_self
    · cases c with
      | admitted q => exact List.mem_cons_of_mem _ (ih hlater)
      | told slot input => exact ih hlater
      | interim => exact List.mem_cons_of_mem _ (ih hlater)

/-- The place of a response, when it heard all that it did. -/
theorem place_eq (hslots : (slots log).Nodup) (hadmitted : .admitted q ∈ log)
    (hplace : .answer p ∈ places log) (hslot : p.slot = q.slot) :
    p = (heard q.slot log).foldl Pending.take q := by
  rw [places_eq_map log hslots] at hplace
  obtain ⟨b, hb, hhear⟩ := List.mem_map.1 hplace
  cases b with
  | interim => cases hhear
  | answer q' =>
    cases hhear
    rw [Pending.foldl_take_slot] at hslot
    -- no two responses got the same slot
    obtain rfl : q' = q := by
      rw [slots, Place.filterMap_slot?] at hslots
      have harrived := answer_mem_arrivals hadmitted
      exact List.inj_on_of_nodup_map hslots (List.mem_filterMap.2 ⟨_, hb, rfl⟩)
        (List.mem_filterMap.2 ⟨_, harrived, rfl⟩) hslot
    rfl

end Log

end Session

namespace Draft

variable {d : Draft π}

theorem complete_of_view (h : d.view.isComplete) : d.complete := by
  simp only [Pending.isComplete, view, stage] at h
  split at h
  · assumption
  · split at h
    · simp at h
    · split at h <;> simp at h

/-- The bytes of a response are its head and what belongs behind it. -/
theorem toBytes_view {head : Bytes} {payload : List Bytes}
    (h : d.out = .head head :: payload.map .payload) :
    d.view.out.toBytes = head ++ payload.flatten := by
  simp [view, h, Net.Chain.ofList, Net.Chain.toBytes, Segment.bytes, Function.comp_def]

end Draft

namespace Session

open Place (closing)
open ResponseHead (persists)

/-- As long as the server does not stop, a response in line is what the parts for it make. -/
theorem place_eq_view {service : Service α π} {socket : Net.Sender τ} (hsocket : socket.Honest)
    {ctx : Context π} {desk : Desk α} {es : List (Event τ α π)} (hstop : .stop ∉ es) {slot : Nat}
    {q : RequestHead} {keepAlive : Bool} {p : Pending π} {log : Log π}
    (hlog : log = ((Record.fresh service ctx desk).run service socket es).log)
    (hadmitted : .admitted (Pending.ofRequest slot q keepAlive) ∈ log)
    (hplace : .answer p ∈ log.places) (hslot : p.slot = slot) :
    (q.version = .v10 ∨ q.version = .v11) ∧
      p = ((Draft.ofRequest slot q keepAlive).run (log.parts slot)).view := by
  have husual : ∀ c ∈ log, c.Usual := hlog ▸ usual_run service socket
    (r := Record.fresh service ctx desk) nofun (List.forall_mem_nil _) hstop
  have hslots : log.slots.Nodup :=
    hlog ▸ (inOrder_run hsocket service ctx desk es).sound.rising.nodup
  have hversion : q.version = .v10 ∨ q.version = .v11 := husual _ hadmitted
  have hlast : .last ∉ log.heard slot := fun hlast => husual _ (Log.told_of_mem_heard hlast)
  refine ⟨hversion, ?_⟩
  rw [Draft.view_run (Draft.stands_ofRequest slot q keepAlive) hversion, Log.parts,
    ← Pending.foldl_take hlast]
  exact Log.place_eq hslots hadmitted hplace hslot

/-- The connection stays open behind a response just when the response announces it. Whatever the
request is, and whatever `Connection` fields the application puts into heads that do not switch
protocols, the response goes by what its head says, once that is out, unless an abort cuts it short
behind its head. In a session that is not stopped, the response in line is the one that its parts
make. Once it is complete and all places in front of it are done, a half-close is asked for if it
announced the end, or if a response does that is shown behind it; where it announced the end, the
line is empty and the half-close has been asked for when everything is sent, and else the places
behind it are shown. -/
theorem persists_as_announced (slot : Nat) (q : RequestHead) (keepAlive : Bool) (parts : List Part)
    (hplain : (Draft.ofRequest slot q keepAlive : Draft π).Plain parts) :
    let d : Draft π := (Draft.ofRequest slot q keepAlive).run parts
    (∀ head, .head head ∈ d.out → d.keepAlive = persists q.version head) ∧
    ∀ (service : Service α π) (socket : Net.Sender τ) (ctx : Context π) (desk : Desk α)
      (es : List (Event τ α π)), socket.Honest → Undisturbed ctx es →
      let fresh := Record.fresh service ctx desk
      let r := fresh.run service socket es
      .admitted (Pending.ofRequest slot q keepAlive) ∈ r.log → r.log.parts slot = parts →
      ∀ done p rest, r.log.places = done ++ .answer p :: rest → p.slot = slot →
        (∀ b ∈ done, b.passes) → p = d.view ∧
          (p.isComplete → ∃ (head : Bytes) (payload : List Bytes),
            d.out = .head head :: payload.map .payload ∧
            (HalfCloses service socket fresh es ↔
              persists q.version head = false ∨ closing rest) ∧
            (persists q.version head = false → r.turn.session.pending = [] ∧
              ∀ io, (write r.turn socket io).2.2 = .ok .flushed →
                asks service socket fresh (es ++ [.write io]) = true) ∧
            r.moved = done.flatMap Place.bytes ++ (head ++ payload.flatten) ++
              if persists q.version head then (Place.shown rest).flatMap Place.bytes else []) := by
  intro d
  have hagrees : ∀ head, .head head ∈ d.out → d.keepAlive = persists q.version head :=
    fun head hhead => (Draft.persists_run slot q keepAlive hplain head hhead).symm
  refine ⟨hagrees, ?_⟩
  rintro service socket ctx desk es hsocket hundisturbed fresh r hadmitted rfl done p rest hplaces
    hslot hdone
  have hrun : r.turn.session.InOrder r.log r.sent := inOrder_run hsocket service ctx desk es
  obtain ⟨hversion, hview⟩ := place_eq_view hsocket hundisturbed.unstopped
    (show r.log = _ from rfl) hadmitted (p := p) (by rw [hplaces]; simp) hslot
  refine ⟨hview, fun hcomplete => ?_⟩
  obtain ⟨head, payload, hout⟩ := (Draft.stands_run (Draft.stands_ofRequest slot q keepAlive)
    hversion (r.log.parts slot)).1.headed (Draft.complete_of_view (hview ▸ hcomplete))
  have hkeep : p.keepAlive = persists q.version head := by
    rw [hview]
    exact hagrees head (hout ▸ List.mem_cons_self)
  have hsuccessor : p.successor = none := by
    rw [hview]
    exact congrArg (fun asked => asked.2.2.2.2)
      (Draft.run_asked (Draft.ofRequest slot q keepAlive : Draft π) (r.log.parts slot))
  have hpasses : (Place.answer p).passes = persists q.version head := by
    simp [Place.passes, Pending.passes, hcomplete, hsuccessor, hkeep]
  have hcloses : (Place.answer p).closes = !persists q.version head := by
    simp [Place.closes, hcomplete, hsuccessor, hkeep]
  have hhalf : HalfCloses service socket fresh es ↔
      persists q.version head = false ∨ closing rest := by
    rw [halfCloses_iff service hsocket desk hundisturbed, hplaces, Place.closing_append hdone,
      Place.closing_cons, hcloses, hpasses]
    cases persists q.version head <;> simp
  refine ⟨head, payload, hout, hhalf, fun hends => ⟨?_, fun io hflushed => ?_⟩, ?_⟩
  · have hfinal : p.isFinal := Pending.isFinal_iff.2 ⟨hcomplete, hpasses.trans hends⟩
    obtain ⟨_, _, hover⟩ := hrun.over hplaces hdone hfinal
    exact hover.ended.empty
  · exact asks_of_flushed hsocket hundisturbed (hhalf.2 (.inl hends)) hflushed
  · have hbytes : (Place.answer p).bytes = head ++ payload.flatten := by
      rw [hview]
      exact Draft.toBytes_view hout
    rw [Record.moved, hrun.shown, hplaces, Place.shown_append hdone, Place.shown, hpasses,
      List.flatMap_append, List.flatMap_cons, hbytes, ← List.append_assoc]
    cases persists q.version head <;> rfl

/-- An old client that asks for the connection to stay open, and sends another request at once. -/
def keepingGet : RequestHead :=
  ⟨Bytes.ofString "GET", { pathPart := [0x2F] }, .v10,
    .ofList [(fieldName "connection", Bytes.ofString "keep-alive")]⟩

def keepingText : Bytes :=
  Bytes.ofString "GET / HTTP/1.0\r\nConnection: keep-alive\r\n\r\nGET / HTTP/1.1\r\n\r\n"

/-- The end is announced in the second of two fields. -/
def endingResponse : Response where
  head := { fields := .ofList [(Bytes.ofString "Connection", Bytes.ofString "te"),
    (Bytes.ofString "connection", Bytes.ofString "x, CLOSE")] }

def endsEarly : List (Event Net.MemorySocket Unit Unit) :=
  [.read keepingText,
    .wakeup [.answer 1 (.full (.empty 200)), .answer 0 (.full endingResponse)], .write {}]

theorem plain_endingResponse :
    (Draft.ofRequest 0 keepingGet true : Draft Unit).Plain [.full endingResponse] where
  ordinary part hpart := by
    obtain rfl : part = .full endingResponse := by
      simpa using (Draft.accepted_sublist _ _).mem hpart
    exact ⟨by decide, by decide +kernel, by decide +kernel, by decide +kernel⟩
  uncut front back hparts := by
    rcases front with _ | ⟨part, front⟩ <;> simp at hparts

/-- The answer that came first waits in line, and is dropped with the one in front of it. -/
theorem persists_as_announced_ends :
    let fresh := Record.fresh deferring {} { app := () }
    let r := fresh.run deferring Net.MemorySocket.socket.toSender endsEarly
    let d : Draft Unit := (Draft.ofRequest 0 keepingGet true).run [.full endingResponse]
    (Draft.ofRequest 0 keepingGet true : Draft Unit).Plain [.full endingResponse] ∧
      Undisturbed (π := Unit) {} endsEarly ∧ r.log.places.length = 2 ∧
      HalfCloses deferring Net.MemorySocket.socket.toSender fresh endsEarly ∧
      ∃ head, d.out = [.head head] ∧ r.moved = head := by
  intro fresh r d
  have hundisturbed : Undisturbed (π := Unit) {} endsEarly :=
    ⟨by simp [endsEarly], rfl, by simp [endsEarly]⟩
  have hlog : r.log = [.admitted (Pending.ofRequest 0 keepingGet true),
      .admitted (waitingAt 1 true), .told 1 (.part (.full (.empty 200))),
      .told 0 (.part (.full endingResponse))] := by decide +kernel
  have hplaces : r.log.places = [] ++
      .answer ((Pending.ofRequest 0 keepingGet true).accept (.full endingResponse)) ::
        [.answer ((waitingAt 1 true).accept (.full (.empty 200)))] := by
    rw [hlog]
    rfl
  obtain ⟨hagrees, hsessions⟩ := persists_as_announced (α := Unit) (τ := Net.MemorySocket) 0
    keepingGet true [.full endingResponse] plain_endingResponse
  obtain ⟨-, hcomplete⟩ := hsessions deferring Net.MemorySocket.socket.toSender {} { app := () }
    endsEarly Net.MemorySocket.honest hundisturbed (by rw [hlog]; simp) (by rw [hlog]; rfl)
    [] _ _ hplaces rfl (by simp)
  obtain ⟨head, payload, hout, hhalf, -, hmoved⟩ := hcomplete (by decide +kernel)
  have hends : persists keepingGet.version head = false := by
    rw [← hagrees head (hout ▸ List.mem_cons_self)]
    decide +kernel
  have halone : d.out.length = 1 := by decide +kernel
  rw [show d.out = .head head :: payload.map .payload from hout] at halone
  obtain rfl : payload = [] := by simpa using halone
  have htwo : r.log.places.length = 2 := by
    rw [hplaces]
    rfl
  exact ⟨plain_endingResponse, hundisturbed, htwo, hhalf.2 (.inl hends), head, hout,
    by simpa [hends] using hmoved⟩

end Session

end WireServer.Http
