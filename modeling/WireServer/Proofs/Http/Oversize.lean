import WireServer.Proofs.Http.Framing
import WireServer.Proofs.Http.Intake

/-! Requests over the limit. A body that is announced with too great a length, or that grows past
the limit, never comes to the handler: an error response gets in line behind all others, what is
left of the input is thrown away, and no request is taken any more. -/

namespace WireServer.Http.Session

variable {α π τ : Type}

/-! ### What the handler is called with -/

section Handler

variable {service : Service α π} {handler : α → Request → Program α} {t : Turn α π}

/-- Two handlers that agree on a request make the same of it. -/
theorem dispatch_congr {q : Request} (h : ∀ app, handler app q = service.handler app q) :
    dispatch { service with handler } t q = dispatch service t q := by
  have hserve (u : Turn α π) (p : Pending π) :
      serve { service with handler } u p q = serve service u p q := by
    simp only [serve, callHandler, h]
  simp only [dispatch, hserve]
  rfl

theorem handleEvent_congr {event : RequestEvent}
    (h : ∀ q ∈ eventRequests t event, ∀ app, handler app q = service.handler app q) :
    handleEvent { service with handler } t event = handleEvent service t event := by
  match event with
  | .head head size => rfl
  | .body (.chunk data) => rfl
  | .body .eof =>
    unfold handleEvent
    rcases hcurrent : t.session.current with _ | q
    · rfl
    · exact dispatch_congr (h q (by simp [eventRequests, hcurrent]))

theorem processEvents_congr {n : Nat}
    (h : ∀ q ∈ processRequests service n t, ∀ app, handler app q = service.handler app q) :
    processEvents { service with handler } n t = processEvents service n t := by
  induction n generalizing t with
  | zero => rfl
  | succ n ih =>
    unfold processEvents
    unfold processRequests at h
    split
    · rfl
    rename_i htakes
    rw [if_neg htakes] at h
    rcases hdecode : t.session.decoder.decode t.session.buffer with ⟨d, buffer, e | _ | event⟩
    · rfl
    · rfl
    · simp only [hdecode, List.mem_append] at h
      dsimp only
      rw [handleEvent_congr fun q hq => h q (.inl hq)]
      exact ih fun q hq => h q (.inr hq)

theorem read_congr {src : Bytes}
    (h : ∀ q ∈ readRequests service t src, ∀ app, handler app q = service.handler app q) :
    read { service with handler } t src = read service t src := by
  unfold read
  unfold readRequests at h
  cases hmode : t.session.mode with
  | serving =>
    dsimp only
    split
    · rename_i haccepting
      simp only [hmode, haccepting, if_true] at h
      simp only [process, processEvents_congr h]
    · rfl
  | upgrading => rfl
  | failed => rfl

end Handler

/-! ### What is dispatched in a run -/

section Runs

variable {service : Service α π} {socket : Net.Sender τ} {r : Record α π} {t : Turn α π}

/-- The requests that are dispatched while events happen. -/
def dispatched (service : Service α π) (socket : Net.Sender τ) : Turn α π → List (Event τ α π) →
    List Request
  | _, [] => []
  | t, .read src :: es =>
    readRequests service t src ++ dispatched service socket (read service t src) es
  | t, e :: es => dispatched service socket (happen service socket t e) es

theorem readRequests_le (h : t.session.Bounded service.maxBody) (src : Bytes) :
    ∀ q ∈ readRequests service t src, q.body.length ≤ service.maxBody := by
  have hmetered : t.session.Takes → t.session.Metered service.maxBody := fun ht => (h ht).1
  unfold readRequests
  cases t.session.mode with
  | serving =>
    dsimp only
    split
    · exact processRequests_le (t := t.modify fun s => { s with buffer := s.buffer ++ src })
        hmetered _
    · nofun
  | upgrading => nofun
  | failed => nofun

theorem dispatched_le (socket : Net.Sender τ) (h : t.session.Bounded service.maxBody)
    (es : List (Event τ α π)) :
    ∀ q ∈ dispatched service socket t es, q.body.length ≤ service.maxBody := by
  induction es generalizing t with
  | nil => nofun
  | cons e es ih =>
    have hrest := ih (h.happen socket e)
    cases e with
    | read src =>
      intro q hq
      rcases List.mem_append.1 hq with hq | hq
      · exact readRequests_le h src q hq
      · exact hrest q hq
    | _ => exact hrest

/-- A session does not depend on what its handler makes of requests over the limit. -/
theorem run_congr {handler : α → Request → Program α}
    (hsame : ∀ app q, q.body.length ≤ service.maxBody → handler app q = service.handler app q)
    {r' : Record α π} (hturn : r'.turn = r.turn) (hsent : r'.sent = r.sent)
    (h : r.turn.session.Bounded service.maxBody) (es : List (Event τ α π)) :
    (r'.run { service with handler } socket es).turn = (r.run service socket es).turn ∧
      (r'.run { service with handler } socket es).sent = (r.run service socket es).sent := by
  induction es generalizing r r' with
  | nil => exact ⟨hturn, hsent⟩
  | cons e es ih =>
    have hstep : happen { service with handler } socket r.turn e =
        happen service socket r.turn e := by
      cases e with
      | read src => exact read_congr fun q hq app => hsame app q (readRequests_le h src q hq)
      | _ => rfl
    refine ih ?_ ?_ (h.happen socket e)
    · simp only [Record.next, hturn, hstep]
    · simp only [Record.next, hturn, hsent]

end Runs

/-! ### Refusals -/

section Refusals

variable {service : Service α π} {socket : Net.Sender τ} {r : Record α π} {t u : Turn α π}
  {src : Bytes} {limit n : Nat}

/-- The request at hand is over the limit: `n` bytes are announced for its body, be it a number of
64 bits or not, or that many have come in with the next piece. -/
inductive Exceeds (limit : Nat) (s : Session π) : Nat → Prop
  | announced {parts : HeadGrammar.Parts} {rest value : Bytes} {others : List Bytes} {n : Nat} :
      s.decoder.body = none → HeadDecoder.Reads s.buffer parts rest →
      parts.values contentLength = value :: others → SpellsSigned (trim isBlank value) n →
      limit < n → Exceeds limit s n
  | received {b b' : BodyDecoder} {data rest : Bytes} {q : Request} : s.decoder.body = some b →
      b.decode s.buffer = (b', rest, .ok (some (.chunk data))) → s.current = some q →
      limit < q.body.length + data.length → Exceeds limit s (q.body.length + data.length)

/-- What is said of a request over the limit: that its body is too large, or that its length cannot
be taken. -/
def Condemns (n limit : Nat) (e : RequestError) : Prop :=
  e = .bodyTooLarge n limit ∨ ∃ reason, e = .invalidContentLength reason

/-- A length that is too great for the decoder, or that stands beside a coding, is refused with the
head. -/
theorem decodeHead_of_announced {d : RequestDecoder} {parts : HeadGrammar.Parts}
    {rest value : Bytes} {others : List Bytes} (hreads : HeadDecoder.Reads src parts rest)
    (hvalues : parts.values contentLength = value :: others)
    (hspells : SpellsSigned (trim isBlank value) n) (hover : d.maxBody < n) :
    ∃ e, Condemns n d.maxBody e ∧ d.decodeHead src = (d, rest, .error e) := by
  have hrefused {e : RequestError} (h : HeadDecoder.decode src = (rest, .error e)) :
      d.decodeHead src = (d, rest, .error e) := by
    simp only [RequestDecoder.decodeHead, h]
  by_cases hcoding : parts.values transferEncoding = []
  · obtain ⟨hframes, hno⟩ := hreads.length hcoding hvalues
    by_cases hword : n < 2 ^ 64
    · obtain ⟨head, hdecode⟩ := (hframes _).2 ⟨n, hword, hspells, rfl⟩
      have hsize : BodySize.ofLength n = .length n := if_neg (by omega)
      refine ⟨_, .inl rfl, ?_⟩
      simp only [RequestDecoder.decodeHead, hdecode, hsize, RequestDecoder.overLimit, gt_iff_lt,
        hover, if_true]
    · obtain ⟨reason, hdecode⟩ := hno fun size hsize => by
        obtain ⟨m, hm, hspells', -⟩ := (hframes size).1 hsize
        exact hword (hspells.unique hspells' ▸ hm)
      exact ⟨_, .inr ⟨reason, rfl⟩, hrefused hdecode⟩
  · have hboth := hreads.both (hvalues ▸ List.cons_ne_nil _ _) hcoding
    exact ⟨_, .inr ⟨_, rfl⟩, hrefused hboth⟩

theorem decode_of_exceeds {s : Session π} (hmetered : s.Metered limit) (h : s.Exceeds limit n) :
    ∃ d rest e, Condemns n limit e ∧ s.decoder.decode s.buffer = (d, rest, .error e) := by
  obtain ⟨buffer, decoder, current⟩ := s
  dsimp only [Metered] at hmetered
  cases h with
  | announced hbody hreads hvalues hspells hover =>
    dsimp only at hbody hreads
    cases hmetered with
    | within => cases hbody
    | between received =>
      obtain ⟨e, he, hdecode⟩ := decodeHead_of_announced
        (d := { maxBody := limit, body := none, received }) hreads hvalues hspells hover
      exact ⟨_, _, e, he, hdecode⟩
  | @received b b' data rest q hbody hdecode hcurrent hover =>
    dsimp only at hbody hdecode hcurrent
    cases hmetered with
    | between => cases hbody
    | within q' =>
      cases hbody
      cases hcurrent
      refine ⟨{ maxBody := limit, body := some b', received := q.body.length + data.length },
        rest, _, .inl rfl, ?_⟩
      simp only [RequestDecoder.decode, RequestDecoder.decodeBody, hdecode, gt_iff_lt, hover,
        if_true]

/-- Where the decoder answers with an error, the processing is at its end. -/
theorem process_last {d : RequestDecoder} {buffer : Bytes} {e : RequestError}
    (hu : u ∈ processMoments service n t)
    (hdecode : u.session.decoder.decode u.session.buffer = (d, buffer, .error e)) :
    (∃ before, processMoments service n t = before ++ [u]) ∧
      processEvents service n t = u.modify (fun s =>
        { s with decoder := d, buffer }.rejectRequest u.session.expecting e) ∧
      ∃ front, processChanges service n t = front ++
        { u.session with decoder := d, buffer }.rejectChanges u.session.expecting e := by
  induction n generalizing t with
  | zero => cases hu
  | succ n ih =>
    unfold processMoments at hu ⊢
    unfold processEvents processChanges
    split at hu
    · cases hu
    rename_i htakes
    simp only [if_neg htakes]
    rcases hnext : t.session.decoder.decode t.session.buffer with ⟨d', buffer', e' | _ | event⟩
    · simp only [hnext, List.mem_singleton] at hu
      subst hu
      cases hnext.symm.trans hdecode
      exact ⟨⟨[], rfl⟩, rfl, [], rfl⟩
    · simp only [hnext, List.mem_singleton] at hu
      subst hu
      cases hnext.symm.trans hdecode
    · simp only [hnext, List.mem_cons] at hu
      obtain rfl | hu := hu
      · cases hnext.symm.trans hdecode
      · obtain ⟨⟨before, hbefore⟩, hevents, front, hchanges⟩ := ih hu
        exact ⟨⟨t :: before, congrArg (t :: ·) hbefore⟩, hevents, _ ++ front,
          (congrArg (_ ++ ·) hchanges).trans (List.append_assoc ..).symm⟩

/-- The turns of a read are those of the processing behind it. -/
theorem takes_of_mem_readMoments (hu : u ∈ readMoments service t src) : t.session.Takes := by
  unfold readMoments at hu
  cases hmode : t.session.mode with
  | serving =>
    simp only [hmode] at hu
    split at hu
    · rename_i haccepting
      exact ⟨hmode, haccepting⟩
    · cases hu
  | upgrading => simp [hmode] at hu
  | failed => simp [hmode] at hu

theorem metered_of_mem_readMoments (h : t.session.Bounded service.maxBody)
    (hu : u ∈ readMoments service t src) : u.session.Metered service.maxBody := by
  have ht := takes_of_mem_readMoments hu
  have hmetered : t.session.Metered service.maxBody := (h ht).1
  simp only [readMoments, ht.1, ht.2, if_true] at hu
  exact metered_of_mem (t := t.modify fun s => { s with buffer := s.buffer ++ src })
    (fun _ => hmetered) hu

open RequestDecoder (versionOf) in
/-- A request over the limit ends its read: an error response gets in line, and what is left of the
input is thrown away. -/
theorem read_refuses (h : t.session.Bounded service.maxBody)
    (hu : u ∈ readMoments service t src) (hover : u.session.Exceeds service.maxBody n) :
    (∃ before, readMoments service t src = before ++ [u] ∧
      readRequests service t src = before.flatMap momentRequests) ∧
    ∃ d e, Condemns n service.maxBody e ∧
      read service t src = arm (u.modify fun s =>
        ({ s with decoder := d }.fail (versionOf s.current) (e.status s.expecting)).flushReady) ∧
      ∃ front, readChanges service t src = front ++
        failChanges u.session.nextSlot (versionOf u.session.current)
          (e.status u.session.expecting) := by
  have ht := takes_of_mem_readMoments hu
  obtain ⟨d, rest, e, he, hdecode⟩ := decode_of_exceeds (metered_of_mem_readMoments h hu) hover
  simp only [readMoments, readRequests, Session.read, readChanges, ht.1, ht.2, if_true] at hu ⊢
  obtain ⟨⟨before, hbefore⟩, hevents, front, hchanges⟩ := process_last hu hdecode
  refine ⟨⟨before, hbefore, ?_⟩, d, e, he, ?_, front, hchanges⟩
  · rw [processRequests_eq, hbefore, List.flatMap_append]
    simp [momentRequests, hdecode]
  · rw [process, hevents]
    rfl

/-! ### Behind a refusal -/

theorem failed_happen (service : Service α π) (socket : Net.Sender τ)
    (h : t.session.mode = .failed) (e : Event τ α π) :
    (happen service socket t e).session.mode = .failed := by
  have hkept {t' : Turn α π} (hintake : t'.session.intake = t.session.intake) :
      t'.session.mode = .failed := (congrArg Prod.fst hintake).trans h
  cases e with
  | read src => simp only [happen, Session.read, h]
  | wakeup items => exact hkept (intake_wakeup t items)
  | write io => exact hkept (intake_write t socket io)
  | stop => exact hkept (intake_stop t)
  | takeLeftover => exact h
  | outside ctx desk => exact h

/-- A session that has failed gives no request a place in line, nor an interim response. -/
theorem arrivals_of_failed (h : t.session.mode = .failed) (e : Event τ α π) :
    (changes service t e).arrivals = [] := by
  have htold (items : List Item) : Log.arrivals (π := π) (items.flatMap itemChanges) = [] := by
    induction items with
    | nil => rfl
    | cons item items ih =>
      rw [List.flatMap_cons, Log.arrivals_append, ih]
      cases item <;> rfl
  cases e with
  | read src => simp only [changes, readChanges, h]; rfl
  | wakeup items => exact htold items
  | stop =>
    simp only [changes, stopChanges, lastChanges]
    split
    · rfl
    split
    · rfl
    · split <;> rfl
  | _ => rfl

theorem readRequests_of_failed (h : t.session.mode = .failed) (src : Bytes) :
    readRequests service t src = [] := by
  simp only [readRequests, h]

theorem dispatched_of_failed (h : t.session.mode = .failed) (es : List (Event τ α π)) :
    dispatched service socket t es = [] := by
  induction es generalizing t with
  | nil => rfl
  | cons e es ih =>
    have hrest := ih (failed_happen service socket h e)
    cases e with
    | read src =>
      rw [dispatched, readRequests_of_failed h]
      exact hrest
    | _ => exact hrest

theorem failed_run (service : Service α π) (socket : Net.Sender τ)
    (h : r.turn.session.mode = .failed) (es : List (Event τ α π)) :
    (r.run service socket es).turn.session.mode = .failed ∧
      (r.run service socket es).log.arrivals = r.log.arrivals := by
  induction es generalizing r with
  | nil => exact ⟨h, rfl⟩
  | cons e es ih =>
    obtain ⟨hmode, harrivals⟩ :=
      ih (r := r.next service socket e) (failed_happen service socket h e)
    refine ⟨hmode, harrivals.trans ?_⟩
    rw [Record.next, Log.arrivals_append, arrivals_of_failed h, List.append_nil]

end Refusals

open RequestDecoder (versionOf) in
/-- The memory that input takes is bounded. While a session takes requests, its buffer holds no more
than a head may have, and the body that is read keeps to the limit. No longer body comes to the
handler: none is dispatched, and what the handler would make of it is of no account. Where more is
announced, or more comes in, the read ends with an error response that is the last in line: the
request and the rest of the input are dropped, and whatever happens then, nothing is dispatched and
nothing gets in line any more. -/
theorem input_bounded (service : Service α π) (socket : Net.Sender τ) (ctx : Context π)
    (desk : Desk α) (es : List (Event τ α π)) :
    ∀ r, r = (Record.fresh service ctx desk).run service socket es →
      (r.turn.session.mode = .serving → r.turn.session.accepting = true →
        r.turn.session.buffer.length ≤ 8192 ∧
          ∀ q ∈ r.turn.session.current, q.body.length ≤ service.maxBody) ∧
      (∀ q ∈ dispatched service socket ⟨ctx, new service, desk⟩ es,
        q.body.length ≤ service.maxBody) ∧
      (∀ handler : α → Request → Program α,
        (∀ app q, q.body.length ≤ service.maxBody → handler app q = service.handler app q) →
        ∀ r', r' = (Record.fresh { service with handler } ctx desk).run { service with handler }
          socket es → r'.turn = r.turn ∧ r'.sent = r.sent) ∧
      (∀ src u n, u ∈ readMoments service r.turn src → u.session.Exceeds service.maxBody n →
        (∃ before, readMoments service r.turn src = before ++ [u] ∧
          readRequests service r.turn src = before.flatMap momentRequests) ∧
        ∃ d e, Condemns n service.maxBody e ∧
          read service r.turn src = arm (u.modify fun s =>
            ({ s with decoder := d }.fail (versionOf s.current)
              (e.status s.expecting)).flushReady) ∧
          (∃ front, readChanges service r.turn src = front ++
            failChanges u.session.nextSlot (versionOf u.session.current)
              (e.status u.session.expecting)) ∧
          (read service r.turn src).session.current = none ∧
          (read service r.turn src).session.buffer = [] ∧
          ∀ more : List (Event τ α π),
            (r.run service socket (.read src :: more)).turn.session.mode = .failed ∧
            dispatched service socket (read service r.turn src) more = [] ∧
            (r.run service socket (.read src :: more)).log.arrivals =
              (r.next service socket (.read src)).log.arrivals) := by
  intro r hr
  have hfresh := bounded_fresh service ctx desk
  have hbounded : r.turn.session.Bounded service.maxBody := hr ▸ bounded_run socket hfresh es
  refine ⟨fun hmode haccepting => ?_, dispatched_le socket hfresh es, ?_, ?_⟩
  · obtain ⟨hmeters, hle⟩ := hbounded ⟨hmode, haccepting⟩
    exact ⟨hle, RequestDecoder.Meters.body_le hmeters⟩
  · rintro handler hsame r' rfl
    rw [hr]
    exact run_congr hsame rfl rfl hfresh es
  · intro src u n hu hover
    obtain ⟨hbefore, d, e, he, hread, hchanges⟩ := read_refuses hbounded hu hover
    have hintake : (read service r.turn src).session.intake = (.failed, [], d, none) := by
      rw [hread]
      exact (intake_arm _).trans (intake_flushFront _ _)
    simp only [intake, Prod.mk.injEq] at hintake
    obtain ⟨hmode, hbuffer, -, hcurrent⟩ := hintake
    refine ⟨hbefore, d, e, he, hread, hchanges, hcurrent, hbuffer, fun more => ?_⟩
    obtain ⟨hfailed, harrivals⟩ := failed_run service socket
      (r := r.next service socket (.read src)) hmode more
    exact ⟨hfailed, dispatched_of_failed hmode more, harrivals⟩

/-- Room for four bytes in a body. -/
def snug : Service Unit Unit := { nodding with maxBody := 4 }

def threeOfFive : List (Event Net.MemorySocket Unit Unit) :=
  [.read (bareText ++ Bytes.ofString
    "POST / HTTP/1.1\r\nTransfer-Encoding: chunked\r\n\r\n3\r\nabc\r\n")]

def twoMore : Bytes := Bytes.ofString "2\r\nde\r\n0\r\n\r\n"

/-- Fails on a request over the limit. -/
def touchy (app : Unit) (q : Request) : Program Unit :=
  if q.body.length ≤ 4 then snug.handler app q else .done app (.failed "too long")

/-- The first chunk fits, the second does not. -/
theorem input_bounded_second_chunk :
    let r := (Record.fresh snug {} { app := () }).run snug Net.MemorySocket.socket.toSender
      threeOfFive
    let u := r.turn.modify fun s => { s with buffer := twoMore }
    r.turn.session.mode = .serving ∧ r.turn.session.accepting = true ∧
      u ∈ readMoments snug r.turn twoMore ∧ u.session.Exceeds snug.maxBody 5 ∧
      (∀ q ∈ r.turn.session.current, q.body.length ≤ 4) ∧
      readRequests snug r.turn twoMore = [] ∧
      (∀ more : List (Event Net.MemorySocket Unit Unit),
        dispatched snug Net.MemorySocket.socket.toSender (read snug r.turn twoMore) more = []) ∧
      (∀ app q, q.body.length ≤ snug.maxBody → touchy app q = snug.handler app q) ∧
      ((Record.fresh { snug with handler := touchy } {} { app := () }).run
        { snug with handler := touchy } Net.MemorySocket.socket.toSender threeOfFive).turn =
          r.turn := by
  intro r u
  have hsame : ∀ app q, q.body.length ≤ snug.maxBody → touchy app q = snug.handler app q :=
    fun _ _ hle => if_pos hle
  obtain ⟨hmemory, -, hhandler, hrefuses⟩ := input_bounded snug Net.MemorySocket.socket.toSender {}
    { app := () } threeOfFive r rfl
  have hmode : r.turn.session.mode = .serving := by decide +kernel
  have haccepting : r.turn.session.accepting = true := by decide +kernel
  have hmoments : readMoments snug r.turn twoMore = [u] := by decide +kernel
  have hpiece : BodyDecoder.decode (.chunked {}) twoMore = (.chunked ⟨.dataCr, 0, true⟩,
      Bytes.ofString "\r\n0\r\n\r\n", .ok (some (.chunk (Bytes.ofString "de")))) := rfl
  have hbody : u.session.decoder.body = some (.chunked {}) := by decide +kernel
  have hthree : u.session.current.map (·.body.length) = some 3 := by decide +kernel
  obtain ⟨q, hcurrent, hlength⟩ := Option.map_eq_some_iff.1 hthree
  have hexceeds : u.session.Exceeds snug.maxBody 5 := by
    have hover : snug.maxBody < q.body.length + (Bytes.ofString "de").length := by
      rw [hlength]; decide
    have hpieces := Exceeds.received hbody hpiece hcurrent hover
    rwa [hlength] at hpieces
  have hmem : u ∈ readMoments snug r.turn twoMore := hmoments ▸ List.mem_singleton_self u
  obtain ⟨⟨before, hbefore, hrequests⟩, _, _, -, -, -, -, -, hlater⟩ :=
    hrefuses twoMore u 5 hmem hexceeds
  have hnone : before = [] := by
    have hlen := congrArg List.length (hmoments.symm.trans hbefore)
    simpa using hlen
  refine ⟨hmode, haccepting, hmem, hexceeds, (hmemory hmode haccepting).2, ?_,
    fun more => (hlater more).2.1, hsame, (hhandler touchy hsame _ rfl).1⟩
  rw [hrequests, hnone]
  rfl

end WireServer.Http.Session
