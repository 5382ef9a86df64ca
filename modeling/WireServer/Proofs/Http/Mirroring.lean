import WireServer.Proofs.Http.Drafting
import WireServer.Proofs.Http.SelfFraming

/-! Requests with HEAD beside the same requests with GET. The parts of an answer meet with the same
results, and what goes out for HEAD is the head that goes out for GET, but for one case: to an old
client the length of a body in pieces is told when all of it is there, and for HEAD none of it is
kept. -/

namespace WireServer.Http

/-! ### Lengths in a head -/

/-- Where the value of a field stands among the lines. -/
theorem Fields.exists_insert_lines (h : Fields) (name : Bytes) :
    ∃ (front : List (Bytes × Bytes)) (back : Bytes → List (Bytes × Bytes)), ∀ value,
      (h.insert name value).toList = front ++ (name, value) :: back value := by
  unfold insert
  split
  case isTrue hin =>
    obtain ⟨groups⟩ := h
    induction groups with
    | nil => simp [contains] at hin
    | cons g groups ih =>
      by_cases hname : g.1 == name
      · refine ⟨[], fun value => toList ⟨groups.map fun g =>
          if g.1 == name then (g.1, [value]) else g⟩, fun value => ?_⟩
        simp [toList, eq_of_beq hname]
      · obtain ⟨front, back, hlines⟩ := ih (by simpa [contains, hname] using hin)
        refine ⟨g.2.map (fun v => (g.1, v)) ++ front, back, fun value => ?_⟩
        have hvalue := hlines value
        simp only [toList] at hvalue
        simp only [toList, List.map_cons, hname, Bool.false_eq_true, if_false, List.flatMap_cons,
          hvalue, List.append_assoc]
  case isFalse =>
    exact ⟨h.toList, fun _ => [], fun value => by simp [toList]⟩

namespace ResponseHead

variable {r : ResponseHead}

/-- Where the length stands in the bytes of a head. -/
theorem exists_wire_ofLength (hallows : r.status.allowsBody) :
    ∃ (front : Bytes) (back : Nat → Bytes), ∀ n, r.wire (.ofLength n) =
      front ++ (Bytes.ofString (toString n) ++ 0x0D :: back n) := by
  obtain ⟨front, back, hlines⟩ := Fields.exists_insert_lines
    (r.fields.remove transferEncoding) contentLength
  refine ⟨statusLine r.version r.status ++ (front.map fieldLine).flatten ++
      (contentLength ++ [0x3A, 0x20]),
    fun n => 0x0A :: (((back (Bytes.ofString (toString n))).map fieldLine).flatten ++ [0x0D, 0x0A]),
    fun n => ?_⟩
  rw [wire, framed_ofLength hallows, hlines]
  simp only [fieldLine, List.map_append, List.map_cons, List.flatten_append, List.flatten_cons,
    List.append_assoc, List.cons_append, List.nil_append]

/-- Heads that announce different lengths are different. -/
theorem wire_ofLength_inj (hallows : r.status.allowsBody) {n m : Nat} :
    r.wire (.ofLength n) = r.wire (.ofLength m) ↔ n = m := by
  refine ⟨fun h => ?_, fun h => by rw [h]⟩
  obtain ⟨front, back, hwire⟩ := exists_wire_ofLength hallows
  have hdigits (n : Nat) (rest : Bytes) :
      (Bytes.ofString (toString n) ++ 0x0D :: rest).takeWhile isDigit =
        Bytes.ofString (toString n) := by
    rw [List.takeWhile_append_of_pos (spells_toString n).2.1]
    exact List.append_nil _
  rw [hwire, hwire] at h
  have hvalues := congrArg (List.takeWhile isDigit) (List.append_cancel_left h)
  rw [hdigits, hdigits] at hvalues
  exact (spells_toString n).unique (hvalues ▸ spells_toString m)

end ResponseHead

namespace Draft

variable {π : Type} {d e g h : Draft π} {parts : List Part} {part : Part}

/-- The response to the same request with HEAD: nothing of a body is kept, and heads alone go
out. -/
def mirror (d : Draft π) : Draft π :=
  { d with
    headOnly := true
    sendsBody := !d.started
    body := []
    out := d.out.filter Segment.isHead }

def Step.mirror (step : Step π) : Step π := (step.1.mirror, step.2)

section Mirror

variable (d : Draft π)

@[simp] theorem mirror_started : d.mirror.started = d.started := rfl

@[simp] theorem mirror_acceptsChunked : d.mirror.acceptsChunked = d.acceptsChunked := rfl

@[simp] theorem mirror_head : d.mirror.head = d.head := rfl

@[simp] theorem mirror_body : d.mirror.body = [] := rfl

theorem mirror_push_head (bs : Bytes) : (d.push (.head bs)).mirror = d.mirror.push (.head bs) := by
  simp [mirror, push, Segment.isHead]

theorem mirror_push_payload (bs : Bytes) : (d.push (.payload bs)).mirror = d.mirror := by
  simp [mirror, push, Segment.isHead]

theorem mirror_pushBody (body : Bytes) : (d.pushBody body).mirror = d.mirror := by
  unfold pushBody
  split
  · exact d.mirror_push_payload body
  · rfl

theorem mirror_pushChunk (data : Bytes) : (d.pushChunk data).mirror = d.mirror := by
  simp only [pushChunk, mirror_push_payload]

theorem mirror_begin (status : Status) : (d.begin status).mirror = d.mirror.begin status := rfl

theorem pushBody_mirror (hstarted : d.started) (body : Bytes) :
    d.mirror.pushBody body = d.mirror := by
  simp [pushBody, mirror, hstarted]

theorem encodeHead_mirror (head : ResponseHead) (size : BodySize) :
    d.mirror.encodeHead head size = (d.encodeHead head size).mirror := by
  have hwritten : d.mirror.written head = d.written head := rfl
  rw [encodeHead_def, encodeHead_def, hwritten]
  cases (d.written head).encode size with
  | error e => rfl
  | ok bytes =>
    exact congrArg done (mirror_push_head { d with keepAlive := d.staysOpen head } bytes).symm

theorem encodeHead_started (head : ResponseHead) (size : BodySize) :
    (d.encodeHead head size).1.started = d.started := by
  rw [encodeHead_def]
  split <;> rfl

/-- A step and what comes behind it. -/
theorem andThen_mirror (step : Step π) {next next' : Draft π → Draft π}
    (hnext : next' step.1.mirror = (next step.1).mirror) :
    step.mirror.andThen next' = (step.andThen next).mirror := by
  obtain ⟨d, result⟩ := step
  cases result with
  | error e => rfl
  | ok => exact congrArg done hnext

/-- The end of a response with a body. -/
theorem pushBody_finish_mirror (hstarted : d.started) (body body' : Bytes) :
    (d.mirror.pushBody body').finish = (d.pushBody body).finish.mirror := by
  have hbody : (d.pushBody body).finish.mirror = (d.pushBody body).mirror.finish := rfl
  rw [hbody, mirror_pushBody, pushBody_mirror d hstarted]

end Mirror

section Arms

variable (d : Draft π)

theorem applyFull_mirror (r : Response) : d.mirror.applyFull r = (d.applyFull r).mirror := by
  unfold applyFull
  rw [mirror_started]
  by_cases hstarted : d.started
  · rw [if_pos hstarted, if_pos hstarted]
    rfl
  · rw [if_neg hstarted, if_neg hstarted, ← mirror_begin, encodeHead_mirror]
    exact andThen_mirror _ (pushBody_finish_mirror _ (encodeHead_started _ _ _) _ _)

theorem applyHead_mirror (head : ResponseHead) :
    d.mirror.applyHead head = (d.applyHead head).mirror := by
  dsimp only [applyHead]
  rw [mirror_started, ← mirror_begin, mirror_acceptsChunked]
  by_cases hstarted : d.started
  · rw [if_pos hstarted, if_pos hstarted]
    rfl
  rw [if_neg hstarted, if_neg hstarted]
  by_cases haccepts : (d.begin head.status).acceptsChunked
  · rw [if_pos haccepts, if_pos haccepts]
    exact encodeHead_mirror { d.begin head.status with chunked := true } head .chunked
  · rw [if_neg haccepts, if_neg haccepts]
    rfl

theorem applyData_mirror (data : Bytes) :
    d.mirror.applyData data = (d.applyData data).mirror := by
  unfold applyData
  rw [mirror_started]
  by_cases hstarted : d.started
  · have hbegun : ¬ (!d.started) = true := by simp [hstarted]
    have hskipped : (!d.mirror.sendsBody || data.isEmpty) = true := by simp [mirror, hstarted]
    rw [if_neg hbegun, if_neg hbegun, if_pos hskipped]
    split
    · rfl
    split
    · exact congrArg done (mirror_pushChunk d data).symm
    · rfl
  · have hnot : (!d.started) = true := by simp [hstarted]
    rw [if_pos hnot, if_pos hnot]
    rfl

/-- The end is the same where no body was gathered. -/
theorem applyFinish_mirror (hnone : d.head.isSome → d.body = []) :
    d.mirror.applyFinish = d.applyFinish.mirror := by
  unfold applyFinish
  rw [mirror_started, mirror_head]
  by_cases hstarted : d.started
  · have hbegun : ¬ (!d.started) = true := by simp [hstarted]
    rw [if_neg hbegun, if_neg hbegun]
    cases hhead : d.head with
    | none =>
      have hsends : ¬ (d.mirror.chunked && d.mirror.sendsBody) = true := by
        simp [mirror, hstarted]
      dsimp only
      rw [if_neg hsends]
      split
      · exact congrArg (fun e => e.finish.done) (mirror_push_payload d Chunked.lastChunk).symm
      · rfl
    | some head =>
      let taken := { d with head := none, body := [] }
      dsimp only
      rw [hnone (by rw [hhead]; rfl), mirror_body]
      refine (congrArg (Step.andThen · _) (encodeHead_mirror taken head _)).trans
        (andThen_mirror _ (pushBody_finish_mirror _ ?_ [] []))
      exact (encodeHead_started _ _ _).trans hstarted
  · have hnot : (!d.started) = true := by simp [hstarted]
    rw [if_pos hnot, if_pos hnot]
    rfl

theorem applyAbort_mirror : d.mirror.applyAbort = d.applyAbort.mirror := by
  dsimp only [applyAbort]
  rw [mirror_started, mirror_head]
  by_cases hgiven : !d.started || d.head.isSome
  · let taken := { d with
      keepAlive := false, head := if d.started then none else d.head, body := [] }
    rw [if_pos hgiven, if_pos hgiven]
    exact (congrArg (Step.andThen · finish) (encodeHead_mirror (taken.begin 200) _ _)).trans
      (andThen_mirror _ rfl)
  · rw [if_neg hgiven, if_neg hgiven]
    rfl

end Arms

/-- The part ends a response whose body was gathered. -/
def Drops (d : Draft π) (part : Part) : Prop :=
  part = .finish ∧ d.complete = false ∧ d.head.isSome ∧ d.body ≠ []

/-- Every other part does the same to the response for HEAD. -/
theorem apply_mirror (hdrops : ¬ d.Drops part) : d.mirror.apply part = (d.apply part).mirror := by
  by_cases hcomplete : d.complete
  · rw [apply_complete hcomplete, apply_complete (d := d.mirror) hcomplete]
    rfl
  have hopen : d.complete = false := eq_false_of_ne_true hcomplete
  rw [apply_open hopen, apply_open (d := d.mirror) hopen]
  cases part with
  | full r => exact applyFull_mirror d r
  | head head => exact applyHead_mirror d head
  | data data => exact applyData_mirror d data
  | finish =>
    refine applyFinish_mirror d fun hwaits => ?_
    by_contra hsome
    exact hdrops ⟨rfl, hopen, hwaits, hsome⟩
  | abort => exact applyAbort_mirror d

/-! ### All parts -/

/-- A response in pieces with some body, whose length is told when all of it is there. -/
def Gathered (acceptsChunked : Bool) (parts : List Part) (head : ResponseHead)
    (pieces : List Bytes) : Prop :=
  acceptsChunked = false ∧ parts = .head head :: pieces.map .data ++ [.finish] ∧
    head.status.allowsBody ∧ pieces.flatten ≠ []

/-- How the response `h` for HEAD stands beside the response `g` for GET, which took these parts:
it is the same without the body, or the length of a body is missing in its head. -/
inductive Beside (parts : List Part) (h g : Draft π) : Prop
  | exact : (∀ head pieces, ¬ Gathered g.acceptsChunked parts head pieces) → h = g.mirror →
      Beside parts h g
  | short (head : ResponseHead) (pieces : List Bytes) (w : ResponseHead) :
      Gathered g.acceptsChunked parts head pieces → w.status = head.status → g.complete →
      g.out = [.head (w.wire (.ofLength pieces.flatten.length)), .payload pieces.flatten] →
      h = { g.mirror with out := [.head (w.wire (.ofLength 0))] } → Beside parts h g

theorem begun_inj {head head' : ResponseHead} {pieces pieces' : List Bytes}
    (h : Part.head head :: pieces.map .data = .head head' :: pieces'.map .data) :
    head = head' ∧ pieces = pieces' := by
  obtain ⟨hhead, hdata⟩ := List.cons.inj h
  exact ⟨Part.head.inj hhead, List.map_injective_iff.2 (fun _ _ => Part.data.inj) hdata⟩

/-- A gathered body is dropped when it is complete. -/
theorem drops_of_gathered {acceptsChunked : Bool} {head : ResponseHead} {pieces : List Bytes}
    (hstands : g.Stands parts) (hhead : g.headOnly = false)
    (haccepts : g.acceptsChunked = acceptsChunked)
    (hgathered : Gathered acceptsChunked (parts ++ [part]) head pieces) : g.Drops part := by
  obtain ⟨hnot, hparts, hallows, hsome⟩ := hgathered
  obtain ⟨rfl, hlast⟩ := List.append_inj' hparts rfl
  obtain rfl : part = .finish := by simpa using hlast
  rw [hnot] at haccepts
  generalize hbegun : Part.head head :: pieces.map .data = begun at hstands
  cases hstands with
  | waiting => cases hbegun
  | chunks _ _ _ _ _ _ _ hchunks => rw [haccepts] at hchunks; cases hchunks
  | gathering head' pieces' hopen hstarted _ hwaits _ _ hsends hbody =>
    obtain ⟨rfl, rfl⟩ := begun_inj hbegun
    refine ⟨rfl, hopen, by rw [hwaits]; rfl, ?_⟩
    rw [hbody, hsends, hhead, hallows]
    exact hsome
  | complete _ hcourse => exact absurd (hbegun ▸ hcourse) (Part.not_course_begun head pieces)

/-- Where a body is dropped, its length is missing. -/
theorem beside_of_drops (hstands : g.Stands parts) (hw : g.Writable) (hhead : g.headOnly = false)
    (hdrops : g.Drops part) : ∃ e f, g.apply part = e.done ∧ g.mirror.apply part = f.done ∧
      Beside (parts ++ [part]) f e := by
  obtain ⟨rfl, hopen, hwaits, hsome⟩ := hdrops
  cases hstands with
  | waiting _ _ _ hnone => rw [hnone] at hwaits; cases hwaits
  | chunks _ _ _ _ _ hnone => rw [hnone] at hwaits; cases hwaits
  | complete hcomplete => rw [hopen] at hcomplete; cases hcomplete
  | gathering head pieces _ hstarted _ hwaits' hout haccepts hsends hbody =>
    have hsends' : g.sendsBody := by
      by_contra hnot
      rw [if_neg hnot] at hbody
      exact hsome hbody
    have hallows : head.status.allowsBody := by simpa [hsends', hhead] using hsends.symm
    rw [if_pos hsends'] at hbody
    let taken := { g with head := none, body := [] }
    let w := taken.written head
    have hout' : taken.mirror.out = [] := by simp [taken, mirror, hout]
    have hpush : (taken.withHead head (.ofLength g.body.length)).pushBody g.body =
        (taken.withHead head (.ofLength g.body.length)).push (.payload g.body) :=
      if_pos (by simpa [withHead, taken, hsends'] using hsome)
    refine ⟨_, _, apply_finish_of_head hopen hstarted hw hwaits',
      apply_finish_of_head (d := g.mirror) hopen hstarted hw hwaits', ?_⟩
    rw [hpush]
    refine .short head pieces w ⟨haccepts, rfl, hallows, hbody ▸ hsome⟩ rfl rfl ?_ ?_
    · simp only [finish, push, withHead, taken, hout, hbody]
      rfl
    · have hnone : (taken.mirror.withHead head (.ofLength 0)).pushBody [] =
          taken.mirror.withHead head (.ofLength 0) := if_neg (by simp)
      refine (congrArg finish hnone).trans ?_
      rw [withHead, hout']
      rfl

/-- One part for both. -/
theorem Beside.apply (hbeside : Beside parts h g) (hstands : g.Stands parts) (hw : g.Writable)
    (hhead : g.headOnly = false) (part : Part) : (h.apply part).2 = (g.apply part).2 ∧
      Beside (parts ++ g.accepted [part]) (h.apply part).1 (g.apply part).1 := by
  cases hbeside with
  | short head pieces w hgathered hstatus hcomplete hout hmirror =>
    have hrefused : h.apply part = h.refuse .alreadyComplete :=
      apply_complete (by rw [hmirror]; exact hcomplete) part
    have haccepted : g.accepted [part] = [] :=
      (run_refused (apply_complete hcomplete part) []).2
    rw [hrefused, apply_complete hcomplete, haccepted, List.append_nil]
    exact ⟨rfl, .short head pieces w hgathered hstatus hcomplete hout hmirror⟩
  | exact hnot hmirror =>
    subst hmirror
    by_cases hdrops : g.Drops part
    · obtain ⟨e, f, hg, hh, hbeside⟩ := beside_of_drops hstands hw hhead hdrops
      rw [hg, hh, (run_taken hg []).2]
      exact ⟨rfl, hbeside⟩
    rw [apply_mirror hdrops]
    refine ⟨rfl, .exact (fun head pieces hgathered => ?_) rfl⟩
    have haccepts : g.acceptsChunked = (g.apply part).1.acceptsChunked :=
      (congrArg (fun asked => asked.2.2.1) (apply_asked g part)).symm
    cases hstands.answers hw part with
    | refused misfit happly =>
      rw [(run_refused happly []).2, ← haccepts] at hgathered
      exact hnot head pieces (by simpa [accepted] using hgathered)
    | taken e happly =>
      rw [(run_taken happly []).2] at hgathered
      exact hdrops (drops_of_gathered hstands hhead haccepts hgathered)

/-- Any parts for both. -/
theorem Beside.run (hbeside : Beside parts h g) (hstands : g.Stands parts) (hw : g.Writable)
    (hhead : g.headOnly = false) (more : List Part) : h.results more = g.results more ∧
      Beside (parts ++ g.accepted more) (h.run more) (g.run more) := by
  induction more generalizing h g parts with
  | nil => exact ⟨rfl, (List.append_nil parts).symm ▸ hbeside⟩
  | cons part more ih =>
    obtain ⟨hresult, hnext⟩ := hbeside.apply hstands hw hhead part
    obtain ⟨hresults, hrun⟩ := ih hnext (stands_run hstands hw [part]).1 (hw.apply part)
      ((congrArg (fun asked => asked.2.2.2.1) (apply_asked g part)).trans hhead)
    refine ⟨congrArg₂ List.cons hresult hresults, ?_⟩
    rw [show part :: more = [part] ++ more from rfl, accepted_append, ← List.append_assoc]
    exact hrun

section Outcome

variable (hbeside : Beside parts h g)

include hbeside

theorem Beside.flags : h.complete = g.complete ∧ h.keepAlive = g.keepAlive := by
  cases hbeside with
  | exact _ hmirror => rw [hmirror]; exact ⟨rfl, rfl⟩
  | short _ _ _ _ _ _ _ hmirror => rw [hmirror]; exact ⟨rfl, rfl⟩

theorem Beside.isHead : ∀ segment ∈ h.out, segment.isHead := by
  cases hbeside with
  | exact _ hmirror =>
    rw [hmirror]
    exact fun segment hsegment => (List.mem_filter.1 hsegment).2
  | short _ _ w _ _ _ _ hmirror =>
    rw [hmirror]
    simp [Segment.isHead]

theorem Beside.out_of_gathered {head : ResponseHead} {pieces : List Bytes}
    (hgathered : Gathered g.acceptsChunked parts head pieces) :
    ∃ w : ResponseHead, w.status = head.status ∧
      g.out = [.head (w.wire (.ofLength pieces.flatten.length)), .payload pieces.flatten] ∧
      h.out = [.head (w.wire (.ofLength 0))] := by
  cases hbeside with
  | exact hnot => exact absurd hgathered (hnot head pieces)
  | short head' pieces' w hgathered' hstatus _ hout hmirror =>
    obtain ⟨rfl, rfl⟩ :=
      begun_inj (List.append_cancel_right (hgathered.2.1.symm.trans hgathered'.2.1))
    exact ⟨w, hstatus, hout, by rw [hmirror]⟩

/-- The heads differ just where a body was gathered, as its length is not zero. -/
theorem Beside.out_eq_iff : h.out = g.out.filter Segment.isHead ↔
    ¬ ∃ head pieces, Gathered g.acceptsChunked parts head pieces := by
  constructor
  · rintro hsame ⟨head, pieces, hgathered⟩
    obtain ⟨w, hstatus, hg, hh⟩ := hbeside.out_of_gathered hgathered
    rw [hh, hg] at hsame
    have hlengths : w.wire (.ofLength 0) = w.wire (.ofLength pieces.flatten.length) :=
      Segment.head.inj (List.cons.inj hsame).1
    obtain ⟨-, -, hallows, hsome⟩ := hgathered
    rw [ResponseHead.wire_ofLength_inj (hstatus ▸ hallows)] at hlengths
    exact hsome (List.length_eq_zero_iff.1 hlengths.symm)
  · intro hnone
    cases hbeside with
    | exact _ hmirror => rw [hmirror]; rfl
    | short head pieces _ hgathered => exact absurd ⟨head, pieces, hgathered⟩ hnone

end Outcome

theorem mirror_ofRequest (slot : Nat) (r : RequestHead) (keepAlive : Bool) :
    (ofRequest slot { r with method := Bytes.ofString "HEAD" } keepAlive : Draft π) =
      (ofRequest slot { r with method := Bytes.ofString "GET" } keepAlive).mirror := by
  have hmethod : ({ r with method := Bytes.ofString "HEAD" } : RequestHead).isMethod "HEAD" :=
    decide_eq_true rfl
  simp only [ofRequest, hmethod]
  rfl

theorem get_isMethod_head (r : RequestHead) :
    { r with method := Bytes.ofString "GET" }.isMethod "HEAD" = false := by
  show decide (Bytes.ofString "GET" = Bytes.ofString "HEAD") = false
  decide +kernel

/-- HEAD beside GET. Two requests of HTTP/1 differ in their methods alone, and the same parts come
for both, in any order. Then each part is taken or refused alike, with the same error, and the
responses are complete alike and keep the connection alike. Nothing but heads goes out for HEAD, and
that is the head that goes out for GET, byte for byte, but for one case: the client is of HTTP/1.0
and the parts that are taken are a response in pieces, to its end, with some body. The length that
GET announces is that of the body, while HEAD announces a length of zero. -/
theorem head_mirrors_get (slot : Nat) (r : RequestHead)
    (hversion : r.version = .v10 ∨ r.version = .v11) (keepAlive : Bool) (parts : List Part) :
    let forHead : Draft π := ofRequest slot { r with method := Bytes.ofString "HEAD" } keepAlive
    let forGet : Draft π := ofRequest slot { r with method := Bytes.ofString "GET" } keepAlive
    let h := forHead.run parts
    let g := forGet.run parts
    let InPieces (head : ResponseHead) (pieces : List Bytes) := r.version = .v10 ∧
      forGet.accepted parts = .head head :: pieces.map .data ++ [.finish] ∧
      head.status.allowsBody ∧ pieces.flatten ≠ []
    forHead.results parts = forGet.results parts ∧
    (h.complete = g.complete ∧ h.keepAlive = g.keepAlive) ∧
    (∀ segment ∈ h.out, segment.isHead) ∧
    (h.out = g.out.filter Segment.isHead ↔ ¬ ∃ head pieces, InPieces head pieces) ∧
    (∀ head pieces, InPieces head pieces → ∃ w : ResponseHead, w.status = head.status ∧
      g.out = [.head (w.wire (.ofLength pieces.flatten.length)), .payload pieces.flatten] ∧
      h.out = [.head (w.wire (.ofLength 0))]) ∧
    h.view = parts.foldl Pending.accept
      (Pending.ofRequest slot { r with method := Bytes.ofString "HEAD" } keepAlive) ∧
    g.view = parts.foldl Pending.accept
      (Pending.ofRequest slot { r with method := Bytes.ofString "GET" } keepAlive) := by
  intro forHead forGet h g InPieces
  have hfresh : forGet.Stands [] := stands_ofRequest _ _ _
  have hstart : Beside [] forHead forGet :=
    .exact (fun _ _ hgathered => nomatch hgathered.2.1) (mirror_ofRequest slot r keepAlive)
  obtain ⟨hresults, hbeside⟩ := hstart.run hfresh hversion (get_isMethod_head r) parts
  have haccepts : g.acceptsChunked = false ↔ r.version = .v10 := by
    have hsame : g.acceptsChunked = decide (r.version = .v11) :=
      congrArg (fun asked => asked.2.2.1) (run_asked forGet parts)
    rcases hversion with hold | hnew <;> simp [*]
  have hgathered (head : ResponseHead) (pieces : List Bytes) :
      Gathered g.acceptsChunked (forGet.accepted parts) head pieces ↔ InPieces head pieces := by
    simp only [Gathered, InPieces, haccepts]
  refine ⟨hresults, hbeside.flags, hbeside.isHead, hbeside.out_eq_iff.trans ?_, ?_,
    view_run (d := forHead) (stands_ofRequest _ _ _) hversion parts,
    view_run hfresh hversion parts⟩
  · exact not_congr (exists_congr fun head => exists_congr fun pieces => hgathered head pieces)
  · exact fun head pieces hin => hbeside.out_of_gathered ((hgathered head pieces).2 hin)

/-- An old client is told the length of a whole response, but not that of one in pieces. -/
theorem head_mirrors_get_old :
    let r : RequestHead := { oldGet with method := Bytes.ofString "HEAD" }
    let fresh : Draft Unit := ofRequest 0 r true
    oldGet.version = .v10 ∧
      (∃ w : ResponseHead, w.status = 200 ∧ w.wire (.ofLength 0) ≠ w.wire (.ofLength 5) ∧
        (fresh.run [.head {}, .data (Bytes.ofString "hello"), .finish]).out =
          [.head (w.wire (.ofLength 0))]) ∧
      (fresh.run [.full { head := {}, body := Bytes.ofString "hello" }]).out =
        ((ofRequest 0 oldGet true : Draft Unit).run
          [.full { head := {}, body := Bytes.ofString "hello" }]).out.filter Segment.isHead := by
  intro r fresh
  have hget : { oldGet with method := Bytes.ofString "GET" } = oldGet := rfl
  refine ⟨rfl, ?_, ?_⟩
  · obtain ⟨-, -, -, -, hpieces, -⟩ := head_mirrors_get (π := Unit) 0 oldGet (.inl rfl) true
      [.head {}, .data (Bytes.ofString "hello"), .finish]
    obtain ⟨w, hstatus, -, hout⟩ := hpieces {} [Bytes.ofString "hello"]
      ⟨rfl, by decide +kernel, by decide, by decide +kernel⟩
    refine ⟨w, hstatus, fun hwire => ?_, hout⟩
    rw [ResponseHead.wire_ofLength_inj (by rw [hstatus]; decide)] at hwire
    omega
  · obtain ⟨-, -, -, hout, -⟩ := head_mirrors_get (π := Unit) 0 oldGet (.inl rfl) true
      [.full { head := {}, body := Bytes.ofString "hello" }]
    refine hout.2 ?_
    rintro ⟨head, pieces, -, hparts, -⟩
    have haccepted : (ofRequest 0 oldGet true : Draft Unit).accepted
        [.full { head := {}, body := Bytes.ofString "hello" }] =
          [.full { head := {}, body := Bytes.ofString "hello" }] := by decide +kernel
    rw [hget, haccepted] at hparts
    cases hparts

end Draft

end WireServer.Http
