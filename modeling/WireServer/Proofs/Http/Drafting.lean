import WireServer.Http.Draft
import WireServer.Proofs.Http.Answering

/-! Parts of a response that come out of sequence. Whatever is posted for a slot, and in whatever
order, the response is that of the parts that fit: a refused part leaves every flag and every byte
as it was, even where the flags change before a head is encoded. -/

namespace WireServer.Http

namespace Part

/-- All parts of a response: the whole, an abort alone, or a head with data behind it and an end. -/
inductive Course : List Part → Prop
  | full (r : Response) : Course [.full r]
  | abort : Course [.abort]
  | pieces (head : ResponseHead) (pieces : List Bytes) {last : Part} :
      last = .finish ∨ last = .abort → Course (.head head :: pieces.map .data ++ [last])

/-- Parts as far as a response has come. -/
def InSequence (parts : List Part) : Prop := ∃ course, Course course ∧ parts <+: course

theorem data_last_eq {pieces more : List Bytes} {last last' : Part}
    (hlast : last = .finish ∨ last = .abort)
    (h : pieces.map .data ++ [last] <+: more.map .data ++ [last']) :
    pieces.map .data ++ [last] = more.map .data ++ [last'] := by
  induction pieces generalizing more with
  | nil =>
    cases more with
    | nil => simpa using h
    | cons data more =>
      rw [List.map_nil, List.nil_append, List.map_cons, List.cons_append,
        List.cons_prefix_cons] at h
      rcases hlast with rfl | rfl <;> cases h.1
  | cons data pieces ih =>
    cases more with
    | nil => simpa using h.length_le
    | cons data' more =>
      simp only [List.map_cons, List.cons_append, List.cons_prefix_cons] at h ⊢
      rw [h.1, ih h.2]

/-- Nothing comes behind the end of a response. -/
theorem Course.eq_of_before {parts course : List Part} (hparts : Course parts)
    (hcourse : Course course) (h : parts <+: course) : parts = course := by
  cases hparts <;> cases hcourse <;>
    simp only [List.cons_append, List.cons_prefix_cons, List.prefix_rfl, List.nil_prefix, and_true,
      reduceCtorEq, false_and, Part.full.injEq] at h ⊢
  case full.full => rw [h]
  case pieces.pieces head pieces last hlast head' pieces' last' hlast' =>
    rw [h.1, data_last_eq hlast h.2]

theorem Course.not_inSequence {parts : List Part} (h : Course parts) (part : Part) :
    ¬ InSequence (parts ++ [part]) := by
  rintro ⟨course, hcourse, hbefore⟩
  have hsame := h.eq_of_before hcourse ((List.prefix_append _ _).trans hbefore)
  have hlen := hbefore.length_le
  rw [hsame, List.length_append, List.length_singleton] at hlen
  omega

theorem not_course_begun (head : ResponseHead) (pieces : List Bytes) :
    ¬ Course (.head head :: pieces.map .data) := fun h =>
  h.not_inSequence .finish ⟨_, .pieces head pieces (.inl rfl), List.prefix_rfl⟩

theorem not_inSequence_first {part : Part} (h : part = .finish ∨ ∃ data, part = .data data) :
    ¬ InSequence [part] := by
  rintro ⟨course, hcourse, hbefore⟩
  rcases h with rfl | ⟨data, rfl⟩ <;> cases hcourse <;> simp at hbefore

/-- A response that has begun does not begin again. -/
theorem not_inSequence_begun {head : ResponseHead} {pieces : List Bytes} {part : Part}
    (h : (∃ r, part = .full r) ∨ ∃ head, part = .head head) :
    ¬ InSequence (.head head :: pieces.map .data ++ [part]) := by
  rintro ⟨course, hcourse, hbefore⟩
  cases hcourse with
  | full r => simp at hbefore
  | abort => simp at hbefore
  | pieces head' pieces' hlast =>
    rw [List.cons_append, List.cons_append, List.cons_prefix_cons] at hbefore
    have hmem := hbefore.2.subset (List.mem_append_right _ (List.mem_singleton_self part))
    rcases h with ⟨r, rfl⟩ | ⟨head'', rfl⟩ <;> rcases hlast with rfl | rfl <;> simp at hmem

theorem InSequence.before {parts more : List Part} (h : InSequence more) (hle : parts <+: more) :
    InSequence parts := by
  obtain ⟨course, hcourse, hbefore⟩ := h
  exact ⟨course, hcourse, hle.trans hbefore⟩

end Part

section Stages

variable {π : Type} (p : Pending π) (stage : Stage)

/-- What is written does not depend on how far the response is. -/
theorem Pending.pushHead_withStage (head : ResponseHead) (size : BodySize) :
    { p with stage }.pushHead head size = { p.pushHead head size with stage } := by
  unfold pushHead
  dsimp only
  split <;> rfl

theorem Pending.pushBody_withStage (body : Bytes) :
    { p with stage }.pushBody body = { p.pushBody body with stage } := by
  unfold pushBody
  dsimp only
  split <;> rfl

end Stages

namespace Draft

open WireServer.Http.Part (Course InSequence not_course_begun not_inSequence_first
  not_inSequence_begun)

variable {π : Type} {d e : Draft π} {parts : List Part} {part : Part}

/-! ### The response with its flags read -/

theorem view_push (d : Draft π) (segment : Segment) :
    (d.push segment).view = d.view.push segment.bytes := by
  have hout : Net.Chain.ofList ((d.push segment).out.map Segment.bytes) =
      d.view.out.push segment.bytes := by
    simp [push, view, Net.Chain.ofList, Net.Chain.push]
  unfold Pending.push
  rw [← hout]
  rfl

theorem view_pushBody (d : Draft π) (body : Bytes) :
    (d.pushBody body).view = d.view.pushBody body := by
  unfold pushBody Pending.pushBody
  rw [apply_ite view, view_push]
  rfl

theorem view_pushChunk (d : Draft π) (data : Bytes) :
    (d.pushChunk data).view = d.view.pushChunk data := by
  simp only [pushChunk, view_push, Segment.bytes, Pending.pushChunk]

theorem view_begin (d : Draft π) (status : Status) :
    (d.begin status).view = d.view.begin status := rfl

theorem view_finish (d : Draft π) : d.finish.view = { d.view with stage := .complete } := rfl

/-! ### Heads that can be written -/

/-- Heads are written for HTTP/1. -/
def Writable (d : Draft π) : Prop := d.version = .v10 ∨ d.version = .v11

/-- The connection stays open behind this head. -/
def staysOpen (d : Draft π) (head : ResponseHead) : Bool :=
  d.keepAlive && !(head.status ≠ 101 && Pending.asksToClose head)

/-- The head as it is written. -/
def written (d : Draft π) (head : ResponseHead) : ResponseHead :=
  { head with
    version := d.version
    fields := { d with keepAlive := d.staysOpen head }.view.connectionFields head }

/-- The response with the head behind its output. -/
def withHead (d : Draft π) (head : ResponseHead) (size : BodySize) : Draft π :=
  { d with
    keepAlive := d.staysOpen head
    out := d.out ++ [.head ((d.written head).wire size)] }

theorem encodeHead_def (d : Draft π) (head : ResponseHead) (size : BodySize) :
    d.encodeHead head size =
      match (d.written head).encode size with
      | .ok bytes => ({ d with keepAlive := d.staysOpen head }.push (.head bytes)).done
      | .error e => ({ d with keepAlive := d.staysOpen head }, .error e) := by
  have hclosed : (if head.status ≠ 101 && Pending.asksToClose head then
      { d with keepAlive := false } else d) = { d with keepAlive := d.staysOpen head } := by
    unfold staysOpen
    by_cases hclose : head.status ≠ 101 && Pending.asksToClose head
    · rw [if_pos hclose, hclose, Bool.not_true, Bool.and_false]
    · rw [if_neg hclose, eq_false_of_ne_true hclose, Bool.not_false, Bool.and_true]
  unfold encodeHead
  dsimp only
  rw [hclosed]
  rfl

theorem encodeHead_eq (h : d.Writable) (head : ResponseHead) (size : BodySize) :
    d.encodeHead head size = (d.withHead head size).done := by
  have hencode : (d.written head).encode size = .ok ((d.written head).wire size) := by
    unfold ResponseHead.encode
    rcases h with h | h <;> rw [show (d.written head).version = d.version from rfl, h]
  rw [encodeHead_def, hencode]
  rfl

theorem view_withHead (d : Draft π) (head : ResponseHead) (size : BodySize) :
    (d.withHead head size).view = d.view.pushHead head size := by
  have hpush : (d.withHead head size).view =
      ({ d with keepAlive := d.staysOpen head }.push (.head ((d.written head).wire size))).view :=
    rfl
  rw [hpush, view_push]
  unfold written staysOpen Pending.pushHead
  by_cases hclose : head.status ≠ 101 && Pending.asksToClose head
  · simp only [hclose, if_true, Bool.not_true, Bool.and_false]
    rfl
  · simp only [hclose, Bool.false_eq_true, if_false, Bool.not_false, Bool.and_true]
    rfl

/-- A step whose head can be written. -/
theorem encodeHead_andThen (h : d.Writable) (head : ResponseHead) (size : BodySize)
    (next : Draft π → Draft π) :
    (d.encodeHead head size).andThen next = (next (d.withHead head size)).done := by
  rw [encodeHead_eq h]
  rfl

/-! ### What stays -/

/-- What the request says, and who takes over behind the response. -/
def asked (d : Draft π) : Nat × Version × Bool × Bool × Option π :=
  (d.slot, d.version, d.acceptsChunked, d.headOnly, d.successor)

theorem pushBody_asked (d : Draft π) (body : Bytes) : (d.pushBody body).asked = d.asked := by
  unfold pushBody
  split <;> rfl

theorem encodeHead_asked (d : Draft π) (head : ResponseHead) (size : BodySize) :
    (d.encodeHead head size).1.asked = d.asked := by
  rw [encodeHead_def]
  split <;> rfl

theorem andThen_asked (step : Step π) {next : Draft π → Draft π}
    (hnext : ∀ d, (next d).asked = d.asked) : (step.andThen next).1.asked = step.1.asked := by
  unfold Step.andThen
  split
  · exact hnext _
  · rfl

theorem apply_asked (d : Draft π) (part : Part) : (d.apply part).1.asked = d.asked := by
  unfold apply
  split
  · rfl
  cases part with
  | full r =>
    dsimp only
    unfold applyFull
    split
    · rfl
    · rw [andThen_asked, encodeHead_asked]
      · rfl
      · exact fun e => pushBody_asked e r.body
  | head head =>
    dsimp only
    unfold applyHead
    split
    · rfl
    dsimp only
    split
    · exact encodeHead_asked _ _ _
    · rfl
  | data data =>
    dsimp only
    unfold applyData
    split
    · rfl
    split
    · rfl
    split <;> rfl
  | finish =>
    dsimp only
    unfold applyFinish
    split
    · rfl
    split
    · rw [andThen_asked, encodeHead_asked]
      · rfl
      · exact fun e => pushBody_asked e d.body
    · split <;> rfl
  | abort =>
    dsimp only
    unfold applyAbort
    dsimp only
    split
    · rw [andThen_asked, encodeHead_asked]
      · rfl
      · exact fun _ => rfl
    · rfl

theorem Writable.apply (h : d.Writable) (part : Part) : (d.apply part).1.Writable := by
  have hversion : (d.apply part).1.version = d.version :=
    congrArg (fun asked => asked.2.1) (apply_asked d part)
  rwa [Writable, hversion]

theorem Writable.taken (h : d.Writable) (happly : d.apply part = e.done) : e.Writable := by
  have hnext := h.apply part
  rwa [happly] at hnext

/-! ### One part -/

/-- The output is one head and what belongs behind it. -/
def Headed (d : Draft π) : Prop :=
  ∃ (head : Bytes) (payload : List Bytes), d.out = .head head :: payload.map .payload

theorem Headed.push (h : d.Headed) (bs : Bytes) : (d.push (.payload bs)).Headed := by
  obtain ⟨head, payload, hout⟩ := h
  exact ⟨head, payload ++ [bs], by simp [Draft.push, hout]⟩

theorem Headed.pushBody (h : d.Headed) (body : Bytes) : (d.pushBody body).Headed := by
  unfold Draft.pushBody
  split
  · exact h.push body
  · exact h

theorem Headed.pushChunk (h : d.Headed) (data : Bytes) : (d.pushChunk data).Headed :=
  ((h.push _).push _).push _

theorem headed_withHead (h : d.out = []) (head : ResponseHead) (size : BodySize) :
    (d.withHead head size).Headed :=
  ⟨(d.written head).wire size, [], by simp [withHead, h]⟩

/-- Where a response stands that took exactly these parts. -/
inductive Stands (d : Draft π) : List Part → Prop
  | waiting : d.complete = false → d.started = false → d.chunked = false → d.head = none →
      d.body = [] → d.out = [] → Stands d []
  | chunks (head : ResponseHead) (pieces : List Bytes) : d.complete = false → d.started →
      d.chunked → d.head = none → d.Headed → d.acceptsChunked →
      Stands d (.head head :: pieces.map .data)
  | gathering (head : ResponseHead) (pieces : List Bytes) : d.complete = false → d.started →
      d.chunked = false → d.head = some head → d.out = [] → d.acceptsChunked = false →
      d.sendsBody = (!d.headOnly && head.status.allowsBody) →
      d.body = (if d.sendsBody then pieces.flatten else []) →
      Stands d (.head head :: pieces.map .data)
  | complete {parts : List Part} : d.complete → Course parts → d.Headed → Stands d parts

theorem Stands.inSequence (h : d.Stands parts) : InSequence parts := by
  cases h with
  | waiting => exact ⟨_, .abort, List.nil_prefix⟩
  | chunks head pieces => exact ⟨_, .pieces head pieces (.inl rfl), List.prefix_append _ _⟩
  | gathering head pieces => exact ⟨_, .pieces head pieces (.inl rfl), List.prefix_append _ _⟩
  | complete _ hcourse => exact ⟨_, hcourse, List.prefix_rfl⟩

/-- What a part may do: out of sequence it is refused, and all stays as it was; else it is taken,
and counts among the parts. -/
inductive Answers (d : Draft π) (parts : List Part) (part : Part) : Prop
  | refused (misfit : Misfit) : d.apply part = d.refuse misfit →
      d.view.apply part = .error misfit → ¬ InSequence (parts ++ [part]) → Answers d parts part
  | taken (e : Draft π) : d.apply part = e.done → d.view.apply part = .ok e.view →
      e.Stands (parts ++ [part]) → Answers d parts part

/-- A response that is not complete looks at the part. -/
theorem apply_open (h : d.complete = false) (part : Part) : d.apply part = match part with
    | .full r => d.applyFull r
    | .head head => d.applyHead head
    | .data data => d.applyData data
    | .finish => d.applyFinish
    | .abort => d.applyAbort :=
  if_neg (ne_true_of_eq_false h)

theorem apply_complete (h : d.complete) (part : Part) : d.apply part = d.refuse .alreadyComplete :=
  if_pos h

theorem answers_complete (hcomplete : d.complete) (hcourse : Course parts) (part : Part) :
    d.Answers parts part := by
  have hstage : d.view.stage = .complete := if_pos hcomplete
  refine .refused .alreadyComplete (apply_complete hcomplete part) ?_ (hcourse.not_inSequence part)
  cases part <;> simp [Pending.apply, Pending.applyData, Pending.applyFinish, Pending.applyAbort,
    hstage]

/-- What the answer to an abort starts from, when nothing is out. -/
def givenUp (d : Draft π) : Draft π :=
  { d with keepAlive := false, head := none, body := [] }.begin 200

theorem answers_abort (hw : d.Writable) (hcomplete : d.complete = false)
    (hchunked : d.chunked = false) (hout : d.out = [])
    (hunsent : d.started = false ∧ d.head = none ∨ d.started ∧ d.head.isSome)
    (hcourse : Course (parts ++ [.abort])) : d.Answers parts .abort := by
  let failed := d.givenUp.withHead { status := 500 } .empty
  have hfailed : failed.Headed := headed_withHead (d := d.givenUp) hout _ _
  refine .taken failed.finish ?_ ?_ (.complete rfl hcourse hfailed)
  · have hnone : (if d.started then none else d.head) = none := by
      rcases hunsent with ⟨hstarted, hhead⟩ | ⟨hstarted, hhead⟩ <;> simp [hstarted, hhead]
    have hgiven : (!d.started || d.head.isSome) = true := by
      rcases hunsent with ⟨hstarted, hhead⟩ | ⟨hstarted, hhead⟩ <;> simp [hstarted, hhead]
    rw [apply_open hcomplete, applyAbort]
    dsimp only
    rw [if_pos hgiven, hnone]
    exact encodeHead_andThen (d := d.givenUp) hw _ _ _
  · have hview : d.view.applyAbort = .ok { ({ d.view with keepAlive := false }.begin 200).pushHead
        { status := 500 } .empty with stage := .complete } := by
      have hstage : d.view.stage = .waiting ∨ ∃ head body, d.view.stage = .gathering head body := by
        cases hhead : d.head <;> simp [view, stage, hcomplete, hchunked, hhead]
      rcases hstage with hstage | ⟨head, body, hstage⟩ <;> simp only [Pending.applyAbort, hstage]
    have hbegun := Pending.pushHead_withStage ({ d.view with keepAlive := false }.begin 200)
      d.givenUp.stage { status := 500 } .empty
    rw [Pending.apply, hview, view_finish, view_withHead]
    exact congrArg (fun p : Pending π => Except.ok (ε := Misfit) { p with stage := .complete })
      hbegun.symm

theorem answers_waiting (hw : d.Writable) (hcomplete : d.complete = false)
    (hstarted : d.started = false) (hchunked : d.chunked = false) (hhead : d.head = none)
    (hbody : d.body = []) (hout : d.out = []) (part : Part) : d.Answers [] part := by
  have hstage : d.view.stage = .waiting := by simp [view, stage, hcomplete, hchunked, hhead]
  have hfresh : ¬ d.started = true := ne_true_of_eq_false hstarted
  cases part with
  | full r =>
    let begun := (d.begin r.head.status).withHead r.head (.ofLength r.body.length)
    have hbegun : begun.Headed := headed_withHead (d := d.begin r.head.status) hout _ _
    refine .taken (begun.pushBody r.body).finish ?_ ?_
      (.complete rfl (.full r) (hbegun.pushBody _))
    · rw [apply_open hcomplete]
      exact (if_neg hfresh).trans (encodeHead_andThen (d := d.begin r.head.status) hw _ _ _)
    · simp only [Pending.apply, hstage, begun, view_finish, view_pushBody, view_withHead,
        view_begin]
      rfl
  | head head =>
    cases haccepts : d.acceptsChunked with
    | true =>
      let begun := { d.begin head.status with chunked := true }
      have hview : begun.view = { d.view.begin head.status with stage := .chunks } := by
        simp only [view, stage, begun, Draft.begin, hcomplete]
        rfl
      refine .taken (begun.withHead head .chunked) ?_ ?_
        (.chunks head [] hcomplete rfl rfl hhead (headed_withHead (d := begun) hout _ _) haccepts)
      · rw [apply_open hcomplete]
        exact (if_neg hfresh).trans ((if_pos haccepts).trans (encodeHead_eq (d := begun) hw _ _))
      · rw [view_withHead, hview, Pending.pushHead_withStage]
        simp only [Pending.apply, hstage, Pending.applyHead]
        exact congrArg Except.ok (if_pos haccepts)
    | false =>
      let begun := { d.begin head.status with head := some head }
      have hview : begun.view = { d.view.begin head.status with stage := .gathering head [] } := by
        simp only [view, stage, begun, Draft.begin, hcomplete, hchunked, hbody]
        rfl
      have hnone : begun.body = if begun.sendsBody then ([] : List Bytes).flatten else [] := by
        simp [begun, Draft.begin, hbody]
      have hunchunked : ¬ (d.begin head.status).acceptsChunked = true := by
        rw [Bool.not_eq_true]
        exact haccepts
      refine .taken begun ?_ ?_
        (.gathering head [] hcomplete rfl hchunked rfl hout haccepts rfl hnone)
      · rw [apply_open hcomplete]
        exact (if_neg hfresh).trans (if_neg hunchunked)
      · rw [hview]
        simp only [Pending.apply, hstage, Pending.applyHead]
        exact congrArg Except.ok (if_neg hunchunked)
  | data data =>
    refine .refused .dataBeforeHead ?_ ?_ (not_inSequence_first (.inr ⟨data, rfl⟩))
    · rw [apply_open hcomplete]
      simp [applyData, hstarted]
    · simp [Pending.apply, Pending.applyData, hstage]
  | finish =>
    refine .refused .endBeforeHead ?_ ?_ (not_inSequence_first (.inl rfl))
    · rw [apply_open hcomplete]
      simp [applyFinish, hstarted]
    · simp [Pending.apply, Pending.applyFinish, hstage]
  | abort => exact answers_abort hw hcomplete hchunked hout (.inl ⟨hstarted, hhead⟩) .abort

/-- A piece of data in the place that it has among the parts. -/
theorem begun_data (head : ResponseHead) (pieces : List Bytes) (data : Bytes) :
    .head head :: pieces.map .data ++ [Part.data data] =
      .head head :: (pieces ++ [data]).map .data := by
  rw [List.map_append, List.cons_append]
  rfl

section Begun

variable {head : ResponseHead} {pieces : List Bytes} (hcomplete : d.complete = false)
  (hstarted : d.started)

include hcomplete hstarted

/-- A response that has begun takes no other beginning. -/
theorem answers_again (hstage : d.view.stage ≠ .waiting)
    (h : (∃ r, part = .full r) ∨ ∃ head, part = .head head) :
    d.Answers (.head head :: pieces.map .data) part := by
  have hopen : d.view.stage ≠ .complete := by
    simp only [view, stage, hcomplete, Bool.false_eq_true, if_false]
    split
    · exact Stage.noConfusion
    · split <;> exact Stage.noConfusion
  refine .refused .alreadyStarted ?_ ?_ (not_inSequence_begun h)
  · rw [apply_open hcomplete]
    rcases h with ⟨r, rfl⟩ | ⟨head', rfl⟩ <;> exact if_pos hstarted
  · cases hat : d.view.stage with
    | waiting => exact absurd hat hstage
    | complete => exact absurd hat hopen
    | chunks => rcases h with ⟨r, rfl⟩ | ⟨head', rfl⟩ <;> rw [Pending.apply, hat]
    | gathering _ _ => rcases h with ⟨r, rfl⟩ | ⟨head', rfl⟩ <;> rw [Pending.apply, hat]

/-- What goes out in chunks goes out with each piece, and the end is a chunk of its own. -/
theorem answers_chunks (hchunked : d.chunked) (hhead : d.head = none) (hheaded : d.Headed)
    (haccepts : d.acceptsChunked) (part : Part) :
    d.Answers (.head head :: pieces.map .data) part := by
  have hstage : d.view.stage = .chunks := by simp [view, stage, hcomplete, hchunked]
  cases part with
  | full r => exact answers_again hcomplete hstarted (by simp [hstage]) (.inl ⟨r, rfl⟩)
  | head head' => exact answers_again hcomplete hstarted (by simp [hstage]) (.inr ⟨head', rfl⟩)
  | data data =>
    have hview : d.view.apply (.data data) = .ok
        (if d.sendsBody && !data.isEmpty then d.pushChunk data else d).view := by
      rw [Pending.apply, Pending.applyData, hstage, apply_ite view, view_pushChunk]
      rfl
    refine .taken (if d.sendsBody && !data.isEmpty then d.pushChunk data else d) ?_ hview ?_
    · rw [apply_open hcomplete]
      cases hsends : d.sendsBody <;> cases hnone : data.isEmpty <;>
        simp [applyData, hstarted, hchunked, hsends, hnone]
    · rw [begun_data]
      split
      · exact .chunks head _ hcomplete hstarted hchunked hhead (hheaded.pushChunk data)
          haccepts
      · exact .chunks head _ hcomplete hstarted hchunked hhead hheaded haccepts
  | finish =>
    let ended := if d.sendsBody then d.push (.payload Chunked.lastChunk) else d
    have hended : ended.Headed := by
      unfold ended
      split
      · exact hheaded.push _
      · exact hheaded
    refine .taken ended.finish ?_ ?_
      (.complete rfl (.pieces head pieces (.inl rfl)) hended)
    · rw [apply_open hcomplete]
      simp [applyFinish, hstarted, hhead, hchunked, ended]
    · rw [Pending.apply, Pending.applyFinish, hstage, view_finish, apply_ite view, view_push]
      rfl
  | abort =>
    refine .taken { d with keepAlive := false }.finish ?_ ?_
      (.complete rfl (.pieces head pieces (.inr rfl)) hheaded)
    · rw [apply_open hcomplete]
      simp [applyAbort, hstarted, hhead]
    · simp only [Pending.apply, Pending.applyAbort, hstage]
      rfl

/-- What goes out with the end of a response that waits with its head. -/
theorem apply_finish_of_head (hw : d.Writable) (hhead : d.head = some head) :
    d.apply .finish = ((({ d with head := none, body := [] }.withHead head
      (.ofLength d.body.length)).pushBody d.body).finish).done := by
  have hbegun : ¬ (!d.started) = true := by simp [hstarted]
  rw [apply_open hcomplete]
  refine (if_neg hbegun).trans ?_
  rw [hhead]
  exact encodeHead_andThen (d := { d with head := none, body := [] }) hw _ _ _

/-- What is gathered goes out with the end. -/
theorem answers_gathering (hw : d.Writable) (hchunked : d.chunked = false)
    (hhead : d.head = some head) (hout : d.out = []) (haccepts : d.acceptsChunked = false)
    (hsends : d.sendsBody = (!d.headOnly && head.status.allowsBody))
    (hbody : d.body = if d.sendsBody then pieces.flatten else []) (part : Part) :
    d.Answers (.head head :: pieces.map .data) part := by
  have hstage : d.view.stage = .gathering head d.body := by
    simp [view, stage, hcomplete, hchunked, hhead]
  cases part with
  | full r => exact answers_again hcomplete hstarted (by simp [hstage]) (.inl ⟨r, rfl⟩)
  | head head' => exact answers_again hcomplete hstarted (by simp [hstage]) (.inr ⟨head', rfl⟩)
  | data data =>
    let gathered := if d.sendsBody then { d with body := d.body ++ data } else d
    have hview : d.view.apply (.data data) = .ok gathered.view := by
      simp only [Pending.apply, Pending.applyData, hstage, gathered, apply_ite view]
      simp only [view, stage, hcomplete, hchunked, hhead]
      rfl
    refine .taken gathered ?_ hview ?_
    · rw [apply_open hcomplete]
      have hnothing (hnone : data = []) : gathered = d := by
        unfold gathered
        rw [hnone, List.append_nil, ite_self]
      cases hsends' : d.sendsBody with
      | false => simp [applyData, hstarted, hsends', gathered]
      | true =>
        by_cases hnone : data = []
        · simp [applyData, hstarted, hnone, hnothing hnone]
        · simp [applyData, hstarted, hchunked, hsends', hnone, gathered]
    · rw [begun_data]
      by_cases hsome : d.sendsBody
      · rw [show gathered = { d with body := d.body ++ data } from if_pos hsome]
        exact .gathering head _ hcomplete hstarted hchunked hhead hout haccepts hsends
          (by simp [hbody, hsome])
      · rw [show gathered = d from if_neg hsome]
        exact .gathering head _ hcomplete hstarted hchunked hhead hout haccepts hsends
          (by simp [hbody, hsome])
  | finish =>
    let taken := { d with head := none, body := [] }
    let begun := taken.withHead head (.ofLength d.body.length)
    have hbegun : begun.Headed := headed_withHead (d := taken) hout _ _
    refine .taken (begun.pushBody d.body).finish ?_ ?_
      (.complete rfl (.pieces head pieces (.inl rfl)) (hbegun.pushBody _))
    · exact apply_finish_of_head hcomplete hstarted hw hhead
    · have hview : taken.view = { d.view with stage := .waiting } := by
        simp only [taken, view, stage, hcomplete, hchunked]
        rfl
      rw [Pending.apply, Pending.applyFinish, hstage, view_finish, view_pushBody, view_withHead,
        hview, Pending.pushHead_withStage, Pending.pushBody_withStage]
  | abort =>
    refine answers_abort hw hcomplete hchunked hout (.inr ⟨hstarted, ?_⟩)
      (.pieces head pieces (.inr rfl))
    rw [hhead]
    rfl

end Begun

theorem Stands.answers (h : d.Stands parts) (hw : d.Writable) (part : Part) :
    d.Answers parts part := by
  cases h with
  | waiting hcomplete hstarted hchunked hhead hbody hout =>
    exact answers_waiting hw hcomplete hstarted hchunked hhead hbody hout part
  | chunks head pieces hcomplete hstarted hchunked hhead hheaded haccepts =>
    exact answers_chunks hcomplete hstarted hchunked hhead hheaded haccepts part
  | gathering head pieces hcomplete hstarted hchunked hhead hout haccepts hsends hbody =>
    exact answers_gathering hcomplete hstarted hw hchunked hhead hout haccepts hsends hbody part
  | complete hcomplete hcourse => exact answers_complete hcomplete hcourse part

/-- A refused part leaves every field as it was. -/
theorem Stands.unchanged (h : d.Stands parts) (hw : d.Writable) {error : ResponseError}
    (hrefused : (d.apply part).2 = .error error) : (d.apply part).1 = d := by
  cases h.answers hw part with
  | refused misfit happly => rw [happly, refuse]
  | taken e happly =>
    rw [happly] at hrefused
    cases hrefused

/-- The flags answer as the stage does. -/
theorem Stands.result_eq (h : d.Stands parts) (hw : d.Writable) (part : Part) :
    (d.apply part).2 = ((d.view.apply part).mapError Misfit.error).map fun _ => () := by
  cases h.answers hw part with
  | refused misfit happly hview => rw [happly, hview]; rfl
  | taken e happly hview => rw [happly, hview]; rfl

/-! ### All parts -/

theorem run_refused {misfit : Misfit} (h : d.apply part = d.refuse misfit) (more : List Part) :
    d.run (part :: more) = d.run more ∧ d.accepted (part :: more) = d.accepted more := by
  simp [run, accepted, h, refuse]

theorem run_taken (h : d.apply part = e.done) (more : List Part) :
    d.run (part :: more) = e.run more ∧ d.accepted (part :: more) = part :: e.accepted more := by
  simp [run, accepted, h, done]

theorem run_of_complete (h : d.complete) (more : List Part) :
    d.run more = d ∧ d.accepted more = [] := by
  induction more with
  | nil => exact ⟨rfl, rfl⟩
  | cons part more ih =>
    obtain ⟨hrun, haccepted⟩ := run_refused (apply_complete h part) more
    rw [hrun, haccepted]
    exact ih

theorem run_append (d : Draft π) (parts more : List Part) :
    d.run (parts ++ more) = (d.run parts).run more := List.foldl_append

theorem run_asked (d : Draft π) (parts : List Part) : (d.run parts).asked = d.asked := by
  induction parts generalizing d with
  | nil => rfl
  | cons part parts ih => exact (ih _).trans (apply_asked d part)

theorem accepted_append (d : Draft π) (parts more : List Part) :
    d.accepted (parts ++ more) = d.accepted parts ++ (d.run parts).accepted more := by
  induction parts generalizing d with
  | nil => rfl
  | cons part parts ih =>
    simp only [List.cons_append, accepted, ih]
    split <;> rfl

theorem accepted_sublist (d : Draft π) (parts : List Part) : (d.accepted parts).Sublist parts := by
  induction parts generalizing d with
  | nil => exact .slnil
  | cons part parts ih =>
    unfold accepted
    split
    · exact (ih _).cons_cons part
    · exact (ih _).cons part

theorem stands_run (h : d.Stands parts) (hw : d.Writable) (more : List Part) :
    (d.run more).Stands (parts ++ d.accepted more) ∧ (d.run more).Writable := by
  induction more generalizing d parts with
  | nil => exact ⟨(List.append_nil parts).symm ▸ h, hw⟩
  | cons part more ih =>
    cases h.answers hw part with
    | refused misfit happly =>
      rw [(run_refused happly more).1, (run_refused happly more).2]
      exact ih h hw
    | taken e happly _ hstands =>
      rw [(run_taken happly more).1, (run_taken happly more).2, List.append_cons]
      exact ih hstands (hw.taken happly)

/-- Those that are taken do by themselves what all do. -/
theorem run_accepted (h : d.Stands parts) (hw : d.Writable) (more : List Part) :
    d.run (d.accepted more) = d.run more ∧ d.accepted (d.accepted more) = d.accepted more := by
  induction more generalizing d parts with
  | nil => exact ⟨rfl, rfl⟩
  | cons part more ih =>
    cases h.answers hw part with
    | refused misfit happly =>
      rw [(run_refused happly more).1, (run_refused happly more).2]
      exact ih h hw
    | taken e happly _ hstands =>
      obtain ⟨hrun, haccepted⟩ := ih hstands (hw.taken happly)
      rw [(run_taken happly more).1, (run_taken happly more).2]
      rw [(run_taken happly _).1, (run_taken happly _).2, hrun, haccepted]
      exact ⟨rfl, rfl⟩

/-- With its flags read, the response is the one that the session keeps. -/
theorem view_run (h : d.Stands parts) (hw : d.Writable) (more : List Part) :
    (d.run more).view = more.foldl Pending.accept d.view := by
  induction more generalizing d parts with
  | nil => rfl
  | cons part more ih =>
    cases h.answers hw part with
    | refused misfit happly hview =>
      rw [(run_refused happly more).1, ih h hw, List.foldl_cons, Pending.accept, hview]
    | taken e happly hview hstands =>
      rw [(run_taken happly more).1, ih hstands (hw.taken happly), List.foldl_cons,
        Pending.accept, hview]

/-- Parts in sequence are all taken. -/
theorem accepted_of_inSequence (h : d.Stands parts) (hw : d.Writable) {more : List Part}
    (hsequence : InSequence (parts ++ more)) : d.accepted more = more := by
  induction more generalizing d parts with
  | nil => rfl
  | cons part more ih =>
    rw [List.append_cons] at hsequence
    cases h.answers hw part with
    | refused misfit _ _ hnot => exact absurd (hsequence.before (List.prefix_append _ _)) hnot
    | taken e happly _ hstands =>
      rw [(run_taken happly more).2, ih hstands (hw.taken happly) hsequence]

theorem stands_ofRequest (slot : Nat) (r : RequestHead) (keepAlive : Bool) :
    (ofRequest slot r keepAlive : Draft π).Stands [] :=
  .waiting rfl rfl rfl rfl rfl rfl

theorem Stands.complete_iff (h : d.Stands parts) : d.complete ↔ Course parts := by
  cases h with
  | waiting hcomplete => exact iff_of_false (ne_true_of_eq_false hcomplete) nofun
  | chunks head pieces hcomplete =>
    exact iff_of_false (ne_true_of_eq_false hcomplete) (not_course_begun head pieces)
  | gathering head pieces hcomplete =>
    exact iff_of_false (ne_true_of_eq_false hcomplete) (not_course_begun head pieces)
  | complete hcomplete hcourse => exact iff_of_true hcomplete hcourse

theorem Stands.headed (h : d.Stands parts) (hcomplete : d.complete) : d.Headed := by
  cases h with
  | waiting hopen => rw [hopen] at hcomplete; cases hcomplete
  | chunks head pieces hopen => rw [hopen] at hcomplete; cases hcomplete
  | gathering head pieces hopen => rw [hopen] at hcomplete; cases hcomplete
  | complete _ _ hheaded => exact hheaded

/-- Parts out of sequence change nothing. Whatever parts come for the response to a request of
HTTP/1, and in whatever order, a part that is refused leaves every field as it was. So the response
is that of the parts that are taken, which come in order, as far as they go: a whole response, an
abort, or a head with data behind it and then an end or an abort. All parts are taken just when they
come so. The response is complete with the last of them; then its output is one head and what
belongs behind it, and whatever comes later is refused and adds nothing. With its flags read, this
is the response that the session keeps, and each part meets with the same answer. -/
theorem out_of_sequence_changes_nothing (slot : Nat) (r : RequestHead)
    (hversion : r.version = .v10 ∨ r.version = .v11) (keepAlive : Bool) (parts : List Part) :
    let fresh : Draft π := ofRequest slot r keepAlive
    let d := fresh.run parts
    let kept := fresh.accepted parts
    (∀ part error, (d.apply part).2 = .error error → (d.apply part).1 = d) ∧
    (kept.Sublist parts ∧ fresh.run kept = d ∧ fresh.accepted kept = kept) ∧
    (InSequence kept ∧ (kept = parts ↔ InSequence parts)) ∧
    (d.complete ↔ Course kept) ∧
    (d.complete → d.Headed ∧ (∀ part, (d.apply part).2 = .error Misfit.alreadyComplete.error) ∧
      ∀ more, fresh.run (parts ++ more) = d ∧ fresh.accepted (parts ++ more) = kept) ∧
    d.view = parts.foldl Pending.accept (Pending.ofRequest slot r keepAlive) ∧
    ∀ part, (d.apply part).2 = ((d.view.apply part).mapError Misfit.error).map fun _ => () := by
  intro fresh d kept
  have hfresh : fresh.Stands [] := stands_ofRequest slot r keepAlive
  obtain ⟨hstands, hw⟩ : d.Stands kept ∧ d.Writable := stands_run hfresh hversion parts
  have hrun := run_accepted hfresh hversion parts
  refine ⟨fun part error => hstands.unchanged hw, ⟨accepted_sublist _ _, hrun⟩,
    ⟨hstands.inSequence, fun hall => hall ▸ hstands.inSequence,
      fun hsequence => accepted_of_inSequence hfresh hversion hsequence⟩,
    hstands.complete_iff, fun hcomplete => ?_, view_run hfresh hversion parts,
    fun part => hstands.result_eq hw part⟩
  refine ⟨hstands.headed hcomplete, fun part => by rw [apply_complete hcomplete, refuse],
    fun more => ?_⟩
  obtain ⟨hrun', haccepted⟩ := run_of_complete hcomplete more
  rw [run_append, accepted_append, hrun', haccepted, List.append_nil]
  exact ⟨rfl, rfl⟩

/-- An old client that asks for a page. -/
def oldGet : RequestHead := ⟨Bytes.ofString "GET", { pathPart := [0x2F] }, .v10, {}⟩

theorem out_of_sequence_changes_nothing_mixed :
    let fresh : Draft Unit := ofRequest 0 oldGet true
    let parts : List Part := [.finish, .head {}, .full (.empty 204), .data [0x61], .head {}, .abort,
      .data [0x62], .full (.empty 200), .finish]
    fresh.accepted parts = [.head {}, .data [0x61], .abort] ∧
      fresh.run [.head {}, .data [0x61], .abort] = fresh.run parts ∧ (fresh.run parts).complete ∧
      (fresh.run parts).Headed := by
  intro fresh parts
  obtain ⟨-, ⟨-, hrun, -⟩, -, -, hcomplete, -⟩ :=
    out_of_sequence_changes_nothing (π := Unit) 0 oldGet (.inl rfl) true parts
  have haccepted : fresh.accepted parts = [.head {}, .data [0x61], .abort] := by decide +kernel
  have hdone : (fresh.run parts).complete := by decide +kernel
  exact ⟨haccepted, haccepted ▸ hrun, hdone, (hcomplete hdone).1⟩

/-- Where no head can be written, a response has begun with the part that fails. -/
example : let d : Draft Unit := ofRequest 0 { oldGet with version := .v20 } true
    (d.apply (.full (.empty 200))).2 = .error (.unsupportedVersion .v20) ∧
      (d.run [.full (.empty 200)]).started :=
  ⟨rfl, rfl⟩

end Draft

end WireServer.Http
