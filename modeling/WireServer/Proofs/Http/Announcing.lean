import WireServer.Proofs.Http.Drafting
import WireServer.Proofs.Http.ExpectScan
import WireServer.Proofs.Http.SelfFraming

/-! What a response head announces about its connection. Whatever `Connection` fields the
application set, a client that reads the head line by line learns whether the connection ends, and
an old client also that it stays; the response remembers just what its head says. -/

namespace WireServer

theorem Bytes.ofString_append (s t : String) : ofString (s ++ t) = ofString s ++ ofString t := by
  simp [ofString, String.toUTF8]

namespace Http

open Pending (connection asksToClose)

namespace ResponseHead

/-! ### What a client reads -/

/-- A line of the field `Connection` that lists the option. -/
def connectionLists (option : String) (line : Bytes) : Bool :=
  sameIgnoringCase (line.takeWhile (· ≠ 0x3A)) connection &&
    hasToken ((line.dropWhile (· ≠ 0x3A)).drop 1) (Bytes.ofString option)

/-- Some line of the head, behind the first one, lists the option for the connection. -/
def announces (head : Bytes) (option : String) : Bool :=
  ((pieces (· = 0x0A) head).drop 1).any (connectionLists option)

/-- What the head tells a client of its version: the connection stays open. An old client has to be
told so. -/
def persists (version : Version) (head : Bytes) : Bool :=
  !announces head "close" && (version ≠ .v10 || announces head "keep-alive")

/-- The head of an answer that does not switch protocols. -/
structure Ordinary (head : ResponseHead) : Prop where
  stays : head.status ≠ 101
  legal : head.fields.Legal

theorem hasToken_append {b : UInt8} (hb : isListSeparator b) (xs ys token : Bytes) :
    hasToken (xs ++ b :: ys) token = (hasToken xs token || hasToken ys token) := by
  simp only [hasToken, pieces_eq_splitOnP, List.splitOnP_append_cons _ _ hb, List.any_append]

theorem hasToken_nil (token : Bytes) : hasToken [] token = false := rfl

/-- A line as it is written, with the CR of its end. -/
theorem connectionLists_line {name value : Bytes} (hname : Fields.LegalName name)
    (option : String) : connectionLists option (name ++ 0x3A :: (0x20 :: value ++ [0x0D])) =
      (decide (name = connection) && hasToken value (Bytes.ofString option)) := by
  have hcolon : isToken 0x3A = false := by decide +kernel
  have hword : ∀ b ∈ name, decide (b ≠ 0x3A) = true := fun b hb => decide_eq_true fun hsame => by
    simpa [hsame, hcolon] using List.all_eq_true.1 hname.2.1 b hb
  obtain ⟨hfront, hback⟩ := HeadGrammar.span_written hword (b := 0x3A) (by simp)
    (0x20 :: value ++ [0x0D])
  have hlower : lowercase connection = connection := by decide +kernel
  have hgap : hasToken (0x20 :: value ++ [0x0D]) (Bytes.ofString option) =
      hasToken value (Bytes.ofString option) := by
    rw [hasToken_append (by decide), hasToken_nil, Bool.or_false, ← List.nil_append (0x20 :: value),
      hasToken_append (by decide), hasToken_nil, Bool.false_or]
  rw [connectionLists, hfront, hback, List.drop_one, List.tail_cons, hgap, sameIgnoringCase,
    hname.2.2, hlower]

theorem pieces_crlf {line : Bytes} (hline : 0x0A ∉ line) (more : Bytes) :
    pieces (· = 0x0A) (line ++ 0x0D :: 0x0A :: more) =
      (line ++ [0x0D]) :: pieces (· = 0x0A) more := by
  have hcr : ∀ b ∈ line ++ [0x0D], decide (b = 0x0A) = false := fun b hb =>
    decide_eq_false fun hsame => by simp [hsame, hline] at hb
  rw [pieces_eq_splitOnP, pieces_eq_splitOnP,
    ← List.splitOnP_append_cons_of_forall_mem hcr 0x0A rfl more, List.append_assoc]
  rfl

theorem lineFeed_notMem_reason (status : Status) : 0x0A ∉ Bytes.ofString status.reason := by
  unfold Status.reason
  split <;> decide +kernel

theorem lineFeed_notMem_fieldValue {bs : Bytes} (h : bs.all isFieldValue) : 0x0A ∉ bs := fun hin =>
  absurd (List.all_eq_true.1 h 0x0A hin) (by decide)

/-- The first line is one line. -/
theorem exists_statusLine (version : Version) (status : Status) :
    ∃ line, 0x0A ∉ line ∧ statusLine version status = line ++ [0x0D, 0x0A] := by
  have hversion : 0x0A ∉ Bytes.ofString version.text := by cases version <;> decide +kernel
  have hspace : 0x0A ∉ Bytes.ofString " " := by decide +kernel
  have hdigits := lineFeed_notMem_fieldValue (digits_fieldValue (spells_toString status))
  refine ⟨Bytes.ofString version.text ++ Bytes.ofString " " ++ Bytes.ofString (toString status) ++
    Bytes.ofString " " ++ Bytes.ofString status.reason, ?_, ?_⟩
  · simp only [List.mem_append, not_or]
    exact ⟨⟨⟨⟨hversion, hspace⟩, hdigits⟩, hspace⟩, lineFeed_notMem_reason status⟩
  · simp only [statusLine, Bytes.ofString_append]
    rfl

/-! ### The lines about the connection -/

/-- Some `Connection` line lists the option. -/
def lists (lines : List (Bytes × Bytes)) (option : String) : Bool :=
  lines.any fun line => line.1 = connection && hasToken line.2 (Bytes.ofString option)

section Lists

variable {h : Fields} {name value : Bytes} {option : String}

theorem lists_toList (h : Fields) (option : String) :
    lists h.toList option = h.groups.any fun g =>
      g.1 = connection && g.2.any (hasToken · (Bytes.ofString option)) := by
  simp only [lists, Fields.toList, List.any_flatMap, List.any_map]
  congr 1
  funext g
  cases hname : decide (g.1 = connection) <;> simp [Function.comp_def, hname]

/-- The lines of another name say nothing about the connection. -/
theorem any_others (hname : name ≠ connection) (h : Fields) (option : String) :
    ((h.others name).any fun g =>
      g.1 = connection && g.2.any (hasToken · (Bytes.ofString option))) =
        lists h.toList option := by
  rw [lists_toList, Fields.others, List.any_filter]
  congr 1
  funext g
  by_cases hg : g.1 = connection
  · simp [hg, hname.symm]
  · simp [hg]

/-- A client finds the lines. -/
theorem announces_wire {r : ResponseHead} {size : BodySize} (hlegal : (r.framed size).Legal)
    (option : String) :
    announces (r.wire size) option = lists (r.framed size).toList option := by
  obtain ⟨first, hfirst, hstatus⟩ := exists_statusLine r.version r.status
  have hwire : r.wire size = first ++ 0x0D :: 0x0A ::
      ((r.framed size).toList.flatMap fieldLine ++ [0x0D, 0x0A]) := by
    simp [wire, hstatus, List.flatMap_def]
  rw [announces, hwire, pieces_crlf hfirst, List.drop_one, List.tail_cons]
  have hlines : ∀ line ∈ (r.framed size).toList,
      Fields.LegalName line.1 ∧ line.2.all isFieldValue := fun line => hlegal.line
  generalize (r.framed size).toList = lines at hlines
  induction lines with
  | nil =>
    have hempty : ∀ line ∈ pieces (· = 0x0A) [0x0D, 0x0A],
        sameIgnoringCase (line.takeWhile (· ≠ 0x3A)) connection = false := by decide +kernel
    refine List.any_eq_false.2 fun line hline => ?_
    rw [connectionLists, hempty line hline, Bool.false_and]
    exact Bool.false_ne_true
  | cons line lines ih =>
    obtain ⟨⟨hname, hvalue⟩, hlines⟩ := List.forall_mem_cons.1 hlines
    have hplain : 0x0A ∉ line.1 ++ 0x3A :: 0x20 :: line.2 := by
      have hin : 0x0A ∉ line.1 := fun hin =>
        absurd (List.all_eq_true.1 hname.2.1 0x0A hin) (by decide +kernel)
      simp [hin, lineFeed_notMem_fieldValue hvalue]
    have hsplit : (line :: lines).flatMap fieldLine ++ [0x0D, 0x0A] =
        (line.1 ++ 0x3A :: 0x20 :: line.2) ++ 0x0D :: 0x0A ::
          (lines.flatMap fieldLine ++ [0x0D, 0x0A]) := by
      simp [fieldLine]
    rw [hsplit, pieces_crlf hplain, List.any_cons, ih hlines, List.append_assoc]
    exact congrArg (· || lists lines option) (connectionLists_line hname option)

theorem lists_insert_other (hlegal : h.Legal) (hname : name ≠ connection) (value : Bytes)
    (option : String) : lists (h.insert name value).toList option = lists h.toList option := by
  rw [lists_toList, (hlegal.insert_perm name value).any_eq, List.any_cons, any_others hname]
  simp [hname]

theorem lists_remove_other (hlegal : h.Legal) (hname : name ≠ connection) (option : String) :
    lists (h.remove name).toList option = lists h.toList option := by
  rw [lists_toList, (hlegal.remove_perm name).any_eq, any_others hname]

/-- A `Connection` field that is set is the only one. -/
theorem lists_insert_connection (hlegal : h.Legal) (value : Bytes) (option : String) :
    lists (h.insert connection value).toList option = hasToken value (Bytes.ofString option) := by
  have hnone : ((h.others connection).any fun g =>
      g.1 = connection && g.2.any (hasToken · (Bytes.ofString option))) = false :=
    List.any_eq_false.2 fun g hg => by simp [name_ne_of_mem_others hg]
  rw [lists_toList, (hlegal.insert_perm connection value).any_eq, List.any_cons, hnone]
  simp

/-- Framing does not touch what is said about the connection. -/
theorem lists_framed {r : ResponseHead} (hlegal : r.fields.Legal) (size : BodySize)
    (option : String) : lists (r.framed size).toList option = lists r.fields.toList option := by
  have hlength : fieldName "content-length" ≠ connection := by decide +kernel
  have hcoding : fieldName "transfer-encoding" ≠ connection := by decide +kernel
  unfold framed
  dsimp only
  split
  · cases size with
    | length n =>
      rw [lists_insert_other (hlegal.remove _) hlength, lists_remove_other hlegal hcoding]
    | chunked =>
      rw [lists_insert_other (hlegal.remove _) hcoding, lists_remove_other hlegal hlength]
    | empty =>
      rw [lists_insert_other (hlegal.remove _) hlength, lists_remove_other hlegal hcoding]
  · rw [lists_remove_other (hlegal.remove _) hcoding, lists_remove_other hlegal hlength]

/-- The values of a name that stands in one place only. -/
theorem lists_getAll (hlegal : h.Legal) (option : String) :
    lists h.toList option =
      (h.getAll connection).any (hasToken · (Bytes.ofString option)) := by
  rw [lists_toList]
  by_cases hin : h.contains connection
  · obtain ⟨front, vs, back, hsplit, hfront, hback⟩ := hlegal.exists_split hin
    have hnone {gs : List (Bytes × List Bytes)} (hgs : ∀ g ∈ gs, g.1 ≠ connection) :
        (gs.any fun g => g.1 = connection && g.2.any (hasToken · (Bytes.ofString option))) =
          false :=
      List.any_eq_false.2 fun g hg => by simp [hgs g hg]
    have hall : h.getAll connection = vs := by
      rw [Fields.getAll, hsplit, List.find?_append,
        List.find?_eq_none.2 fun g hg => by simpa using hfront g hg, Option.none_or,
        List.find?_cons_of_pos (by simp)]
      rfl
    rw [hall, hsplit, List.any_append, List.any_cons, hnone hfront, hnone hback]
    simp
  · simp only [Fields.contains, List.any_eq_true, not_exists, not_and] at hin
    rw [Fields.getAll, List.find?_eq_none.2 hin]
    refine List.any_eq_false.2 fun g hg => ?_
    simp [show g.1 ≠ connection by simpa using hin g hg]

/-- The application asks for the end in some line. -/
theorem asksToClose_eq {r : ResponseHead} (hlegal : r.fields.Legal) :
    asksToClose r = lists r.fields.toList "close" := (lists_getAll hlegal "close").symm

end Lists

theorem ordinary_error : Ordinary { status := 500 } where
  stays := by decide
  legal := ⟨.nil, by simp, by simp⟩

end ResponseHead

/-- No head in it switches protocols. -/
def Part.Ordinary : Part → Prop
  | .full r => r.head.Ordinary
  | .head first => first.Ordinary
  | .data _ | .finish | .abort => True

namespace Draft

open ResponseHead (Ordinary announces lists persists)

variable {π : Type} {d e : Draft π} {head : ResponseHead} {size : BodySize} {part : Part}
  {parts : List Part}

/-! ### The head that is written -/

/-- What a head says about the connection is what the response goes by from then on. -/
theorem persists_written (d : Draft π) (h : head.Ordinary) (size : BodySize) :
    persists d.version ((d.written head).wire size) = d.staysOpen head := by
  have hstays : head.status ≠ 101 := h.stays
  have hlegal : (d.written head).fields.Legal :=
    Pending.legal_connectionFields
      (p := ({ d with keepAlive := d.staysOpen head } : Draft π).view) h.legal
  have hframed : ((d.written head).framed size).Legal :=
    ResponseHead.legal_framed hlegal size fun n _ =>
      ResponseHead.digits_fieldValue (spells_toString n)
  simp only [persists, ResponseHead.announces_wire hframed, ResponseHead.lists_framed hlegal]
  have hfields : (d.written head).fields =
      if !d.staysOpen head then head.fields.insert connection (Bytes.ofString "close")
      else if d.version = .v10 then
        head.fields.insert connection (Bytes.ofString "keep-alive")
      else head.fields := if_neg hstays
  rw [hfields]
  cases hopen : d.staysOpen head with
  | false =>
    rw [Bool.not_false, if_pos rfl, ResponseHead.lists_insert_connection h.legal]
    have hclose : hasToken (Bytes.ofString "close") (Bytes.ofString "close") = true := by
      decide +kernel
    rw [hclose]
    rfl
  | true =>
    have hunasked : lists head.fields.toList "close" = false := by
      rw [← ResponseHead.asksToClose_eq h.legal]
      simpa [staysOpen, hstays] using (Bool.and_eq_true_iff.1 hopen).2
    rw [Bool.not_true, if_neg Bool.false_ne_true]
    by_cases hold : d.version = .v10
    · have hboth : hasToken (Bytes.ofString "keep-alive") (Bytes.ofString "close") = false ∧
          hasToken (Bytes.ofString "keep-alive") (Bytes.ofString "keep-alive") = true := by
        decide +kernel
      rw [if_pos hold, ResponseHead.lists_insert_connection h.legal,
        ResponseHead.lists_insert_connection h.legal, hboth.1, hboth.2]
      simp
    · rw [if_neg hold, hunasked]
      simp [hold]

/-! ### One part -/

/-- A head is out. -/
def headSent (d : Draft π) : Bool := d.out.any Segment.isHead

/-- A head that is out says what the response goes by. -/
def Agrees (d : Draft π) : Prop :=
  ∀ bytes, .head bytes ∈ d.out → persists d.version bytes = d.keepAlive

theorem agrees_of_unsent (h : d.headSent = false) : d.Agrees := fun bytes hbytes =>
  absurd rfl (List.any_eq_false.1 h (.head bytes) hbytes)

/-- The response has begun, and no head waits for its body. -/
structure Begun (d : Draft π) : Prop where
  started : d.started
  head : d.head = none
  agrees : d.Agrees

theorem Begun.push (h : d.Begun) (bs : Bytes) : (d.push (.payload bs)).Begun :=
  ⟨h.started, h.head, fun bytes hbytes => h.agrees bytes (by simpa [Draft.push] using hbytes)⟩

theorem Begun.pushBody (h : d.Begun) (body : Bytes) : (d.pushBody body).Begun := by
  unfold Draft.pushBody
  split
  · exact h.push body
  · exact h

theorem Begun.pushChunk (h : d.Begun) (data : Bytes) : (d.pushChunk data).Begun :=
  ((h.push _).push _).push _

theorem Begun.finish (h : d.Begun) : d.finish.Begun := ⟨h.started, h.head, h.agrees⟩

theorem encode_eq_ok {r : ResponseHead} {bytes : Bytes} (h : r.encode size = .ok bytes) :
    bytes = r.wire size := by
  unfold ResponseHead.encode at h
  split at h <;> cases h <;> rfl

/-- The first head that goes out, if it can be written. -/
theorem begun_encodeHead (size : BodySize) (hstarted : d.started) (hhead : d.head = none)
    (hout : d.out = [])
    (hordinary : (d.encodeHead head size).2 = .ok () → head.Ordinary) :
    (d.encodeHead head size).1.Begun := by
  rw [encodeHead_def] at hordinary ⊢
  cases hencode : (d.written head).encode size with
  | ok bytes =>
    rw [hencode] at hordinary
    refine ⟨hstarted, hhead, fun bytes' hbytes => ?_⟩
    obtain rfl : bytes' = bytes := by simpa [push, done, hout] using hbytes
    rw [encode_eq_ok hencode]
    exact persists_written d (hordinary rfl) size
  | error fault => exact ⟨hstarted, hhead, agrees_of_unsent (by simp [headSent, hout])⟩

theorem Begun.andThen {step : Step π} {next : Draft π → Draft π} (h : step.1.Begun)
    (hnext : ∀ d : Draft π, d.Begun → (next d).Begun) : (step.andThen next).1.Begun := by
  unfold Step.andThen
  split
  · exact hnext _ h
  · exact h

theorem andThen_result (step : Step π) (next : Draft π → Draft π) :
    (step.andThen next).2 = step.2 := by
  unfold Step.andThen
  split
  · rename_i hok
    exact hok.symm
  · rfl

/-- What holds of a response all along: nothing is out while a head waits. -/
structure Announced (d : Draft π) : Prop where
  unstarted : d.started = false → d.out = [] ∧ d.head = none ∧ d.chunked = false
  waits : ∀ head ∈ d.head, head.Ordinary ∧ d.out = [] ∧ d.chunked = false
  agrees : d.Agrees

theorem Begun.announced (h : d.Begun) : d.Announced where
  unstarted hnot := by simp [h.started] at hnot
  waits _ hhead := by simp [h.head] at hhead
  agrees := h.agrees

theorem Announced.begun (h : d.Announced) (hstarted : d.started) (hhead : d.head = none) :
    d.Begun := ⟨hstarted, hhead, h.agrees⟩

theorem announced_ofRequest (slot : Nat) (r : RequestHead) (keepAlive : Bool) :
    (ofRequest slot r keepAlive : Draft π).Announced where
  unstarted _ := ⟨rfl, rfl, rfl⟩
  waits := nofun
  agrees := nofun

section Apply

variable (h : d.Announced)

include h

theorem Announced.applyFull (r : Response)
    (hordinary : (d.applyFull r).2 = .ok () → r.head.Ordinary) : (d.applyFull r).1.Announced := by
  cases hstarted : d.started with
  | true =>
    rw [Draft.applyFull, if_pos hstarted]
    exact h
  | false =>
    obtain ⟨hout, hhead, -⟩ := h.unstarted hstarted
    rw [Draft.applyFull, if_neg (ne_true_of_eq_false hstarted)] at hordinary ⊢
    rw [andThen_result] at hordinary
    have hbegun := begun_encodeHead (d := d.begin r.head.status) _ rfl hhead hout hordinary
    exact (hbegun.andThen fun e he => (he.pushBody r.body).finish).announced

theorem Announced.applyHead (first : ResponseHead)
    (hordinary : (d.applyHead first).2 = .ok () → first.Ordinary) :
    (d.applyHead first).1.Announced := by
  cases hstarted : d.started with
  | true =>
    rw [Draft.applyHead, if_pos hstarted]
    exact h
  | false =>
    obtain ⟨hout, hhead, hchunked⟩ := h.unstarted hstarted
    rw [Draft.applyHead, if_neg (ne_true_of_eq_false hstarted)] at hordinary ⊢
    dsimp only at hordinary ⊢
    split at hordinary
    · rename_i haccepts
      rw [if_pos haccepts]
      exact (begun_encodeHead (d := { d.begin first.status with chunked := true }) _ rfl hhead hout
        hordinary).announced
    · rename_i hgathers
      have hunsent : d.headSent = false := by simp [headSent, hout]
      rw [if_neg hgathers]
      refine ⟨nofun, ?_, agrees_of_unsent (d := { d.begin first.status with head := some first })
        hunsent⟩
      rintro head ⟨⟩
      exact ⟨hordinary rfl, hout, hchunked⟩

theorem Announced.applyData (data : Bytes) : (d.applyData data).1.Announced := by
  unfold Draft.applyData
  split
  · exact h
  rename_i hstarted
  split
  · exact h
  split
  · rename_i hchunked
    have hhead : d.head = none := by
      cases hhead : d.head with
      | none => rfl
      | some head => exact absurd hchunked (by simp [(h.waits head hhead).2.2])
    exact ((h.begun (by simpa using hstarted) hhead).pushChunk data).announced
  · exact ⟨h.unstarted, h.waits, h.agrees⟩

theorem Announced.applyFinish : d.applyFinish.1.Announced := by
  unfold Draft.applyFinish
  split
  · exact h
  rename_i hstarted
  split
  · rename_i head hhead
    obtain ⟨hordinary, hout, -⟩ := h.waits head hhead
    have hbegun := begun_encodeHead (d := { d with head := none, body := [] })
      (.ofLength d.body.length) (by simpa using hstarted) rfl hout fun _ => hordinary
    exact (hbegun.andThen fun e he => (he.pushBody d.body).finish).announced
  · rename_i hhead
    have hbegun := h.begun (by simpa using hstarted) hhead
    split
    · exact (hbegun.push _).finish.announced
    · exact hbegun.finish.announced

/-- An abort is answered as long as no head is out. -/
theorem Announced.applyAbort (huncut : d.headSent = false) : d.applyAbort.1.Announced := by
  unfold Draft.applyAbort
  dsimp only
  split
  · rename_i hgiven
    have hout : d.out = [] := by
      rcases Bool.or_eq_true_iff.1 hgiven with hfresh | hwaits
      · exact (h.unstarted (by simpa using hfresh)).1
      · obtain ⟨head, hhead⟩ := Option.isSome_iff_exists.1 hwaits
        exact (h.waits head hhead).2.1
    have hnone : (if d.started then none else d.head) = none := by
      cases hstarted : d.started with
      | true => rfl
      | false => exact (h.unstarted hstarted).2.1
    rw [hnone]
    have hbegun := begun_encodeHead (d := d.givenUp) .empty rfl rfl hout
      fun _ => ResponseHead.ordinary_error
    exact (hbegun.andThen fun e => Begun.finish).announced
  · rename_i hkept
    simp only [Bool.or_eq_true, not_or, Bool.not_eq_true', Bool.not_eq_false,
      Option.not_isSome_iff_eq_none] at hkept
    exact Begun.announced ⟨hkept.1, hkept.2,
      agrees_of_unsent (d := { d with keepAlive := false }.finish) huncut⟩

/-- A part that is taken, with an ordinary head, and no abort behind a head that is out. -/
theorem Announced.apply (part : Part) (hordinary : (d.apply part).2 = .ok () → part.Ordinary)
    (huncut : part = .abort → d.headSent → d.complete) : (d.apply part).1.Announced := by
  cases hcomplete : d.complete with
  | true =>
    rw [apply_complete hcomplete]
    exact h
  | false =>
    rw [apply_open hcomplete] at hordinary ⊢
    cases part with
    | full r => exact h.applyFull r hordinary
    | head first => exact h.applyHead first hordinary
    | data data => exact h.applyData data
    | finish => exact h.applyFinish
    | abort =>
      refine h.applyAbort (eq_false_of_ne_true fun hsent => ?_)
      exact absurd (huncut rfl hsent) (ne_true_of_eq_false hcomplete)

end Apply

/-! ### All parts -/

/-- What the application sends: no head among the parts that are taken switches protocols, and none
of them is an abort behind a head that is out. -/
structure Plain (d : Draft π) (parts : List Part) : Prop where
  ordinary : ∀ part ∈ d.accepted parts, part.Ordinary
  uncut : ∀ front back, parts = front ++ .abort :: back →
    (d.run front).headSent → (d.run front).complete

theorem Plain.tail (h : d.Plain (part :: parts)) : (d.apply part).1.Plain parts where
  ordinary other hother := by
    refine h.ordinary other ?_
    unfold accepted
    split
    · exact List.mem_cons_of_mem part hother
    · exact hother
  uncut front back hparts := h.uncut (part :: front) back (by rw [hparts, List.cons_append])

theorem Plain.first (h : d.Plain (part :: parts)) (hresult : (d.apply part).2 = .ok ()) :
    part.Ordinary := h.ordinary part (by simp [accepted, hresult])

theorem Announced.run (h : d.Announced) (hplain : d.Plain parts) : (d.run parts).Announced := by
  induction parts generalizing d with
  | nil => exact h
  | cons part parts ih =>
    refine ih (h.apply part hplain.first fun hpart => ?_) hplain.tail
    exact hplain.uncut [] parts (by rw [hpart]; rfl)

/-- Whatever `Connection` fields the application sets, the response goes by what its head says, once
that is out. -/
theorem persists_run (slot : Nat) (r : RequestHead) (keepAlive : Bool)
    (hplain : (ofRequest slot r keepAlive : Draft π).Plain parts) :
    ∀ bytes, .head bytes ∈ ((ofRequest slot r keepAlive : Draft π).run parts).out →
      persists r.version bytes = ((ofRequest slot r keepAlive : Draft π).run parts).keepAlive := by
  have hversion : ((ofRequest slot r keepAlive : Draft π).run parts).version = r.version :=
    congrArg (fun asked => asked.2.1) (run_asked (ofRequest slot r keepAlive : Draft π) parts)
  have hagrees := ((announced_ofRequest slot r keepAlive).run hplain).agrees
  rw [Agrees, hversion] at hagrees
  exact hagrees

example : persists .v11 (Bytes.ofString "HTTP/1.1 200 OK\r\nconnection: te\r\n\r\n") = true ∧
    persists .v10 (Bytes.ofString "HTTP/1.0 200 OK\r\nConnection: te\r\n\r\n") = false ∧
    persists .v10 (Bytes.ofString "HTTP/1.0 200 OK\r\nconnection: x, Keep-Alive\r\n\r\n") = true :=
  by decide +kernel

end Draft

end Http

end WireServer
