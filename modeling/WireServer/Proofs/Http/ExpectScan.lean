import Mathlib.Data.List.Basic
import WireServer.Proofs.Http.HeadSpelling

/-! The look at a head that is not decoded. It goes over the raw lines up to the first place where
two line ends of CR and LF meet. That is the end of the head if the head is spelled with such line
ends; with others it may be in front of the request line, or behind the head. So the look finds an
`Expect` field that is there, and no other, only for some spellings. -/

namespace WireServer.Http

namespace Session

/-! ### Lines -/

/-- Bytes of one line, without its end. -/
def Unbroken (line : Bytes) : Prop := ∀ b ∈ line, b ≠ 0x0D ∧ b ≠ 0x0A

/-- Some line of the text is an `Expect` line, the first one included. -/
def showsExpect (raw : Bytes) : Bool := (pieces (· = 0x0A) (headBytes raw)).any isExpectLine

/-- The line end is the first of two of CR and LF. -/
def Closes (e : Eol) (more : Bytes) : Prop := e = .crlf ∧ more.take 2 = [0x0D, 0x0A]

instance (e : Eol) (more : Bytes) : Decidable (Closes e more) := inferInstanceAs (Decidable (_ ∧ _))

/-- The same of what stands behind a line end. -/
def showsBehind (e : Eol) (more : Bytes) : Bool := !decide (Closes e more) && showsExpect more

variable {line more : Bytes} {e : Eol}

theorem headBytes_cons {b : UInt8} (hb : b ≠ 0x0D) (bs : Bytes) :
    headBytes (b :: bs) = b :: headBytes bs := by
  rw [headBytes, if_neg]
  rw [List.take_succ_cons, List.cons.injEq]
  exact fun h => hb h.1

theorem headBytes_eol (e : Eol) (more : Bytes) :
    headBytes (e.bytes ++ more) = if Closes e more then [] else e.bytes ++ headBytes more := by
  cases e with
  | lf =>
    rw [if_neg (by simp [Closes])]
    exact headBytes_cons (by decide) more
  | crlf =>
    have htake : ((0x0D :: 0x0A :: more).take 4 = [0x0D, 0x0A, 0x0D, 0x0A]) ↔
        Closes .crlf more := by simp [Closes]
    show headBytes (0x0D :: 0x0A :: more) = _
    rw [headBytes]
    simp only [htake]
    split
    · rfl
    · rw [headBytes_cons (by decide)]
      rfl

theorem headBytes_line (hline : Unbroken line) (e : Eol) (more : Bytes) :
    headBytes (line ++ (e.bytes ++ more)) =
      line ++ if Closes e more then [] else e.bytes ++ headBytes more := by
  induction line with
  | nil => exact headBytes_eol e more
  | cons b line ih =>
    rw [Unbroken, List.forall_mem_cons] at hline
    rw [List.cons_append, headBytes_cons hline.1.1, ih hline.2, List.cons_append]

theorem getLast?_unbroken (hline : Unbroken line) : line.getLast? ≠ some 0x0D := fun hlast =>
  (hline _ (List.mem_of_getLast? hlast)).1 rfl

/-- A CR at the end of a line is no part of it. -/
theorem isExpectLine_cr (hline : Unbroken line) :
    isExpectLine (line ++ [0x0D]) = isExpectLine line := by
  unfold isExpectLine
  rw [List.getLast?_concat, if_pos rfl, List.dropLast_concat, if_neg (getLast?_unbroken hline)]

theorem eq_colon_of_toLower {b : UInt8} (h : toLower b = 0x3A) : b = 0x3A := by
  unfold toLower at h
  split at h
  · rename_i hupper
    simp only [isUpper, Bool.and_eq_true, decide_eq_true_eq, UInt8.le_iff_toNat_le,
      UInt8.reduceToNat] at hupper
    have hsum := congrArg UInt8.toNat h
    simp only [UInt8.toNat_add, UInt8.reduceToNat] at hsum
    omega
  · exact h

/-- An `Expect` line has something behind its colon. -/
theorem isExpectLine_iff (hline : Unbroken line) : isExpectLine line ↔
    ∃ name gap, line = name ++ 0x3A :: gap ∧ lowercase name = fieldName "expect" ∧ gap ≠ [] := by
  have hword : Bytes.ofString "expect:" = fieldName "expect" ++ [0x3A] := by decide +kernel
  have hlower : lowercase (Bytes.ofString "expect:") = Bytes.ofString "expect:" := by decide +kernel
  unfold isExpectLine
  simp only [if_neg (getLast?_unbroken hline), Bool.and_eq_true, decide_eq_true_eq,
    sameIgnoringCase, hlower]
  rw [hword]
  constructor
  · rintro ⟨hlong, hstart⟩
    obtain ⟨name, last, hsplit, hname, hlast⟩ := List.map_eq_append_iff.1 hstart
    obtain ⟨b, rfl, hb⟩ := List.map_eq_singleton_iff.1 hlast
    obtain rfl := eq_colon_of_toLower hb
    refine ⟨name, line.drop 7, ?_, hname, ?_⟩
    · rw [List.append_cons, ← hsplit, List.take_append_drop]
    · exact List.ne_nil_of_length_pos (by rw [List.length_drop]; omega)
  · rintro ⟨name, gap, rfl, hname, hgap⟩
    have hlen : name.length = 6 := by
      have := congrArg List.length hname
      rwa [lowercase, List.length_map] at this
    have hpos := List.length_pos_iff.2 hgap
    refine ⟨by rw [List.length_append, List.length_cons]; omega, ?_⟩
    rw [List.append_cons, List.take_left' (by rw [List.length_append, hlen]; rfl), lowercase,
      List.map_append, ← lowercase, hname]
    rfl

theorem pieces_line (hline : Unbroken line) (e : Eol) (more : Bytes) :
    ∃ first, pieces (· = 0x0A) (line ++ (e.bytes ++ more)) = first :: pieces (· = 0x0A) more ∧
      isExpectLine first = isExpectLine line := by
  have hplain : ∀ b ∈ line, (decide (b = 0x0A)) = false := fun b hb => by simpa using (hline b hb).2
  simp only [pieces_eq_splitOnP]
  cases e with
  | lf => exact ⟨line, List.splitOnP_append_cons_of_forall_mem hplain 0x0A rfl more, rfl⟩
  | crlf =>
    refine ⟨line ++ [0x0D], ?_, isExpectLine_cr hline⟩
    have hcr : ∀ b ∈ line ++ [0x0D], decide (b = 0x0A) = false := by
      simpa [or_imp, forall_and] using hplain
    rw [← List.splitOnP_append_cons_of_forall_mem hcr 0x0A rfl more, List.append_assoc]
    rfl

/-- The bytes of one line are one piece. -/
theorem pieces_of_unbroken (hline : Unbroken line) : pieces (· = 0x0A) line = [line] := by
  rw [pieces_eq_splitOnP]
  exact List.splitOnP_eq_singleton fun b hb => by simpa using (hline b hb).2

theorem showsExpect_line (hline : Unbroken line) (e : Eol) (more : Bytes) :
    showsExpect (line ++ (e.bytes ++ more)) = (isExpectLine line || showsBehind e more) := by
  unfold showsExpect showsBehind
  rw [headBytes_line hline]
  by_cases hcloses : Closes e more
  · simp [hcloses, pieces_of_unbroken hline]
  · obtain ⟨first, hpieces, hfirst⟩ := pieces_line hline e (headBytes more)
    rw [if_neg hcloses, hpieces, List.any_cons, hfirst]
    simp [hcloses, showsExpect]

/-- The first line is not looked at. -/
theorem announcesExpect_line (hline : Unbroken line) (e : Eol) (more : Bytes) :
    announcesExpect (line ++ (e.bytes ++ more)) = showsBehind e more := by
  unfold announcesExpect showsBehind
  rw [headBytes_line hline]
  by_cases hcloses : Closes e more
  · simp [hcloses, pieces_of_unbroken hline]
  · obtain ⟨first, hpieces, -⟩ := pieces_line hline e (headBytes more)
    rw [if_neg hcloses, hpieces, List.drop_one, List.tail_cons]
    simp [hcloses, showsExpect]

/-- A line of its own that has some bytes is looked at. -/
theorem showsBehind_line (hline : Unbroken line) (hne : line ≠ []) (e e' : Eol) (more : Bytes) :
    showsBehind e (line ++ (e'.bytes ++ more)) = (isExpectLine line || showsBehind e' more) := by
  have hopen : ¬ Closes e (line ++ (e'.bytes ++ more)) := by
    rintro ⟨-, htake⟩
    obtain ⟨b, line, rfl⟩ := List.exists_cons_of_ne_nil hne
    rw [List.cons_append, List.take_succ_cons, List.cons.injEq] at htake
    exact (hline b List.mem_cons_self).1 htake.1
  rw [showsBehind, showsExpect_line hline]
  simp [hopen]

/-- An empty line has nothing to look at. It ends the look where two of CR and LF meet. -/
theorem showsBehind_emptyLine (e e' : Eol) (more : Bytes) :
    showsBehind e (e'.bytes ++ more) ↔ ¬ (e = .crlf ∧ e' = .crlf) ∧ showsBehind e' more := by
  have hnil : Unbroken [] := List.forall_mem_nil _
  have hcloses : Closes e (e'.bytes ++ more) ↔ e = .crlf ∧ e' = .crlf := by
    cases e' <;> simp [Closes, Eol.bytes]
  have hnone : isExpectLine [] = false := by decide +kernel
  have hshows := showsExpect_line hnil e' more
  rw [List.nil_append, hnone, Bool.false_or] at hshows
  rw [showsBehind, hshows, Bool.and_eq_true, Bool.not_eq_true', decide_eq_false_iff_not, hcloses]

end Session

/-! ### Heads -/

namespace FieldText

variable (f : FieldText)

/-- What stands behind the colon, blanks included. -/
def gap : Bytes := f.before ++ (f.value ++ f.after)

/-- An `Expect` field that is not just a name and a colon. -/
def Noticed : Prop := lowercase f.name = fieldName "expect" ∧ f.gap ≠ []

instance : Decidable f.Noticed := inferInstanceAs (Decidable (_ ∧ _))

theorem wire_eq : f.wire = (f.name ++ 0x3A :: f.gap) ++ f.eol.bytes := by simp [wire, gap]

theorem unbroken_of_fieldValue {bs : Bytes} (h : ∀ b ∈ bs, isFieldValue b) :
    Session.Unbroken bs := by
  intro b hb
  have hshown := h b hb
  constructor <;> rintro rfl <;> exact absurd hshown (by decide)

theorem unbroken_of_token {bs : Bytes} (h : ∀ b ∈ bs, isToken b) : Session.Unbroken bs :=
  fun b hb => HeadGrammar.isToken_lineEnd (h b hb)

theorem unbroken_gap : Session.Unbroken f.gap := by
  refine unbroken_of_fieldValue fun b hb => ?_
  simp only [gap, List.mem_append] at hb
  rcases hb with hb | hb | hb
  · exact HeadGrammar.isBlank_fieldValue (f.blankBefore b hb)
  · exact f.shown b hb
  · exact HeadGrammar.isBlank_fieldValue (f.blankAfter b hb)

theorem unbroken_line : Session.Unbroken (f.name ++ 0x3A :: f.gap) := by
  intro b hb
  rcases List.mem_append.1 hb with hb | hb
  · exact unbroken_of_token f.token b hb
  · rcases List.mem_cons.1 hb with rfl | hb
    · decide
    · exact f.unbroken_gap b hb

/-- A word without a colon, and what stands behind the first one. -/
theorem colon_split {xs xs' ys ys' : Bytes} {b : UInt8} (hxs : ∀ x ∈ xs, x ≠ 0x3A ∧ x ≠ b)
    (hxs' : ∀ x ∈ xs', x ≠ 0x3A ∧ x ≠ b) (h : xs ++ b :: ys = xs' ++ 0x3A :: ys') :
    xs = xs' ∧ b = 0x3A ∧ ys = ys' := by
  have hcls {zs : Bytes} (hzs : ∀ x ∈ zs, x ≠ 0x3A ∧ x ≠ b) :
      ∀ x ∈ zs, decide (x ≠ 0x3A ∧ x ≠ b) = true := fun x hx => decide_eq_true (hzs x hx)
  obtain ⟨htake, hdrop⟩ := HeadGrammar.span_written (hcls hxs)
    (b := b) (decide_eq_false fun hno => hno.2 rfl) ys
  obtain ⟨htake', hdrop'⟩ := HeadGrammar.span_written (hcls hxs')
    (b := 0x3A) (decide_eq_false fun hno => hno.1 rfl) ys'
  rw [h] at htake hdrop
  obtain ⟨hb, hys⟩ := List.cons.inj (hdrop.symm.trans hdrop')
  exact ⟨htake.symm.trans htake', hb, hys⟩

theorem expect_of_lowercase {name : Bytes} (h : lowercase name = fieldName "expect") {b : UInt8}
    (hb : b ∉ fieldName "expect") (hfixed : toLower b = b) : b ∉ name := by
  intro hin
  rw [← h] at hb
  exact hb (hfixed ▸ List.mem_map_of_mem hin)

theorem isExpectLine_iff_noticed :
    Session.isExpectLine (f.name ++ 0x3A :: f.gap) ↔ f.Noticed := by
  rw [Session.isExpectLine_iff f.unbroken_line]
  constructor
  · rintro ⟨name, gap, hsplit, hname, hgap⟩
    have hcolon : (0x3A : UInt8) ∉ name := expect_of_lowercase hname (by decide) (by decide)
    have htoken : ∀ x ∈ f.name, x ≠ 0x3A ∧ x ≠ 0x3A := by
      intro x hx
      have hx := f.token x hx
      constructor <;> rintro rfl <;> exact absurd hx (by decide +kernel)
    obtain ⟨hsame, -, hbehind⟩ := colon_split htoken
      (fun x hx => ⟨fun h => hcolon (h ▸ hx), fun h => hcolon (h ▸ hx)⟩) hsplit
    exact ⟨hsame ▸ hname, hbehind ▸ hgap⟩
  · rintro ⟨hname, hgap⟩
    exact ⟨f.name, f.gap, rfl, hname, hgap⟩

end FieldText

namespace HeadText

/-- The line end in front of the last empty line, where the lines so far end with `e`. -/
def endEol (e : Eol) (fs : List FieldText) : Eol := fs.foldl (fun _ f => f.eol) e

variable (h : HeadText)

/-- The empty lines in front do not end the look: no two of CR and LF follow one another. -/
def Reached : Prop := h.emptyLines.IsChain fun e e' => ¬ (e = .crlf ∧ e' = .crlf)

/-- The end of the head ends the look. -/
def Closed : Prop := endEol h.eol h.fields = .crlf ∧ h.lastEol = .crlf

def startLine : Bytes := h.method ++ 0x20 :: (h.target ++ 0x20 :: Bytes.ofString h.version.text)

theorem wire_eq : h.wire = h.emptyLines.flatMap Eol.bytes ++ (h.startLine ++ (h.eol.bytes ++
    (h.fields.flatMap FieldText.wire ++ h.lastEol.bytes))) := by
  simp [wire, startLine]

theorem unbroken_startLine : Session.Unbroken h.startLine := by
  have hversion : Session.Unbroken (Bytes.ofString h.version.text) := by
    rcases h.known with hv | hv <;> rw [hv] <;> unfold Session.Unbroken <;> decide +kernel
  intro b hb
  simp only [startLine, List.mem_append, List.mem_cons] at hb
  rcases hb with hb | rfl | hb | rfl | hb
  · exact FieldText.unbroken_of_token h.token b hb
  · decide
  · have hvisible := h.visible b hb
    constructor <;> rintro rfl <;> exact absurd hvisible (by decide)
  · decide
  · exact hversion b hb

/-- The method has no colon, and a space stands behind it. -/
theorem not_isExpectLine_startLine : Session.isExpectLine h.startLine = false := by
  refine Bool.eq_false_iff.2 fun hexpect => ?_
  obtain ⟨name, gap, hsplit, hname, -⟩ := (Session.isExpectLine_iff h.unbroken_startLine).1 hexpect
  have hcolon : (0x3A : UInt8) ∉ name :=
    FieldText.expect_of_lowercase hname (by decide) (by decide)
  have hspace : (0x20 : UInt8) ∉ name :=
    FieldText.expect_of_lowercase hname (by decide) (by decide)
  have htoken : ∀ x ∈ h.method, x ≠ 0x3A ∧ x ≠ 0x20 := by
    intro x hx
    have hx := h.token x hx
    constructor <;> rintro rfl <;> exact absurd hx (by decide +kernel)
  have hsame := FieldText.colon_split htoken
    (fun x hx => ⟨fun he => hcolon (he ▸ hx), fun he => hspace (he ▸ hx)⟩) hsplit
  exact absurd hsame.2.1 (by decide)

end HeadText

namespace Session

theorem announcesExpect_eol (e : Eol) (rest : Bytes) :
    announcesExpect (e.bytes ++ rest) = showsBehind e rest :=
  announcesExpect_line (List.forall_mem_nil _) e rest

/-- The fields, and then what stands behind the head unless its end ends the look. -/
theorem showsBehind_fields (e : Eol) (fs : List FieldText) (last : Eol) (rest : Bytes) :
    showsBehind e (fs.flatMap FieldText.wire ++ (last.bytes ++ rest)) ↔
      (∃ f ∈ fs, f.Noticed) ∨ ¬ (HeadText.endEol e fs = .crlf ∧ last = .crlf) ∧
        announcesExpect (last.bytes ++ rest) := by
  induction fs generalizing e with
  | nil =>
    rw [List.flatMap_nil, List.nil_append, showsBehind_emptyLine, announcesExpect_eol]
    simp only [HeadText.endEol, List.foldl_nil, List.not_mem_nil, false_and, exists_false, false_or]
  | cons f fs ih =>
    have hne : f.name ++ 0x3A :: f.gap ≠ [] := by simp
    rw [List.flatMap_cons, f.wire_eq, List.append_assoc, List.append_assoc,
      showsBehind_line f.unbroken_line hne, Bool.or_eq_true, f.isExpectLine_iff_noticed, ih,
      List.exists_mem_cons_iff, or_assoc]
    rfl

theorem showsBehind_emptyLines (h : HeadText) (e : Eol) (es : List Eol) (more : Bytes) :
    showsBehind e (es.flatMap Eol.bytes ++ (h.startLine ++ (h.eol.bytes ++ more))) ↔
      (e :: es).IsChain (fun e e' => ¬ (e = .crlf ∧ e' = .crlf)) ∧ showsBehind h.eol more := by
  induction es generalizing e with
  | nil =>
    have hne : h.startLine ≠ [] := by simp [HeadText.startLine]
    rw [List.flatMap_nil, List.nil_append, showsBehind_line h.unbroken_startLine hne,
      h.not_isExpectLine_startLine, Bool.false_or]
    simp
  | cons e' es ih =>
    rw [List.flatMap_cons, List.append_assoc, showsBehind_emptyLine, ih, List.isChain_cons_cons,
      and_assoc]

/-- What is seen of a head that was written, with anything behind it. -/
theorem announcesExpect_wire (h : HeadText) (rest : Bytes) :
    announcesExpect (h.wire ++ rest) ↔ h.Reached ∧ ((∃ f ∈ h.fields, f.Noticed) ∨
      ¬ h.Closed ∧ announcesExpect (h.lastEol.bytes ++ rest)) := by
  have hfields := showsBehind_fields h.eol h.fields h.lastEol rest
  rw [h.wire_eq, HeadText.Reached]
  simp only [List.append_assoc]
  cases h.emptyLines with
  | nil =>
    rw [List.flatMap_nil, List.nil_append, announcesExpect_line h.unbroken_startLine, hfields]
    simp [HeadText.Closed]
  | cons e es =>
    rw [List.flatMap_cons, List.append_assoc, announcesExpect_eol, showsBehind_emptyLines, hfields]
    rfl

end Session

theorem Fields.contains_ofList_iff (lines : List (Bytes × Bytes)) (name : Bytes) :
    (ofList lines).contains name ↔ ∃ line ∈ lines, lowercase line.1 = name := by
  refine ⟨exists_line_of_contains, fun ⟨line, hline, hname⟩ => ?_⟩
  by_contra hnot
  have hnone := getAll_of_not_contains hnot
  rw [getAll_ofList, List.map_eq_nil_iff, List.filter_eq_nil_iff] at hnone
  exact hnone line hline (decide_eq_true hname)

theorem HeadText.hasExpect_iff (h : HeadText) :
    h.head.hasExpect ↔ ∃ f ∈ h.fields, lowercase f.name = fieldName "expect" := by
  rw [RequestHead.hasExpect, head, Fields.contains_ofList_iff, lines]
  simp [FieldText.line]

namespace Session

/-- Whether what is seen is what there is, whatever stands behind the head. -/
theorem announcesExpect_always_iff (h : HeadText) :
    (∀ rest, announcesExpect (h.wire ++ rest) = h.head.hasExpect) ↔
      if h.head.hasExpect then h.Reached ∧ ∃ f ∈ h.fields, f.Noticed
      else h.Reached → h.Closed := by
  have hnothing : announcesExpect (h.lastEol.bytes ++ []) = false := by
    cases h.lastEol <;> decide +kernel
  have hexpect : announcesExpect (h.lastEol.bytes ++ Bytes.ofString "Expect: x") = true := by
    cases h.lastEol <;> decide +kernel
  have hseen (rest : Bytes) (known : Bool) : announcesExpect (h.wire ++ rest) = known ↔
      (h.Reached ∧ ((∃ f ∈ h.fields, f.Noticed) ∨
        ¬ h.Closed ∧ announcesExpect (h.lastEol.bytes ++ rest)) ↔ known) := by
    rw [Bool.eq_iff_iff, announcesExpect_wire]
  simp only [hseen]
  cases hhas : h.head.hasExpect with
  | true =>
    simp only [if_true, iff_true]
    refine ⟨fun hall => ?_, fun ⟨hreached, hnoticed⟩ rest => ⟨hreached, .inl hnoticed⟩⟩
    have hfirst := hall []
    rwa [hnothing, Bool.false_eq_true, and_false, or_false] at hfirst
  | false =>
    have hunnoticed : ¬ ∃ f ∈ h.fields, f.Noticed := by
      rintro ⟨f, hf, hname, -⟩
      rw [h.hasExpect_iff.2 ⟨f, hf, hname⟩] at hhas
      cases hhas
    simp only [hunnoticed, false_or, Bool.false_eq_true, if_false, iff_false, not_and]
    refine ⟨fun hall hreached => ?_,
      fun hclosed rest hreached hopen => absurd (hclosed hreached) hopen⟩
    by_contra hopen
    exact hall _ hreached hopen hexpect

/-- What the look at the raw bytes sees of a head that is decoded. It sees an `Expect` field exactly
if no two of CR and LF stand in front of the request line, and some `Expect` line has something
behind its colon, or else, where the head does not end with two of CR and LF, such a line stands
behind it, up to the next place where two of them meet. So it says what the decoded head says,
whatever stands behind, exactly if it gets to the fields and one of them has something behind the
colon, or, where there is no such field, if it stops at the end of the head or before. What it says
decides whether a body that was announced as too large is answered with 417 or with 413. -/
theorem expect_seen_by_spelling {π : Type} {src rest : Bytes} {head : RequestHead} {size : BodySize}
    (h : HeadDecoder.decode src = (rest, .ok (some (head, size)))) :
    ∃ t : HeadText, src = t.wire ++ rest ∧ t.head = head ∧
      (head.hasExpect ↔ ∃ f ∈ t.fields, lowercase f.name = fieldName "expect") ∧
      (announcesExpect src ↔ t.Reached ∧ ((∃ f ∈ t.fields, f.Noticed) ∨
        ¬ t.Closed ∧ announcesExpect (t.lastEol.bytes ++ rest))) ∧
      ((∀ other, announcesExpect (t.wire ++ other) = head.hasExpect) ↔
        if head.hasExpect then t.Reached ∧ ∃ f ∈ t.fields, f.Noticed
        else t.Reached → t.Closed) ∧
      ∀ s : Session π, s.current = none → s.buffer = src → ∀ n limit,
        s.rejectRequest s.expecting (.bodyTooLarge n limit) =
          s.fail .v11 (if announcesExpect src then 417 else 413) := by
  obtain ⟨t, rfl, rfl⟩ := HeadDecoder.exists_spelling h
  refine ⟨t, rfl, rfl, t.hasExpect_iff, announcesExpect_wire t rest, announcesExpect_always_iff t,
    fun s hcurrent hbuffer n limit => ?_⟩
  rw [rejectRequest, expecting, hcurrent, hbuffer]
  rfl

/-- An `Expect` field with nothing behind its colon. -/
def bareExpect : Bytes :=
  Bytes.ofString "POST / HTTP/1.1\r\nExpect:\r\nContent-Length: 9\r\n\r\n"

def bareExpectHead : RequestHead where
  method := Bytes.ofString "POST"
  uri := { pathPart := [0x2F] }
  version := .v11
  fields := .ofList [(Bytes.ofString "Expect", []), (Bytes.ofString "Content-Length", [0x39])]

theorem expect_seen_by_spelling_bare :
    HeadDecoder.decode bareExpect = ([], .ok (some (bareExpectHead, .length 9))) ∧
      bareExpectHead.hasExpect ∧ announcesExpect bareExpect = false ∧
      ∃ t : HeadText, bareExpect = t.wire ∧ t.head = bareExpectHead ∧
        ¬ (t.Reached ∧ ∃ f ∈ t.fields, f.Noticed) := by
  have hdecode : HeadDecoder.decode bareExpect = ([], .ok (some (bareExpectHead, .length 9))) := rfl
  have hunseen : announcesExpect bareExpect = false := by decide +kernel
  obtain ⟨t, hsrc, hhead, -, hseen, -⟩ := expect_seen_by_spelling (π := Unit) hdecode
  refine ⟨hdecode, by decide +kernel, hunseen, t, by simpa using hsrc, hhead, ?_⟩
  rintro ⟨hreached, hnoticed⟩
  rw [hseen.2 ⟨hreached, .inl hnoticed⟩] at hunseen
  cases hunseen

/-- Two empty lines in front hide the field. -/
example : announcesExpect
    (Bytes.ofString "\r\n\r\nPOST / HTTP/1.1\r\nExpect: x\r\n\r\n") = false := by
  decide +kernel

/-- Behind lines that end in LF the body is looked at too. -/
example : announcesExpect
    (Bytes.ofString "POST / HTTP/1.1\nContent-Length: 9\n\nExpect: x") = true := by
  decide +kernel

end Session

end WireServer.Http
