import WireServer.Proofs.Http.HeadPieces
import WireServer.Http.Session

/-! Field names stand at the start of a line. So a text in which no line starts with some name holds
no head with that field, whether the head is decoded or only looked at. -/

namespace WireServer.Http

/-- Some line of the text starts with the word, in any case. -/
def LineStarts (word text : Bytes) : Prop :=
  ∃ front back, text = front ++ back ∧ (∀ b ∈ front.getLast?, b = 0x0A) ∧
    sameIgnoringCase (back.take word.length) word

/-- Each place of the text is tried. -/
def lineStarts (word text : Bytes) : Bool :=
  (List.range (text.length + 1)).any fun n => (text.take n).getLast?.all (· = 0x0A) &&
    sameIgnoringCase ((text.drop n).take word.length) word

theorem lineStarts_iff (word text : Bytes) : lineStarts word text ↔ LineStarts word text := by
  simp only [lineStarts, List.any_eq_true, List.mem_range, Bool.and_eq_true, Option.all_eq_true,
    decide_eq_true_eq]
  constructor
  · rintro ⟨n, -, hfront, hback⟩
    exact ⟨text.take n, text.drop n, (List.take_append_drop n text).symm, hfront, hback⟩
  · rintro ⟨front, back, rfl, hfront, hback⟩
    exact ⟨front.length, by rw [List.length_append]; omega, by rwa [List.take_left],
      by rwa [List.drop_left]⟩

instance (word text : Bytes) : Decidable (LineStarts word text) :=
  decidable_of_iff _ (lineStarts_iff word text)

theorem length_of_sameIgnoringCase {xs ys : Bytes} (h : sameIgnoringCase xs ys) :
    xs.length = ys.length := by
  simpa [sameIgnoringCase, lowercase] using congrArg List.length (of_decide_eq_true h)

/-- A line of a part of the text, other than the first of the part, is a line of the text. -/
theorem LineStarts.of_part {word used part future front line : Bytes}
    (hpart : part = front ++ 0x0A :: line) (hline : sameIgnoringCase (line.take word.length) word) :
    LineStarts word (used ++ part ++ future) := by
  have hlen := length_of_sameIgnoringCase hline
  rw [List.length_take] at hlen
  refine ⟨used ++ front ++ [0x0A], line ++ future, by simp [hpart], by simp, ?_⟩
  rwa [List.take_append_of_le_length (by omega)]

/-! ### Heads that are only looked at -/

/-- The first piece stands at the front of the text, and each later one behind a line feed. -/
theorem pieces_placed {text w : Bytes} {ws : List Bytes}
    (h : pieces (· = 0x0A) text = w :: ws) :
    w <+: text ∧ ∀ line ∈ ws, ∃ front back, text = front ++ 0x0A :: (line ++ back) := by
  induction text generalizing w ws with
  | nil =>
    cases h
    exact ⟨List.prefix_refl _, List.forall_mem_nil _⟩
  | cons b text ih =>
    rcases hrest : pieces (· = 0x0A) text with _ | ⟨w', ws'⟩
    · rw [pieces, hrest] at h
      cases h
      exact ⟨⟨text, rfl⟩, List.forall_mem_nil _⟩
    · obtain ⟨⟨back, hback⟩, hlater⟩ := ih hrest
      have hbehind : ∀ line ∈ ws', ∃ front back, b :: text = front ++ 0x0A :: (line ++ back) := by
        intro line hline
        obtain ⟨front, back, rfl⟩ := hlater line hline
        exact ⟨b :: front, back, rfl⟩
      rw [pieces, hrest] at h
      by_cases hb : b = 0x0A
      · simp only [hb, decide_true, if_true] at h
        cases h
        refine ⟨⟨_, rfl⟩, fun line hline => ?_⟩
        rcases List.mem_cons.1 hline with rfl | hline
        · exact ⟨[], back, by rw [hback, hb]; rfl⟩
        · exact hb ▸ hbehind line hline
      · simp only [hb, decide_false, Bool.false_eq_true, if_false] at h
        cases h
        exact ⟨⟨back, by rw [← hback]; rfl⟩, hbehind⟩

theorem headBytes_prefix (raw : Bytes) : Session.headBytes raw <+: raw := by
  induction raw with
  | nil => exact List.prefix_refl _
  | cons b raw ih =>
    rw [Session.headBytes]
    split
    · exact List.nil_prefix
    · exact (List.prefix_cons_inj b).2 ih

theorem take_dropLast {xs : Bytes} {n : Nat} (h : n < xs.length) :
    xs.dropLast.take n = xs.take n := by
  rw [List.dropLast_eq_take, List.take_take, Nat.min_eq_left (by omega)]

/-- The end of such a line does not matter. -/
theorem same_of_isExpectLine {line : Bytes} (h : Session.isExpectLine line) :
    sameIgnoringCase (line.take 7) (Bytes.ofString "expect:") := by
  unfold Session.isExpectLine at h
  dsimp only at h
  split at h
  · simp only [Bool.and_eq_true, decide_eq_true_eq, List.length_dropLast] at h
    rw [take_dropLast (by omega)] at h
    exact h.2
  · simp only [Bool.and_eq_true] at h
    exact h.2

theorem length_expect : (Bytes.ofString "expect:").length = 7 := by decide

theorem not_announcesExpect (used : Bytes) {raw : Bytes} (future : Bytes)
    (h : ¬ LineStarts (Bytes.ofString "expect:") (used ++ raw ++ future)) :
    Session.announcesExpect raw = false := by
  refine Bool.eq_false_iff.2 fun hann => h ?_
  rw [Session.announcesExpect, List.any_eq_true] at hann
  obtain ⟨line, hline, hexpect⟩ := hann
  obtain ⟨behind, hraw⟩ := headBytes_prefix raw
  rcases hpieces : pieces (· = 0x0A) (Session.headBytes raw) with _ | ⟨w, ws⟩
  · rw [hpieces] at hline
    cases hline
  · rw [hpieces] at hline
    obtain ⟨front, back, hplace⟩ := (pieces_placed hpieces).2 line hline
    have hsame := same_of_isExpectLine hexpect
    have hlen := length_of_sameIgnoringCase hsame
    rw [List.length_take, length_expect] at hlen
    have hline : raw = front ++ 0x0A :: (line ++ (back ++ behind)) := by
      rw [← hraw, hplace]
      simp
    refine LineStarts.of_part hline ?_
    rw [length_expect, List.take_append_of_le_length (by omega)]
    exact hsame

/-! ### Heads that are decoded -/

theorem Scan.andThen_eq_done {α β : Type} {s : Scan α} {next : α → Bytes → Scan β} {b : β}
    {rest : Bytes} (h : s.andThen next = .done b rest) :
    ∃ a mid, s = .done a mid ∧ next a mid = .done b rest := by
  cases s with
  | done a mid => exact ⟨a, mid, rfl, h⟩
  | more => cases h
  | bad fault => cases h

namespace HeadGrammar

/-- A line end ends with a line feed. -/
theorem exists_of_lineEnd {fault : HeadFault} {src rest : Bytes} {u : Unit}
    (h : lineEnd fault src = .done u rest) : ∃ front, src = front ++ 0x0A :: rest := by
  cases lineStart src with
  | nil | cr => cases h
  | lf bs =>
    cases h
    exact ⟨[], rfl⟩
  | crlf bs =>
    cases h
    exact ⟨[0x0D], rfl⟩
  | bareCr bs hb => simp [lineEnd_bareCr fault hb] at h
  | other bs hcr hlf => simp [lineEnd_other fault hcr hlf] at h

theorem suffix_of_skipEmptyLines {src rest : Bytes} {u : Unit}
    (h : skipEmptyLines src = .done u rest) : rest <:+ src := by
  fun_induction skipEmptyLines src with
  | case1 | case3 | case4 => cases h
  | case2 bs ih => exact (ih h).trans ⟨[0x0D, 0x0A], rfl⟩
  | case5 bs ih => exact (ih h).trans ⟨[0x0A], rfl⟩
  | case6 =>
    cases h
    exact List.suffix_refl _

/-- What a reader leaves stands at the end of what it was given. -/
theorem suffix_of_sure {α : Type} {f : Bytes → Scan α} (hf : Scan.Sure f 1) {n : Nat}
    {src rest : Bytes} {a : α} (htakes : (f src).Takes n src) (h : f src = .done a rest) :
    rest <:+ src := by
  have hlen := htakes a rest h
  obtain ⟨front, rfl, -⟩ := hf.cut h (by omega)
  exact List.suffix_append front rest

/-- A field line is a name, a colon, and more that ends with a line feed. -/
theorem exists_of_fieldLine {src rest : Bytes} {field : Bytes × Bytes}
    (h : fieldLine src = .done field rest) :
    ∃ text, src = field.1 ++ 0x3A :: (text ++ 0x0A :: rest) := by
  unfold fieldLine at h
  split at h
  · cases h
  · rename_i behind hdrop
    simp only at h
    split at h
    · cases h
    obtain ⟨value, left, hvalue, hfield⟩ := Scan.andThen_eq_done h
    cases hfield
    unfold fieldValue at hvalue
    obtain ⟨_, left, hend, hdone⟩ := Scan.andThen_eq_done hvalue
    cases hdone
    obtain ⟨front, hfront⟩ := exists_of_lineEnd hend
    refine ⟨behind.takeWhile isBlank ++ (behind.dropWhile isBlank).takeWhile isFieldValue ++ front,
      ?_⟩
    rw [List.append_assoc, ← hfront, List.append_assoc, List.takeWhile_append_dropWhile,
      List.takeWhile_append_dropWhile, ← hdrop, List.takeWhile_append_dropWhile]
  · cases h

/-- Behind a line feed, the name of each field stands behind a line feed. -/
theorem fieldLines_placed {room : Nat} {src rest : Bytes} {fields : List (Bytes × Bytes)}
    (h : fieldLines room src = .done fields rest) :
    ∀ field ∈ fields, ∃ front back, 0x0A :: src = front ++ 0x0A :: (field.1 ++ 0x3A :: back) := by
  induction room generalizing src fields with
  | zero =>
    rcases src with _ | ⟨b, bs⟩
    · cases h
    rw [fieldLines] at h
    split at h
    · obtain ⟨_, left, -, hdone⟩ := Scan.andThen_eq_done h
      cases hdone
      exact List.forall_mem_nil _
    · obtain ⟨field, left, -, hdone⟩ := Scan.andThen_eq_done h
      cases hdone
  | succ room ih =>
    rcases src with _ | ⟨b, bs⟩
    · cases h
    rw [fieldLines] at h
    split at h
    · obtain ⟨_, left, -, hdone⟩ := Scan.andThen_eq_done h
      cases hdone
      exact List.forall_mem_nil _
    · obtain ⟨field, left, hfield, hmore⟩ := Scan.andThen_eq_done h
      obtain ⟨fields, left', hlines, hdone⟩ := Scan.andThen_eq_done hmore
      cases hdone
      obtain ⟨text, htext⟩ := exists_of_fieldLine hfield
      intro other hother
      rcases List.mem_cons.1 hother with rfl | hother
      · exact ⟨[], text ++ 0x0A :: left, by rw [htext]; rfl⟩
      · obtain ⟨front, back, hplace⟩ := ih hlines other hother
        refine ⟨0x0A :: (field.1 ++ 0x3A :: text) ++ front, back, ?_⟩
        rw [htext, List.append_assoc, ← hplace]
        simp

theorem head_placed {room : Nat} {src rest : Bytes} {parts : Parts}
    (h : head room src = .done parts rest) :
    ∀ field ∈ parts.fields, ∃ front back, src = front ++ 0x0A :: (field.1 ++ 0x3A :: back) := by
  obtain ⟨_, src₁, hskip, h⟩ := Scan.andThen_eq_done h
  obtain ⟨method, src₂, hmethod, h⟩ := Scan.andThen_eq_done h
  obtain ⟨target, src₃, htarget, h⟩ := Scan.andThen_eq_done h
  obtain ⟨version, src₄, hversion, h⟩ := Scan.andThen_eq_done h
  obtain ⟨_, src₅, hend, h⟩ := Scan.andThen_eq_done h
  obtain ⟨fields, left, hlines, h⟩ := Scan.andThen_eq_done h
  cases h
  have hsuffix : src₄ <:+ src :=
    (suffix_of_sure sure_version (takes_version _) hversion).trans <|
    (suffix_of_sure sure_target (takes_target _) htarget).trans <|
    (suffix_of_sure (sure_word isToken) (takes_word isToken _) hmethod).trans <|
    suffix_of_skipEmptyLines hskip
  obtain ⟨before, rfl⟩ := hsuffix
  obtain ⟨line, rfl⟩ := exists_of_lineEnd hend
  intro field hfield
  obtain ⟨front, back, hplace⟩ := fieldLines_placed hlines field hfield
  exact ⟨before ++ line ++ front, back, by rw [List.append_assoc, List.append_assoc, hplace]⟩

end HeadGrammar

namespace Fields

/-- The names that there are. -/
theorem contains_iff (h : Fields) (name : Bytes) :
    h.contains name ↔ name ∈ h.groups.map Prod.fst := by
  simp [contains, List.mem_map]

theorem contains_append {h : Fields} {name value other : Bytes}
    (hin : (h.append name value).contains other) : h.contains other ∨ other = name := by
  rw [contains_iff] at hin ⊢
  unfold append at hin
  split at hin
  · obtain ⟨g, hg, hname⟩ := List.mem_map.1 hin
    obtain ⟨g', hg', rfl⟩ := List.mem_map.1 hg
    refine .inl (List.mem_map.2 ⟨g', hg', ?_⟩)
    rw [← hname]
    split <;> rfl
  · simpa using hin

/-- Each name is that of a line. -/
theorem exists_line_of_contains {lines : List (Bytes × Bytes)} {name : Bytes}
    (h : (ofList lines).contains name) : ∃ line ∈ lines, lowercase line.1 = name := by
  have hfold (lines : List (Bytes × Bytes)) (fields : Fields)
      (hin : (lines.foldl (fun h l => h.append (lowercase l.1) l.2) fields).contains name) :
      fields.contains name ∨ ∃ line ∈ lines, lowercase line.1 = name := by
    induction lines generalizing fields with
    | nil => exact .inl hin
    | cons line lines ih =>
      rcases ih _ hin with hearlier | ⟨other, hother, hname⟩
      · rcases contains_append hearlier with hearlier | hname
        · exact .inl hearlier
        · exact .inr ⟨line, List.mem_cons_self, hname.symm⟩
      · exact .inr ⟨other, List.mem_cons_of_mem _ hother, hname⟩
  exact (hfold lines empty h).resolve_left (by simp [empty, contains])

end Fields

namespace HeadDecoder

/-- A head in the text has no field whose name starts none of its lines. -/
theorem not_contains (used future : Bytes) {src rest name : Bytes} {head : RequestHead}
    {size : BodySize}
    (h : decode src = (rest, .ok (some (head, size)))) (hname : lowercase name = name)
    (hlines : ¬ LineStarts (name ++ [0x3A]) (used ++ src ++ future)) :
    head.fields.contains name = false := by
  obtain ⟨parts, hreads⟩ := exists_reads ⟨head, h⟩
  obtain ⟨uri, -, hdecode⟩ := hreads.decode_eq
  have hfields : head.fields = .ofList parts.fields := by
    rw [h] at hdecode
    cases hsize : BodySize.ofFields (.ofList parts.fields) with
    | error e => simp [hsize, Except.map] at hdecode
    | ok size =>
      simp only [hsize, Except.map, Prod.mk.injEq, Except.ok.injEq, Option.some.injEq] at hdecode
      rw [hdecode.2.1]
  refine Bool.eq_false_iff.2 fun hin => hlines ?_
  rw [hfields] at hin
  obtain ⟨field, hfield, hsame⟩ := Fields.exists_line_of_contains hin
  obtain ⟨front, back, hplace⟩ := HeadGrammar.head_placed hreads.parsed field hfield
  have hlen : field.1.length = name.length := by
    rw [← hsame]
    simp [lowercase]
  refine LineStarts.of_part hplace ?_
  rw [List.length_append, List.length_singleton, ← hlen, List.take_length_add_append]
  simpa [sameIgnoringCase, lowercase] using hsame.trans hname.symm

end HeadDecoder

end WireServer.Http
