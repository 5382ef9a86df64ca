import Mathlib.Data.List.DropRight
import WireServer.Proofs.Http.FieldStarts
import WireServer.Proofs.Http.RequestText

/-! The text behind a request head: whatever the readers take was written as a head is, line by
line, with the line ends and the blanks that it had. -/

namespace WireServer.Http

/-- Once trimmed, a text stays as it is. -/
theorem trim_trim (cls : UInt8 → Bool) (bs : Bytes) : trim cls (trim cls bs) = trim cls bs := by
  have hfront : ((bs.dropWhile cls).rdropWhile cls).dropWhile cls =
      (bs.dropWhile cls).rdropWhile cls := by
    refine List.dropWhile_eq_self_iff.2 fun hne => ?_
    have hbegin := List.rdropWhile_prefix cls (bs.dropWhile cls)
    rw [hbegin.getElem]
    exact List.dropWhile_get_zero_not cls bs (Nat.lt_of_lt_of_le hne hbegin.length_le)
  calc trim cls (trim cls bs)
      = (((bs.dropWhile cls).rdropWhile cls).dropWhile cls).rdropWhile cls := rfl
    _ = (bs.dropWhile cls).rdropWhile cls := by rw [hfront, List.rdropWhile_idempotent]

/-- What was taken off at either end. -/
theorem exists_of_trim (cls : UInt8 → Bool) (bs : Bytes) : ∃ before after,
    bs = before ++ (trim cls bs ++ after) ∧ (∀ b ∈ before, cls b) ∧ ∀ b ∈ after, cls b := by
  refine ⟨bs.takeWhile cls, (bs.dropWhile cls).rtakeWhile cls, ?_,
    fun b hb => List.mem_takeWhile_imp hb, fun b hb => List.mem_rtakeWhile_imp hb⟩
  calc bs = bs.takeWhile cls ++ bs.dropWhile cls := List.takeWhile_append_dropWhile.symm
    _ = bs.takeWhile cls ++ ((bs.dropWhile cls).rdropWhile cls ++
        (bs.dropWhile cls).rtakeWhile cls) := by rw [List.rdropWhile_append_rtakeWhile]

namespace HeadGrammar

variable {src rest : Bytes}

theorem spelled_lineEnd {fault : HeadFault} {u : Unit} (h : lineEnd fault src = .done u rest) :
    ∃ e : Eol, src = e.bytes ++ rest := by
  cases lineStart src with
  | nil | cr => cases h
  | lf bs =>
    cases h
    exact ⟨.lf, rfl⟩
  | crlf bs =>
    cases h
    exact ⟨.crlf, rfl⟩
  | bareCr bs hb => simp [lineEnd_bareCr fault hb] at h
  | other bs hcr hlf => simp [lineEnd_other fault hcr hlf] at h

theorem spelled_skipEmptyLines {u : Unit} (h : skipEmptyLines src = .done u rest) :
    ∃ es : List Eol, src = es.flatMap Eol.bytes ++ rest := by
  fun_induction skipEmptyLines src with
  | case1 | case3 | case4 => cases h
  | case2 bs ih =>
    obtain ⟨es, rfl⟩ := ih h
    exact ⟨.crlf :: es, rfl⟩
  | case5 bs ih =>
    obtain ⟨es, rfl⟩ := ih h
    exact ⟨.lf :: es, rfl⟩
  | case6 =>
    cases h
    exact ⟨[], rfl⟩

theorem spelled_word {cls : UInt8 → Bool} {w : Bytes} (h : word cls src = .done w rest) :
    src = w ++ 0x20 :: rest ∧ w ≠ [] ∧ ∀ b ∈ w, cls b := by
  unfold word at h
  split at h
  · cases h
  · rename_i behind hdrop
    simp only at h
    split at h
    · cases h
    rename_i hsome
    cases h
    refine ⟨?_, by simpa using hsome, fun b hb => List.mem_takeWhile_imp hb⟩
    rw [← hdrop, List.takeWhile_append_dropWhile]
  · cases h

theorem spelled_target {t : Bytes} (h : target src = .done t rest) :
    src = t ++ 0x20 :: rest ∧ t ≠ [] ∧ (∀ b ∈ t, isTarget b) ∧ Utf8.valid t := by
  obtain ⟨w, behind, hword, h⟩ := Scan.andThen_eq_done h
  obtain ⟨hsrc, hne, hall⟩ := spelled_word hword
  split at h
  · rename_i hvalid
    cases h
    exact ⟨hsrc, hne, hall, hvalid⟩
  · cases h

theorem spelled_version {v : Version} (h : version src = .done v rest) :
    src = Bytes.ofString v.text ++ rest ∧ (v = .v10 ∨ v = .v11) := by
  have hsplit := List.take_append_drop 8 src
  unfold version at h
  split at h
  · split at h <;> cases h
  split at h
  · rename_i hnew
    cases h
    exact ⟨by rw [Version.text, ← hnew, hsplit], .inr rfl⟩
  split at h
  · rename_i hold
    cases h
    exact ⟨by rw [Version.text, ← hold, hsplit], .inl rfl⟩
  · cases h

/-- The text of a value: blanks, the value, blanks, and the line end. -/
theorem spelled_fieldValue {value : Bytes} (h : fieldValue src = .done value rest) :
    ∃ before after, ∃ e : Eol, src = before ++ (value ++ (after ++ e.bytes)) ++ rest ∧
      (∀ b ∈ before, isBlank b) ∧ (∀ b ∈ after, isBlank b) ∧ (∀ b ∈ value, isFieldValue b) ∧
      trim isBlank value = value := by
  obtain ⟨_, behind, hend, hvalue⟩ := Scan.andThen_eq_done h
  obtain ⟨e, he⟩ := spelled_lineEnd hend
  cases hvalue
  obtain ⟨before, after, hrun, hbefore, hafter⟩ :=
    exists_of_trim isBlank ((src.dropWhile isBlank).takeWhile isFieldValue)
  have hshown : ∀ b ∈ (src.dropWhile isBlank).takeWhile isFieldValue, isFieldValue b :=
    fun b hb => List.mem_takeWhile_imp hb
  have hblank : ∀ b ∈ src.takeWhile isBlank, isBlank b := fun b hb => List.mem_takeWhile_imp hb
  refine ⟨src.takeWhile isBlank ++ before, after, e, ?_, ?_, hafter, fun b hb => ?_,
    trim_trim _ _⟩
  · calc src = src.takeWhile isBlank ++ ((src.dropWhile isBlank).takeWhile isFieldValue ++
          (src.dropWhile isBlank).dropWhile isFieldValue) := by
          rw [List.takeWhile_append_dropWhile, List.takeWhile_append_dropWhile]
      _ = src.takeWhile isBlank ++ (before ++ (trim isBlank
          ((src.dropWhile isBlank).takeWhile isFieldValue) ++ after) ++ (e.bytes ++ rest)) := by
          rw [← hrun, ← he]
      _ = _ := by simp only [List.append_assoc]
  · exact fun b hb => (List.mem_append.1 hb).elim (hblank b) (hbefore b)
  · refine hshown b ?_
    rw [hrun]
    simp [hb]

theorem spelled_fieldLine {field : Bytes × Bytes} (h : fieldLine src = .done field rest) :
    ∃ f : FieldText, src = f.wire ++ rest ∧ f.line = field := by
  unfold fieldLine at h
  split at h
  · cases h
  · rename_i behind hdrop
    simp only at h
    split at h
    · cases h
    rename_i hsome
    obtain ⟨value, left, hvalue, hfield⟩ := Scan.andThen_eq_done h
    cases hfield
    obtain ⟨before, after, e, hbehind, hbefore, hafter, hshown, htrimmed⟩ :=
      spelled_fieldValue hvalue
    refine ⟨⟨src.takeWhile isToken, before, value, after, e, by simpa using hsome,
      fun b hb => List.mem_takeWhile_imp hb, hbefore, hafter, hshown, htrimmed⟩, ?_, rfl⟩
    calc src = src.takeWhile isToken ++ 0x3A :: behind := by
          rw [← hdrop, List.takeWhile_append_dropWhile]
      _ = _ := by simp only [hbehind, FieldText.wire, List.append_assoc, List.cons_append]
  · cases h

theorem spelled_emptyLine {b : UInt8} {u : List (Bytes × Bytes)}
    (h : ((lineEnd .newLine (b :: src)).andThen fun _ rest => .done [] rest) = .done u rest) :
    ∃ e : Eol, b :: src = e.bytes ++ rest ∧ u = [] := by
  obtain ⟨_, left, hend, hdone⟩ := Scan.andThen_eq_done h
  cases hdone
  obtain ⟨e, he⟩ := spelled_lineEnd hend
  exact ⟨e, he, rfl⟩

theorem spelled_fieldLines {room : Nat} {fields : List (Bytes × Bytes)}
    (h : fieldLines room src = .done fields rest) :
    ∃ fs : List FieldText, ∃ e : Eol, src = fs.flatMap FieldText.wire ++ (e.bytes ++ rest) ∧
      fs.map FieldText.line = fields ∧ fs.length ≤ room := by
  induction room generalizing src fields with
  | zero =>
    rcases src with _ | ⟨b, bs⟩
    · cases h
    rw [fieldLines] at h
    split at h
    · obtain ⟨e, he, rfl⟩ := spelled_emptyLine h
      exact ⟨[], e, he, rfl, Nat.le_refl _⟩
    · obtain ⟨field, left, -, hdone⟩ := Scan.andThen_eq_done h
      cases hdone
  | succ room ih =>
    rcases src with _ | ⟨b, bs⟩
    · cases h
    rw [fieldLines] at h
    split at h
    · obtain ⟨e, he, rfl⟩ := spelled_emptyLine h
      exact ⟨[], e, he, rfl, Nat.zero_le _⟩
    · obtain ⟨field, left, hfield, hmore⟩ := Scan.andThen_eq_done h
      obtain ⟨fields, left', hlines, hdone⟩ := Scan.andThen_eq_done hmore
      cases hdone
      obtain ⟨f, hsrc, rfl⟩ := spelled_fieldLine hfield
      obtain ⟨fs, e, rfl, rfl, hlen⟩ := ih hlines
      refine ⟨f :: fs, e, ?_, rfl, Nat.succ_le_succ hlen⟩
      rw [hsrc, List.flatMap_cons, List.append_assoc]

end HeadGrammar

namespace HeadDecoder

variable {src rest : Bytes} {parts : HeadGrammar.Parts}

/-- A complete head was written as heads are. -/
theorem Reads.spelled (h : Reads src parts rest) :
    ∃ t : HeadText, src = t.wire ++ rest ∧ t.parts = parts := by
  obtain ⟨uri, huri⟩ := Option.isSome_iff_exists.1 h.target
  obtain ⟨_, src₁, hskip, h⟩ := Scan.andThen_eq_done h.parsed
  obtain ⟨method, src₂, hmethod, h⟩ := Scan.andThen_eq_done h
  obtain ⟨target, src₃, htarget, h⟩ := Scan.andThen_eq_done h
  obtain ⟨version, src₄, hversion, h⟩ := Scan.andThen_eq_done h
  obtain ⟨_, src₅, hend, h⟩ := Scan.andThen_eq_done h
  obtain ⟨fields, left, hlines, h⟩ := Scan.andThen_eq_done h
  cases h
  obtain ⟨es, rfl⟩ := HeadGrammar.spelled_skipEmptyLines hskip
  obtain ⟨rfl, hnamed, htoken⟩ := HeadGrammar.spelled_word hmethod
  obtain ⟨rfl, haimed, hvisible, htext⟩ := HeadGrammar.spelled_target htarget
  obtain ⟨rfl, hknown⟩ := HeadGrammar.spelled_version hversion
  obtain ⟨eol, rfl⟩ := HeadGrammar.spelled_lineEnd hend
  obtain ⟨fs, lastEol, rfl, rfl, hfew⟩ := HeadGrammar.spelled_fieldLines hlines
  exact ⟨⟨es, method, target, uri, version, eol, fs, lastEol, hnamed, htoken, haimed, hvisible,
    htext, huri, hknown, hfew⟩, by simp [HeadText.wire], rfl⟩

/-- A head that is decoded was written as heads are, and as it was meant. -/
theorem exists_spelling {head : RequestHead} {size : BodySize}
    (h : decode src = (rest, .ok (some (head, size)))) :
    ∃ t : HeadText, src = t.wire ++ rest ∧ t.head = head := by
  obtain ⟨parts, hreads⟩ := exists_reads ⟨head, h⟩
  obtain ⟨uri, huri, hdecode⟩ := hreads.decode_eq
  obtain ⟨t, hsrc, rfl⟩ := hreads.spelled
  obtain rfl : t.uri = uri := Option.some.inj (t.parsed.symm.trans huri)
  refine ⟨t, hsrc, ?_⟩
  rw [h] at hdecode
  cases hsize : BodySize.ofFields (.ofList t.parts.fields) with
  | error e => simp [hsize, Except.map] at hdecode
  | ok size =>
    simp only [hsize, Except.map, Prod.mk.injEq, Except.ok.injEq, Option.some.injEq] at hdecode
    exact hdecode.2.1.symm

end HeadDecoder

end WireServer.Http
