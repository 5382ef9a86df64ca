import WireServer.Http.HeadDecoder

/-! Complete request heads and the lines they consist of. No head is shorter than the limit below
which the decoder does not look, and the fields of a decoded head are those of its lines. -/

namespace WireServer.Http

/-! ### What a reader takes -/

/-- A reader that is done took at least `n` of the bytes it was given. -/
def Scan.Takes {α : Type} (s : Scan α) (n : Nat) (src : Bytes) : Prop :=
  ∀ a rest, s = .done a rest → rest.length + n ≤ src.length

theorem Scan.Takes.andThen {α β : Type} {s : Scan α} {next : α → Bytes → Scan β} {n m : Nat}
    {src : Bytes} (hs : s.Takes n src) (hnext : ∀ a rest, (next a rest).Takes m rest) :
    (s.andThen next).Takes (n + m) src := by
  intro b rest h
  cases s with
  | done a mid =>
    have hmid := hs a mid rfl
    have hrest := hnext a mid b rest h
    omega
  | more => cases h
  | bad fault => cases h

theorem Scan.Takes.of_le {α : Type} {s : Scan α} {n : Nat} {mid src : Bytes} (hs : s.Takes n mid)
    (hle : mid.length ≤ src.length) : s.Takes n src :=
  fun a rest h => Nat.le_trans (hs a rest h) hle

theorem Scan.Takes.mono {α : Type} {s : Scan α} {n m : Nat} {src : Bytes} (hs : s.Takes n src)
    (hle : m ≤ n) : s.Takes m src := by
  intro a rest h
  have := hs a rest h
  omega

theorem Scan.takes_done {α : Type} (a : α) (src : Bytes) : (Scan.done a src).Takes 0 src := by
  intro b rest h
  cases h
  exact Nat.le_refl _

namespace HeadGrammar

theorem takes_skipEmptyLines (src : Bytes) : (skipEmptyLines src).Takes 0 src := by
  fun_induction skipEmptyLines src with
  | case1 => intro _ _ h; cases h
  | case2 rest ih =>
    intro a left h
    have := ih a left h
    simp only [List.length_cons]
    omega
  | case3 => intro _ _ h; cases h
  | case4 => intro _ _ h; cases h
  | case5 rest ih =>
    intro a left h
    have := ih a left h
    simp only [List.length_cons]
    omega
  | case6 => exact Scan.takes_done _ _

theorem takes_lineEnd (fault : HeadFault) (src : Bytes) : (lineEnd fault src).Takes 1 src := by
  intro a left h
  fun_cases lineEnd fault src with
  | case1 => simp [lineEnd] at h
  | case2 rest =>
    simp only [lineEnd, Scan.done.injEq, true_and] at h
    simp only [← h, List.length_cons]
    omega
  | case3 => simp [lineEnd] at h
  | case4 rest =>
    simp only [lineEnd, Scan.done.injEq, true_and] at h
    simp only [← h, List.length_cons]
    omega
  | case5 => simp_all [lineEnd]

/-- A word is one byte or more, and a space stands behind it. -/
theorem takes_word (cls : UInt8 → Bool) (src : Bytes) : (word cls src).Takes 2 src := by
  intro w left h
  have hlen : src.length = (src.takeWhile cls).length + (src.dropWhile cls).length := by
    rw [← List.length_append, List.takeWhile_append_dropWhile]
  unfold word at h
  split at h
  · cases h
  · rename_i rest hdrop
    simp only at h
    split at h
    · cases h
    · rename_i hword
      cases h
      have hpos : 0 < (src.takeWhile cls).length := List.length_pos_iff.2 (by simpa using hword)
      rw [hdrop, List.length_cons] at hlen
      omega
  · cases h

theorem takes_target (src : Bytes) : (target src).Takes 2 src := by
  refine (takes_word isTarget src).andThen (m := 0) fun t rest => ?_
  split
  · exact Scan.takes_done _ _
  · intro _ _ h
    cases h

theorem takes_version (src : Bytes) : (version src).Takes 8 src := by
  intro v left h
  unfold version at h
  split at h
  · split at h <;> cases h
  · rename_i hlong
    have hdrop : (src.drop 8).length + 8 ≤ src.length := by
      rw [List.length_drop]
      omega
    split at h
    · cases h
      exact hdrop
    · split at h
      · cases h
        exact hdrop
      · cases h

theorem takes_fieldLine (src : Bytes) : (fieldLine src).Takes 1 src := by
  intro field left h
  have hdrop := (List.dropWhile_sublist (l := src) isToken).length_le
  unfold fieldLine at h
  split at h
  · cases h
  · rename_i rest hrest
    simp only at h
    split at h
    · cases h
    have hvalue : (fieldValue rest).Takes 1 rest := by
      have hblank := (List.dropWhile_sublist (l := rest) isBlank).length_le
      have hbytes := (List.dropWhile_sublist (l := rest.dropWhile isBlank) isFieldValue).length_le
      exact ((takes_lineEnd .fieldValue _).of_le (Nat.le_trans hbytes hblank)).andThen (m := 0)
        fun _ rest => Scan.takes_done _ _
    have htaken := hvalue.andThen (m := 0) (fun value rest => Scan.takes_done _ _) field left h
    rw [hrest, List.length_cons] at hdrop
    omega
  · cases h

/-- The last of the lines is the empty one. -/
theorem takes_fieldLines (room : Nat) (src : Bytes) : (fieldLines room src).Takes 1 src := by
  induction room generalizing src with
  | zero =>
    cases src with
    | nil => intro _ _ h; cases h
    | cons b bs =>
      rw [fieldLines]
      split
      · exact (takes_lineEnd .newLine _).andThen (m := 0) fun _ rest => Scan.takes_done _ _
      · refine (takes_fieldLine _).andThen (m := 0) fun field rest => ?_
        intro _ _ h
        cases h
  | succ room ih =>
    cases src with
    | nil => intro _ _ h; cases h
    | cons b bs =>
      rw [fieldLines]
      split
      · exact (takes_lineEnd .newLine _).andThen (m := 0) fun _ rest => Scan.takes_done _ _
      · refine (takes_fieldLine _).andThen (m := 0) fun field rest => ?_
        exact ((ih rest).andThen (m := 0) fun fields rest => Scan.takes_done _ _).mono (by omega)

/-- No head is shorter than the shortest request. -/
theorem takes_head (room : Nat) (src : Bytes) :
    (head room src).Takes HeadDecoder.minBytes src := by
  refine (takes_skipEmptyLines src).andThen (m := 14) fun _ src => ?_
  refine (takes_word isToken src).andThen (m := 12) fun method src => ?_
  refine (takes_target src).andThen (m := 10) fun target src => ?_
  refine (takes_version src).andThen (m := 2) fun version src => ?_
  refine (takes_lineEnd .newLine src).andThen (m := 1) fun _ src => ?_
  exact (takes_fieldLines room src).andThen (m := 0) fun fields rest => Scan.takes_done _ _

end HeadGrammar

/-! ### The lines of a name -/

/-- The values of the field lines with a name, in any case, in their order. -/
def HeadGrammar.Parts.values (p : HeadGrammar.Parts) (name : Bytes) : List Bytes :=
  (p.fields.filter fun line => lowercase line.1 = name).map Prod.snd

namespace Fields

theorem getAll_cons (g : Bytes × List Bytes) (gs : List (Bytes × List Bytes)) (name : Bytes) :
    getAll ⟨g :: gs⟩ name = if g.1 = name then g.2 else getAll ⟨gs⟩ name := by
  by_cases h : g.1 = name <;> simp [getAll, h]

theorem getAll_of_not_contains {h : Fields} {name : Bytes} (hnot : ¬ h.contains name) :
    h.getAll name = [] := by
  obtain ⟨gs⟩ := h
  induction gs with
  | nil => rfl
  | cons g gs ih =>
    simp only [contains, List.any_cons, Bool.or_eq_true, beq_iff_eq, not_or] at hnot
    rw [getAll_cons, if_neg hnot.1, ih (by simpa [contains] using hnot.2)]

theorem getAll_concat (gs : List (Bytes × List Bytes)) (g : Bytes × List Bytes) (name : Bytes) :
    getAll ⟨gs ++ [g]⟩ name =
      if contains ⟨gs⟩ name then getAll ⟨gs⟩ name else if g.1 = name then g.2 else [] := by
  induction gs with
  | nil => rw [List.nil_append, getAll_cons]; rfl
  | cons h gs ih =>
    rw [List.cons_append, getAll_cons, getAll_cons, ih]
    by_cases hname : h.1 = name
    · simp [contains, hname]
    · have hcontains : contains ⟨h :: gs⟩ name = contains ⟨gs⟩ name := by simp [contains, hname]
      rw [if_neg hname, if_neg hname, hcontains]

/-- One more value for one name, at the end of those that it has. -/
theorem getAll_map (gs : List (Bytes × List Bytes)) (name value other : Bytes) :
    getAll ⟨gs.map fun g => if g.1 == name then (g.1, g.2 ++ [value]) else g⟩ other =
      getAll ⟨gs⟩ other ++ if name = other ∧ contains ⟨gs⟩ name then [value] else [] := by
  induction gs with
  | nil => simp [getAll, contains]
  | cons g gs ih =>
    rw [List.map_cons, getAll_cons, getAll_cons, ih]
    by_cases hg : g.1 = name
    · by_cases hname : name = other
      · simp [contains, hg, hname]
      · simp [hg, hname]
    · have hcontains : contains ⟨g :: gs⟩ name = contains ⟨gs⟩ name := by simp [contains, hg]
      rw [hcontains]
      by_cases hname : name = other
      · subst hname
        simp [hg]
      · simp [hg, hname]

theorem getAll_append (h : Fields) (name value other : Bytes) :
    (h.append name value).getAll other =
      h.getAll other ++ if name = other then [value] else [] := by
  unfold append
  by_cases hin : h.contains name
  · rw [if_pos hin, getAll_map]
    simp [hin]
  · rw [if_neg hin, getAll_concat]
    by_cases hname : name = other
    · subst hname
      simp [hin, getAll_of_not_contains hin]
    · by_cases hother : h.contains other
      · simp [hname, hother]
      · simp [hname, hother, getAll_of_not_contains hother]

/-- The values of a name are those of its lines. -/
theorem getAll_ofList (lines : List (Bytes × Bytes)) (name : Bytes) :
    (ofList lines).getAll name =
      (lines.filter fun line => lowercase line.1 = name).map Prod.snd := by
  have hfold (h : Fields) : (lines.foldl (fun h l => h.append (lowercase l.1) l.2) h).getAll name =
      h.getAll name ++ (lines.filter fun line => lowercase line.1 = name).map Prod.snd := by
    induction lines generalizing h with
    | nil => simp
    | cons line lines ih =>
      rw [List.foldl_cons, ih, getAll_append, List.append_assoc]
      by_cases hname : lowercase line.1 = name <;> simp [hname]
  exact hfold empty

theorem get?_ofList (p : HeadGrammar.Parts) (name : Bytes) :
    (ofList p.fields).get? name = (p.values name).head? := by
  rw [get?, getAll_ofList]
  rfl

end Fields

/-! ### Complete heads -/

namespace HeadDecoder

/-- A complete head within the limits stands at the front of the input, its target can be read, and
`rest` stands behind it. -/
structure Reads (src : Bytes) (parts : HeadGrammar.Parts) (rest : Bytes) : Prop where
  parsed : HeadGrammar.head maxFields src = .done parts rest
  bounded : src.length - rest.length ≤ maxBytes
  target : (Uri.parse parts.target).isSome

/-- What is left to decide about such a head is the framing of its body. -/
theorem Reads.decode_eq {src rest : Bytes} {parts : HeadGrammar.Parts} (h : Reads src parts rest) :
    ∃ uri, Uri.parse parts.target = some uri ∧
      decode src = (rest, (BodySize.ofFields (.ofList parts.fields)).map fun size =>
        some (⟨parts.method, uri, parts.version, .ofList parts.fields⟩, size)) := by
  obtain ⟨uri, huri⟩ := Option.isSome_iff_exists.1 h.target
  have hlong := HeadGrammar.takes_head maxFields src parts rest h.parsed
  have hbounded := h.bounded
  refine ⟨uri, huri, ?_⟩
  unfold decode
  rw [if_neg (by omega), h.parsed]
  simp only [if_neg (Nat.not_lt.2 hbounded), assemble, huri]
  cases BodySize.ofFields (.ofList parts.fields) with
  | error e => rfl
  | ok size => rfl

/-- A head is decoded, with this framing of its body, and `rest` stays behind. -/
def Frames (src rest : Bytes) (size : BodySize) : Prop :=
  ∃ head, decode src = (rest, .ok (some (head, size)))

theorem Reads.frames_iff {src rest : Bytes} {parts : HeadGrammar.Parts} {size : BodySize}
    (h : Reads src parts rest) :
    Frames src rest size ↔ BodySize.ofFields (.ofList parts.fields) = .ok size := by
  obtain ⟨uri, -, hdecode⟩ := h.decode_eq
  rw [Frames, hdecode]
  cases BodySize.ofFields (.ofList parts.fields) with
  | error e => simp [Except.map]
  | ok other => simp [Except.map]

theorem Reads.refused {src rest : Bytes} {parts : HeadGrammar.Parts} {e : RequestError}
    (h : Reads src parts rest) (he : BodySize.ofFields (.ofList parts.fields) = .error e) :
    decode src = (rest, .error e) := by
  obtain ⟨uri, -, hdecode⟩ := h.decode_eq
  rw [hdecode, he]
  rfl

/-- No other input is decoded to a head. -/
theorem exists_reads {src rest : Bytes} {size : BodySize} (h : Frames src rest size) :
    ∃ parts, Reads src parts rest := by
  obtain ⟨head, h⟩ := h
  unfold decode at h
  split at h
  · cases h
  split at h
  · split at h <;> cases h
  · cases h
  · cases h
  · cases h
  rename_i parts left hparsed
  simp only at h
  split at h
  · cases h
  rename_i hbounded
  unfold assemble at h
  split at h
  · cases h
  rename_i uri huri
  simp only at h
  split at h
  · cases h
  cases h
  exact ⟨parts, hparsed, Nat.not_lt.1 hbounded, by simp [huri]⟩

end HeadDecoder

end WireServer.Http
