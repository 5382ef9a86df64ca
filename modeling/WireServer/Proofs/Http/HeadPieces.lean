import WireServer.Proofs.Http.HeadLines

/-! Request heads in pieces. Bytes behind its part never change what a reader says, and a reader
that asks for more has used up what it had. So the decoder waits for as long as the head is not
whole, and then finds the same head whatever stands behind it. -/

namespace WireServer.Http

/-! ### Readers that never change their mind -/

/-- What the reader says of some input stays true when more comes in. Where it asked for more, its
part takes at least `n` of the bytes that come. -/
structure Scan.Sure {α : Type} (f : Bytes → Scan α) (n : Nat) : Prop where
  done : ∀ {xs a rest}, f xs = .done a rest → ∀ ys, f (xs ++ ys) = .done a (rest ++ ys)
  bad : ∀ {xs fault}, f xs = .bad fault → ∀ ys, f (xs ++ ys) = .bad fault
  more : ∀ {xs ys a rest}, f xs = .more → f (xs ++ ys) = .done a rest → rest.length + n ≤ ys.length

namespace Scan.Sure

variable {α β : Type} {f : Bytes → Scan α} {next : α → Bytes → Scan β} {n m : Nat}

theorem weaken (hf : Sure f 1) : Sure f 0 :=
  ⟨hf.done, hf.bad, fun hmore hdone => Nat.le_of_succ_le (hf.more hmore hdone)⟩

/-- A reader that reads nothing. -/
theorem pure (a : α) (n : Nat) : Sure (.done a) n :=
  ⟨fun h _ => by cases h; rfl, nofun, nofun⟩

theorem fail (fault : HeadFault) (n : Nat) : Sure (fun _ => (.bad fault : Scan α)) n :=
  ⟨nofun, fun h _ => h, nofun⟩

/-- What it takes when it has nothing yet, it takes of any input. -/
theorem takes (hf : Sure f n) (hnil : f [] = .more) (src : Bytes) : (f src).Takes n src :=
  fun a rest hdone => hf.more hnil (show f ([] ++ src) = .done a rest from hdone)

/-- What the next reader takes makes up for what the first may leave. -/
theorem bind (hf : Sure f m) (hnext : ∀ a, Sure (next a) n)
    (htakes : ∀ a mid b rest, next a mid = .done b rest → rest.length + n ≤ mid.length + m) :
    Sure (fun src => (f src).andThen next) n := by
  refine ⟨fun {xs b rest} h ys => ?_, fun {xs fault} h ys => ?_, fun {xs ys b rest} h hdone => ?_⟩
  · cases hx : f xs with
    | done a mid =>
      rw [hx] at h
      simp only [hf.done hx ys]
      exact (hnext a).done h ys
    | more | bad => simp [hx, Scan.andThen] at h
  · cases hx : f xs with
    | done a mid =>
      rw [hx] at h
      simp only [hf.done hx ys]
      exact (hnext a).bad h ys
    | more => simp [hx, Scan.andThen] at h
    | bad =>
      rw [hx] at h
      simp only [hf.bad hx ys]
      exact h
  · cases hx : f xs with
    | done a mid =>
      rw [hx] at h
      simp only [hf.done hx ys] at hdone
      exact (hnext a).more h hdone
    | more =>
      cases hy : f (xs ++ ys) with
      | done a mid =>
        simp only [hy] at hdone
        have hmid := hf.more hx hy
        have hrest := htakes a mid b rest hdone
        omega
      | more | bad => simp [hy, Scan.andThen] at hdone
    | bad => simp [hx, Scan.andThen] at h

theorem andThen (hf : Sure f 0) (hnext : ∀ a, Sure (next a) n) (hnil : ∀ a, next a [] = .more) :
    Sure (fun src => (f src).andThen next) n :=
  hf.bind hnext fun a mid => (hnext a).takes (hnil a) mid

/-- What follows reads nothing: it takes the part, or refuses it. -/
theorem decided (hf : Sure f n) (hnext : ∀ a, (∃ b, next a = .done b) ∨
    ∃ fault, next a = fun _ => .bad fault) : Sure (fun src => (f src).andThen next) n := by
  refine hf.bind (fun a => ?_) fun a mid b rest h => ?_
  · rcases hnext a with ⟨b, hb⟩ | ⟨fault, hfault⟩
    · exact hb ▸ pure b n
    · exact hfault ▸ fail fault n
  · rcases hnext a with ⟨b, hb⟩ | ⟨fault, hfault⟩
    · rw [hb] at h
      cases h
      exact Nat.le_refl _
    · rw [hfault] at h
      cases h

/-- The first byte is there already. -/
theorem cons (hf : Sure f n) (b : UInt8) : Sure (fun src => f (b :: src)) n :=
  ⟨hf.done, hf.bad, hf.more⟩

/-- Only what the reader says of its part changes. -/
theorem map (hf : Sure f n) (g : α → β) :
    Sure (fun src => (f src).andThen fun a rest => .done (g a) rest) n :=
  hf.decided fun a => .inl ⟨g a, rfl⟩

/-- The part is found without what stands behind it. -/
theorem cut (hf : Sure f 1) {src rest : Bytes} {a : α} (h : f src = .done a rest)
    (hle : rest.length ≤ src.length) : ∃ front, src = front ++ rest ∧ f front = .done a [] := by
  have hsplit := List.take_append_drop (src.length - rest.length) src
  have hlen : (src.drop (src.length - rest.length)).length = rest.length := by
    rw [List.length_drop]
    omega
  generalize src.take (src.length - rest.length) = front at hsplit
  generalize src.drop (src.length - rest.length) = back at hsplit hlen
  subst hsplit
  cases hx : f front with
  | done b mid =>
    obtain ⟨rfl, hrest⟩ := Scan.done.inj ((hf.done hx back).symm.trans h)
    have hmid : mid = [] := by
      have := congrArg List.length hrest
      rw [List.length_append] at this
      exact List.eq_nil_of_length_eq_zero (by omega)
    subst hmid
    exact ⟨front, by rw [← hrest]; rfl, hx⟩
  | more =>
    have := hf.more hx h
    omega
  | bad fault => cases (hf.bad hx back).symm.trans h

/-- As long as bytes of the part are missing, more are asked for. -/
theorem waits (hf : Sure f n) {xs ys rest : Bytes} {a : α} (h : f (xs ++ ys) = .done a rest)
    (hshort : rest.length < ys.length) : f xs = .more := by
  cases hx : f xs with
  | done b mid =>
    obtain ⟨-, hrest⟩ := Scan.done.inj ((hf.done hx ys).symm.trans h)
    rw [← hrest, List.length_append] at hshort
    omega
  | more => rfl
  | bad fault => cases (hf.bad hx ys).symm.trans h

end Scan.Sure

namespace HeadGrammar

/-- How input stands to a line end at its front. -/
inductive LineStart : Bytes → Prop
  | nil : LineStart []
  | lf (rest : Bytes) : LineStart (0x0A :: rest)
  | crlf (rest : Bytes) : LineStart (0x0D :: 0x0A :: rest)
  | cr : LineStart [0x0D]
  | bareCr {b : UInt8} (rest : Bytes) : b ≠ 0x0A → LineStart (0x0D :: b :: rest)
  | other {b : UInt8} (rest : Bytes) : b ≠ 0x0D → b ≠ 0x0A → LineStart (b :: rest)

theorem lineStart (src : Bytes) : LineStart src := by
  rcases src with _ | ⟨b, bs⟩
  · exact .nil
  by_cases hlf : b = 0x0A
  · exact hlf ▸ .lf bs
  by_cases hcr : b = 0x0D
  · subst hcr
    rcases bs with _ | ⟨c, cs⟩
    · exact .cr
    by_cases hc : c = 0x0A
    · exact hc ▸ .crlf cs
    · exact .bareCr cs hc
  · exact .other bs hcr hlf

theorem skipEmptyLines_bareCr {b : UInt8} (hb : b ≠ 0x0A) (bs : Bytes) :
    skipEmptyLines (0x0D :: b :: bs) = .bad .newLine := by
  rw [skipEmptyLines.eq_def]
  split <;> simp_all

theorem skipEmptyLines_other {b : UInt8} (hcr : b ≠ 0x0D) (hlf : b ≠ 0x0A) (bs : Bytes) :
    skipEmptyLines (b :: bs) = .done () (b :: bs) := by
  rw [skipEmptyLines.eq_def]
  split <;> simp_all

theorem lineEnd_bareCr (fault : HeadFault) {b : UInt8} (hb : b ≠ 0x0A) (bs : Bytes) :
    lineEnd fault (0x0D :: b :: bs) = .bad fault := by
  unfold lineEnd
  split <;> simp_all

theorem lineEnd_other (fault : HeadFault) {b : UInt8} (hcr : b ≠ 0x0D) (hlf : b ≠ 0x0A)
    (bs : Bytes) : lineEnd fault (b :: bs) = .bad fault := by
  unfold lineEnd
  split <;> simp_all

theorem sure_lineEnd (fault : HeadFault) : Scan.Sure (lineEnd fault) 1 := by
  refine ⟨fun {xs a rest} h ys => ?_, fun {xs e} h ys => ?_, fun {xs ys a rest} h hdone => ?_⟩
  · cases lineStart xs with
    | lf bs | crlf bs => cases h; rfl
    | nil | cr => cases h
    | bareCr bs hb => simp [lineEnd_bareCr fault hb] at h
    | other bs hcr hlf => simp [lineEnd_other fault hcr hlf] at h
  · cases lineStart xs with
    | lf bs | crlf bs => cases h
    | nil | cr => cases h
    | bareCr bs hb =>
      rw [lineEnd_bareCr fault hb] at h
      rw [List.cons_append, List.cons_append, lineEnd_bareCr fault hb, h]
    | other bs hcr hlf =>
      rw [lineEnd_other fault hcr hlf] at h
      rw [List.cons_append, lineEnd_other fault hcr hlf, h]
  · cases lineStart xs with
    | lf bs | crlf bs => cases h
    | nil => exact takes_lineEnd fault ys a rest hdone
    | cr =>
      cases ys with
      | nil => cases hdone
      | cons y ys =>
        by_cases hy : y = 0x0A
        · subst hy
          cases hdone
          exact Nat.le_refl _
        · simp [lineEnd_bareCr fault hy] at hdone
    | bareCr bs hb => simp [lineEnd_bareCr fault hb] at h
    | other bs hcr hlf => simp [lineEnd_other fault hcr hlf] at h

theorem sure_skipEmptyLines : Scan.Sure skipEmptyLines 0 := by
  refine ⟨fun {xs a rest} h ys => ?_, fun {xs e} h ys => ?_, fun {xs ys a rest} h hdone => ?_⟩
  · fun_induction skipEmptyLines xs with
    | case1 | case3 | case4 => cases h
    | case2 bs ih | case5 bs ih => exact ih h
    | case6 =>
      rename_i bs hnil _ _ hcr hlf
      obtain ⟨rfl, rfl⟩ := Scan.done.inj h
      cases lineStart bs with
      | nil => exact absurd rfl hnil
      | lf bs => exact absurd rfl (hlf bs)
      | crlf _ | cr | bareCr _ _ => exact absurd rfl (hcr _)
      | other bs hb hb' => exact skipEmptyLines_other hb hb' _
  · fun_induction skipEmptyLines xs with
    | case1 | case3 | case6 => cases h
    | case2 bs ih | case5 bs ih => exact ih h
    | case4 bs hlf hnil =>
      rcases bs with _ | ⟨b, bs⟩
      · exact absurd rfl hnil
      · have hb : b ≠ 0x0A := fun hb => hlf bs (by rw [hb])
        rw [List.cons_append, List.cons_append, skipEmptyLines_bareCr hb, h]
  · fun_induction skipEmptyLines xs with
    | case1 => exact takes_skipEmptyLines ys a rest hdone
    | case2 bs ih | case5 bs ih => exact ih h hdone
    | case3 =>
      rcases ys with _ | ⟨y, ys⟩
      · cases hdone
      by_cases hy : y = 0x0A
      · subst hy
        have htaken := takes_skipEmptyLines ys a rest hdone
        rw [List.length_cons]
        omega
      · simp [skipEmptyLines_bareCr hy] at hdone
    | case4 | case6 => cases h

/-- Behind the first byte outside of a class nothing changes the bytes in front of it. -/
theorem span_append {cls : UInt8 → Bool} {xs : Bytes} {b : UInt8} {rest : Bytes}
    (h : xs.dropWhile cls = b :: rest) (ys : Bytes) :
    (xs ++ ys).takeWhile cls = xs.takeWhile cls ∧
      (xs ++ ys).dropWhile cls = b :: (rest ++ ys) := by
  induction xs with
  | nil => cases h
  | cons x xs ih =>
    rw [List.cons_append, List.takeWhile_cons, List.takeWhile_cons, List.dropWhile_cons]
    rw [List.dropWhile_cons] at h
    by_cases hx : cls x
    · rw [if_pos hx] at h
      obtain ⟨htake, hdrop⟩ := ih h
      simp [hx, htake, hdrop]
    · rw [if_neg hx] at h
      cases h
      simp [hx]

/-- A reader of bytes of a class that goes on with the first byte outside of it. -/
theorem sure_span {α : Type} {f : Bytes → Scan α} (cls : UInt8 → Bool)
    (next : Bytes → UInt8 → Bytes → Scan α)
    (hnil : ∀ src, src.dropWhile cls = [] → f src = .more)
    (hcons : ∀ src b rest, src.dropWhile cls = b :: rest →
      f src = next (src.takeWhile cls) b rest)
    (hnext : ∀ w b, Scan.Sure (next w b) 1) (htakes : ∀ w b rest, (next w b rest).Takes 0 rest) :
    Scan.Sure f 1 := by
  have hsplit (xs : Bytes) : xs.dropWhile cls = [] ∨ ∃ b rest, xs.dropWhile cls = b :: rest := by
    cases xs.dropWhile cls <;> simp
  refine ⟨fun {xs a rest} h ys => ?_, fun {xs e} h ys => ?_, fun {xs ys a rest} h hdone => ?_⟩
  · rcases hsplit xs with hx | ⟨b, tail, hx⟩
    · cases (hnil xs hx).symm.trans h
    · obtain ⟨htake, hdrop⟩ := span_append hx ys
      rw [hcons _ _ _ hdrop, htake]
      exact (hnext _ b).done ((hcons _ _ _ hx).symm.trans h) ys
  · rcases hsplit xs with hx | ⟨b, tail, hx⟩
    · cases (hnil xs hx).symm.trans h
    · obtain ⟨htake, hdrop⟩ := span_append hx ys
      rw [hcons _ _ _ hdrop, htake]
      exact (hnext _ b).bad ((hcons _ _ _ hx).symm.trans h) ys
  · rcases hsplit xs with hx | ⟨b, tail, hx⟩
    · have hdrop : (xs ++ ys).dropWhile cls = ys.dropWhile cls := by
        rw [List.dropWhile_append, hx, List.isEmpty_nil, if_pos rfl]
      rcases hsplit (xs ++ ys) with hy | ⟨b, tail, hy⟩
      · cases (hnil _ hy).symm.trans hdone
      · have hlen := (List.dropWhile_sublist (l := ys) cls).length_le
        rw [← hdrop, hy, List.length_cons] at hlen
        have htaken := htakes _ _ _ a rest ((hcons _ _ _ hy).symm.trans hdone)
        omega
    · obtain ⟨htake, hdrop⟩ := span_append hx ys
      rw [hcons _ _ _ hdrop, htake] at hdone
      exact (hnext _ b).more ((hcons _ _ _ hx).symm.trans h) hdone

theorem sure_word (cls : UInt8 → Bool) : Scan.Sure (word cls) 1 := by
  refine sure_span cls (fun w b rest =>
    if b = 0x20 then if w.isEmpty then .bad .token else .done w rest else .bad .token)
    (fun src h => by simp [word, h]) (fun src b rest h => ?_) (fun w b => ?_) fun w b rest => ?_
  · by_cases hb : b = 0x20
    · simp [word, h, hb]
    · simp only [word, h, if_neg hb]
      split <;> simp_all
  · split
    · split
      · exact .fail _ _
      · exact .pure _ _
    · exact .fail _ _
  · split
    · split
      · exact nofun
      · exact Scan.takes_done _ _
    · exact nofun

theorem sure_target : Scan.Sure target 1 := by
  refine (sure_word isTarget).decided fun t => ?_
  by_cases ht : Utf8.valid t
  · exact .inl ⟨t, by simp [ht]⟩
  · exact .inr ⟨.token, by simp [ht]⟩

theorem version_of_short {src : Bytes} (h : src.length < 8) : version src =
    if src.isPrefixOf (Bytes.ofString "HTTP/1.") then .more else .bad .version := by
  rw [version, if_pos h]

theorem version_of_long {src : Bytes} (h : 8 ≤ src.length) : version src =
    if src.take 8 = Bytes.ofString "HTTP/1.1" then .done .v11 (src.drop 8)
    else if src.take 8 = Bytes.ofString "HTTP/1.0" then .done .v10 (src.drop 8)
    else .bad .version := by
  rw [version, if_neg (Nat.not_lt.2 h)]

/-- The versions begin alike. -/
theorem prefix_of_take {xs ys : Bytes} (hshort : xs.length < 8) (last : Bytes)
    (h : (xs ++ ys).take 8 = Bytes.ofString "HTTP/1." ++ last) :
    xs <+: Bytes.ofString "HTTP/1." := by
  have hxs : xs <+: Bytes.ofString "HTTP/1." ++ last := by
    rw [← h, List.take_append, List.take_of_length_le (by omega)]
    exact List.prefix_append _ _
  exact List.prefix_of_prefix_length_le hxs (List.prefix_append _ _) (by
    have : (Bytes.ofString "HTTP/1.").length = 7 := by decide
    omega)

theorem version_append_of_long {xs : Bytes} (h : 8 ≤ xs.length) (ys : Bytes) :
    version (xs ++ ys) = (version xs).andThen fun v rest => .done v (rest ++ ys) := by
  have hlong : 8 ≤ (xs ++ ys).length := by
    rw [List.length_append]
    omega
  rw [version_of_long hlong, version_of_long h, List.take_append_of_le_length h,
    List.drop_append_of_le_length h]
  split
  · rfl
  · split <;> rfl

theorem sure_version : Scan.Sure version 1 := by
  refine ⟨fun {xs a rest} h ys => ?_, fun {xs e} h ys => ?_, fun {xs ys a rest} h hdone => ?_⟩
  · have htaken := takes_version xs a rest h
    rw [version_append_of_long (by omega), h]
    rfl
  · rcases Nat.lt_or_ge xs.length 8 with hshort | hlong
    · have hwrong : ¬ xs <+: Bytes.ofString "HTTP/1." := by
        intro hprefix
        rw [version_of_short hshort, if_pos (List.isPrefixOf_iff_prefix.2 hprefix)] at h
        cases h
      rw [version_of_short hshort, if_neg (mt List.isPrefixOf_iff_prefix.1 hwrong)] at h
      rw [← h]
      rcases Nat.lt_or_ge (xs ++ ys).length 8 with hshort' | hlong
      · rw [version_of_short hshort', if_neg]
        exact fun hboth => hwrong ((List.prefix_append xs ys).trans
          (List.isPrefixOf_iff_prefix.1 hboth))
      · rw [version_of_long hlong, if_neg, if_neg]
        · exact fun htake => hwrong (prefix_of_take hshort [0x30] htake)
        · exact fun htake => hwrong (prefix_of_take hshort [0x31] htake)
    · rw [version_append_of_long hlong, h]
      rfl
  · rcases Nat.lt_or_ge xs.length 8 with hshort | hlong
    · have htaken := takes_version _ a rest hdone
      rw [List.length_append] at htaken
      omega
    · rw [version_append_of_long hlong, h] at hdone
      cases hdone

/-- A field's value from its first byte on. -/
def valueText (src : Bytes) : Scan Bytes :=
  (lineEnd .fieldValue (src.dropWhile isFieldValue)).andThen fun _ rest =>
    .done (trim isBlank (src.takeWhile isFieldValue)) rest

theorem takes_valueText (src : Bytes) : (valueText src).Takes 1 src :=
  ((takes_lineEnd .fieldValue _).of_le (List.dropWhile_sublist isFieldValue).length_le).andThen
    (m := 0) fun _ _ => Scan.takes_done _ _

theorem sure_valueText : Scan.Sure valueText 1 := by
  refine sure_span isFieldValue (fun w b rest =>
    (lineEnd .fieldValue (b :: rest)).andThen fun _ rest => .done (trim isBlank w) rest)
    (fun src h => ?_) (fun src b rest h => ?_) (fun w b => ?_) fun w b rest => ?_
  · rw [valueText, h]
    rfl
  · rw [valueText, h]
  · exact ((sure_lineEnd .fieldValue).cons b).map fun _ => trim isBlank w
  · intro a left h
    have htaken := (takes_lineEnd .fieldValue (b :: rest)).andThen (m := 0)
      (fun _ _ => Scan.takes_done _ _) a left h
    rw [List.length_cons] at htaken
    omega

theorem sure_fieldValue : Scan.Sure fieldValue 1 := by
  refine sure_span isBlank (fun _ b rest => valueText (b :: rest))
    (fun src h => ?_) (fun src b rest h => ?_) (fun w b => sure_valueText.cons b) fun w b rest => ?_
  · simp [fieldValue, h, lineEnd, Scan.andThen]
  · simp only [fieldValue, h, valueText]
  · intro a left h
    have htaken := takes_valueText (b :: rest) a left h
    rw [List.length_cons] at htaken
    omega

theorem takes_fieldValue (src : Bytes) : (fieldValue src).Takes 1 src :=
  (takes_valueText (src.dropWhile isBlank)).of_le (List.dropWhile_sublist isBlank).length_le

theorem sure_fieldLine : Scan.Sure fieldLine 1 := by
  refine sure_span isToken (fun w b rest =>
    if b = 0x3A then
      if w.isEmpty then .bad .fieldName
      else (fieldValue rest).andThen fun value rest => .done (w, value) rest
    else .bad .fieldName)
    (fun src h => by simp [fieldLine, h]) (fun src b rest h => ?_) (fun w b => ?_)
    fun w b rest => ?_
  · by_cases hb : b = 0x3A
    · simp [fieldLine, h, hb]
    · simp only [fieldLine, h, if_neg hb]
      split <;> simp_all
  · split
    · split
      · exact .fail _ _
      · exact sure_fieldValue.map fun value => (w, value)
    · exact .fail _ _
  · split
    · split
      · exact nofun
      · exact ((takes_fieldValue rest).andThen (m := 0) fun _ _ => Scan.takes_done _ _).mono
          (Nat.zero_le _)
    · exact nofun

theorem fieldLines_nil (room : Nat) : fieldLines room [] = .more := by
  cases room <;> rfl

/-- The empty line, or one more field. -/
theorem sure_lines {room : Nat} (more : Bytes × Bytes → Bytes → Scan (List (Bytes × Bytes)))
    (hmore : Scan.Sure (fun src => (fieldLine src).andThen more) 1)
    (hcons : ∀ b rest, fieldLines room (b :: rest) = if b = 0x0D || b = 0x0A then
      (lineEnd .newLine (b :: rest)).andThen fun _ rest => .done [] rest
      else (fieldLine (b :: rest)).andThen more) : Scan.Sure (fieldLines room) 1 := by
  have hself (src : Bytes) : src.dropWhile (fun _ => false) = src := by cases src <;> rfl
  refine sure_span (fun _ => false) (fun _ b rest => fieldLines room (b :: rest))
    (fun src h => ?_) (fun src b rest h => ?_) (fun _ b => ?_) fun _ b rest => ?_
  · rw [hself] at h
    rw [h, fieldLines_nil]
  · rw [hself] at h
    rw [h]
  · simp only [hcons]
    by_cases hb : (b = 0x0D || b = 0x0A : Bool)
    · simp only [hb, if_true]
      exact ((sure_lineEnd .newLine).map fun _ => []).cons b
    · simp only [hb, Bool.false_eq_true, if_false]
      exact hmore.cons b
  · intro a left h
    have htaken := takes_fieldLines room _ a left h
    rw [List.length_cons] at htaken
    omega

theorem sure_fieldLines (room : Nat) : Scan.Sure (fieldLines room) 1 := by
  induction room with
  | zero =>
    refine sure_lines (fun _ _ => .bad .tooManyFields)
      (sure_fieldLine.decided fun _ => .inr ⟨_, rfl⟩) fun b rest => ?_
    rw [fieldLines]
  | succ room ih =>
    refine sure_lines (fun field rest =>
      (fieldLines room rest).andThen fun fields rest => .done (field :: fields) rest)
      (sure_fieldLine.weaken.andThen (fun field => ih.map (field :: ·)) fun _ => ?_)
      fun b rest => ?_
    · rw [fieldLines_nil]
      rfl
    · rw [fieldLines]

theorem sure_head (room : Nat) : Scan.Sure (head room) 1 := by
  refine sure_skipEmptyLines.andThen (fun _ => ?_) fun _ => rfl
  refine (sure_word isToken).weaken.andThen (fun method => ?_) fun _ => rfl
  refine sure_target.weaken.andThen (fun target => ?_) fun _ => rfl
  refine sure_version.weaken.andThen (fun version => ?_) fun _ => rfl
  refine (sure_lineEnd .newLine).weaken.andThen (fun _ => ?_) fun _ => ?_
  · exact (sure_fieldLines room).map fun fields => Parts.mk method target version fields
  · rw [fieldLines_nil]
    rfl

end HeadGrammar

/-! ### The decoder -/

namespace HeadDecoder

/-- The head is found as soon as it is whole, whatever stands behind it. -/
theorem exists_decode_append {src rest : Bytes} {head : RequestHead × BodySize}
    (h : decode src = (rest, .ok (some head))) :
    ∃ front, src = front ++ rest ∧ ∀ more, decode (front ++ more) = (more, .ok (some head)) := by
  obtain ⟨parts, hreads⟩ := exists_reads ⟨head.1, h⟩
  have hlong := HeadGrammar.takes_head maxFields src parts rest hreads.parsed
  obtain ⟨front, rfl, hfront⟩ := (HeadGrammar.sure_head maxFields).cut hreads.parsed (by omega)
  obtain ⟨uri, huri, hdecode⟩ := hreads.decode_eq
  refine ⟨front, rfl, fun more => ?_⟩
  have hbounded := hreads.bounded
  simp only [List.length_append, Nat.add_sub_cancel] at hbounded
  have hmore : Reads (front ++ more) parts more :=
    ⟨(HeadGrammar.sure_head maxFields).done hfront more, by simpa using hbounded, hreads.target⟩
  obtain ⟨uri', huri', hdecode'⟩ := hmore.decode_eq
  cases huri.symm.trans huri'
  rw [hdecode', (Prod.mk.inj (hdecode.symm.trans h)).2]

/-- Until then the decoder waits. -/
theorem decode_of_shorter {xs ys rest : Bytes} {head : RequestHead × BodySize}
    (h : decode (xs ++ ys) = (rest, .ok (some head))) (hshort : rest.length < ys.length) :
    decode xs = (xs, .ok none) := by
  obtain ⟨parts, hreads⟩ := exists_reads ⟨head.1, h⟩
  have hmore := (HeadGrammar.sure_head maxFields).waits hreads.parsed hshort
  have hbounded := hreads.bounded
  rw [List.length_append] at hbounded
  unfold decode
  split
  · rfl
  · rw [hmore]
    exact if_neg (by omega)

end HeadDecoder

end WireServer.Http
