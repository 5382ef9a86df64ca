import WireServer.Text.Utf8

/-! UTF-8 as Unicode has it, a sequence of encoded scalar values, against the check byte by byte:
the check ends between characters exactly on such a text, and fails exactly where nothing that
follows could help. -/

namespace WireServer.Utf8

/-- The bytes are the encoding of some sequence of Unicode scalar values. -/
def WellFormed (bs : Bytes) : Prop := ∃ cs : List Char, bs = cs.flatMap String.utf8EncodeChar

/-- The bytes can still become a well-formed text. -/
def Extensible (bs : Bytes) : Prop := ∃ tail, WellFormed (bs ++ tail)

/-! ### Steps as arithmetic -/

/-- The values of the first byte that lead to a situation. -/
def State.Leads : State → Nat → Prop
  | .boundary, n => n < 0x80
  | .oneMore, n => 0xC2 ≤ n ∧ n < 0xE0
  | .twoMore, n => 0xE0 < n ∧ n < 0xF0 ∧ n ≠ 0xED
  | .threeMore, n => 0xF0 < n ∧ n < 0xF4
  | .afterE0, n => n = 0xE0
  | .afterED, n => n = 0xED
  | .afterF0, n => n = 0xF0
  | .afterF4, n => n = 0xF4

theorem lead_eq_some_iff {b : UInt8} {s : State} : lead b = some s ↔ s.Leads b.toNat := by
  have hlead : lead b =
      if b.toNat < 0x80 then some .boundary
      else if b.toNat < 0xC2 then none
      else if b.toNat < 0xE0 then some .oneMore
      else if b.toNat = 0xE0 then some .afterE0
      else if b.toNat = 0xED then some .afterED
      else if b.toNat < 0xF0 then some .twoMore
      else if b.toNat = 0xF0 then some .afterF0
      else if b.toNat < 0xF4 then some .threeMore
      else if b.toNat = 0xF4 then some .afterF4
      else none := by
    simp only [lead, UInt8.lt_iff_toNat_lt, ← UInt8.toNat_inj]
    rfl
  rw [hlead]
  cases s <;> simp only [State.Leads] <;> grind

theorem within_eq_some_iff {low high b : UInt8} {next s : State} :
    within low high b next = some s ↔ low.toNat ≤ b.toNat ∧ b.toNat ≤ high.toNat ∧ next = s := by
  simp only [within, UInt8.le_iff_toNat_le]
  by_cases h : low.toNat ≤ b.toNat ∧ b.toNat ≤ high.toNat
  · simp [h]
  · rw [if_neg h]
    refine ⟨nofun, fun ⟨hl, hh, _⟩ => absurd ⟨hl, hh⟩ h⟩

theorem walk_cons {s t : State} {b : UInt8} (bs : Bytes) (h : step s b = some t) :
    walk s (b :: bs) = walk t bs := by
  rw [walk, h]

/-! ### Encoded characters -/

theorem toNat_ofNat_of_lt {n : Nat} (h : n < 256) : (UInt8.ofNat n).toNat = n := by
  simpa using h

theorem step_tail {s t : State} {low high : UInt8} {n : Nat}
    (hs : ∀ b, step s b = within low high b t) (hlow : low.toNat ≤ n + 0x80)
    (hhigh : n + 0x80 ≤ high.toNat) :
    step s (UInt8.ofNat (n + 0x80)) = some t := by
  have := high.toNat_lt
  rw [hs, within_eq_some_iff, toNat_ofNat_of_lt (by omega)]
  exact ⟨hlow, hhigh, rfl⟩

theorem walk_oneMore (n : Nat) (bs : Bytes) :
    walk .oneMore (UInt8.ofNat (n % 64 + 0x80) :: bs) = walk .boundary bs :=
  walk_cons _ (step_tail (fun _ => rfl) (Nat.le_add_left _ _) (show n % 64 + 0x80 ≤ 0xBF by omega))

theorem walk_twoMore (m n : Nat) (bs : Bytes) :
    walk .twoMore (UInt8.ofNat (m % 64 + 0x80) :: UInt8.ofNat (n % 64 + 0x80) :: bs) =
      walk .boundary bs := by
  rw [← walk_oneMore n]
  exact walk_cons _
    (step_tail (fun _ => rfl) (Nat.le_add_left _ _) (show m % 64 + 0x80 ≤ 0xBF by omega))

theorem step_lead {n : Nat} {s : State} (hn : n < 256) (hs : s.Leads n) :
    step .boundary (UInt8.ofNat n) = some s :=
  lead_eq_some_iff.2 (by rwa [toNat_ofNat_of_lt hn])

/-- Three bytes: overlong forms and surrogates aside, every value of its size passes. -/
theorem walk_three {v : Nat} (hv : 0x800 ≤ v) (hv' : v < 0xD800 ∨ 0xDFFF < v ∧ v ≤ 0xFFFF)
    (bs : Bytes) :
    walk .boundary (UInt8.ofNat (v / 4096 % 16 + 0xE0) :: UInt8.ofNat (v / 64 % 64 + 0x80) ::
      UInt8.ofNat (v % 64 + 0x80) :: bs) = walk .boundary bs := by
  have first {s : State} {low high : UInt8} (hlead : s.Leads (v / 4096 % 16 + 0xE0))
      (hs : ∀ b, step s b = within low high b .oneMore) (hlow : low.toNat ≤ v / 64 % 64 + 0x80)
      (hhigh : v / 64 % 64 + 0x80 ≤ high.toNat) :
      walk .boundary (UInt8.ofNat (v / 4096 % 16 + 0xE0) :: UInt8.ofNat (v / 64 % 64 + 0x80) ::
        UInt8.ofNat (v % 64 + 0x80) :: bs) = walk .boundary bs := by
    rw [walk_cons _ (step_lead (by omega) hlead), walk_cons _ (step_tail hs hlow hhigh),
      walk_oneMore]
  by_cases he0 : v / 4096 = 0
  · have hlead : State.afterE0.Leads (v / 4096 % 16 + 0xE0) := by
      simp only [State.Leads]
      omega
    exact first hlead (fun _ => rfl) (show 0xA0 ≤ _ by omega) (show _ ≤ 0xBF by omega)
  by_cases hed : v / 4096 = 13
  · have hlead : State.afterED.Leads (v / 4096 % 16 + 0xE0) := by
      simp only [State.Leads]
      omega
    exact first hlead (fun _ => rfl) (show 0x80 ≤ _ by omega) (show _ ≤ 0x9F by omega)
  · have hlead : State.twoMore.Leads (v / 4096 % 16 + 0xE0) := by
      simp only [State.Leads]
      omega
    exact first hlead (fun _ => rfl) (show 0x80 ≤ _ by omega) (show _ ≤ 0xBF by omega)

/-- Four bytes: overlong forms aside, every value up to the last scalar value passes. -/
theorem walk_four {v : Nat} (hv : 0xFFFF < v) (hv' : v < 0x110000) (bs : Bytes) :
    walk .boundary (UInt8.ofNat (v / 262144 % 8 + 0xF0) :: UInt8.ofNat (v / 4096 % 64 + 0x80) ::
      UInt8.ofNat (v / 64 % 64 + 0x80) :: UInt8.ofNat (v % 64 + 0x80) :: bs) =
        walk .boundary bs := by
  have first {s : State} {low high : UInt8} (hlead : s.Leads (v / 262144 % 8 + 0xF0))
      (hs : ∀ b, step s b = within low high b .twoMore) (hlow : low.toNat ≤ v / 4096 % 64 + 0x80)
      (hhigh : v / 4096 % 64 + 0x80 ≤ high.toNat) :
      walk .boundary (UInt8.ofNat (v / 262144 % 8 + 0xF0) :: UInt8.ofNat (v / 4096 % 64 + 0x80) ::
        UInt8.ofNat (v / 64 % 64 + 0x80) :: UInt8.ofNat (v % 64 + 0x80) :: bs) =
          walk .boundary bs := by
    rw [walk_cons _ (step_lead (by omega) hlead), walk_cons _ (step_tail hs hlow hhigh),
      walk_twoMore]
  by_cases hf0 : v / 262144 = 0
  · have hlead : State.afterF0.Leads (v / 262144 % 8 + 0xF0) := by
      simp only [State.Leads]
      omega
    exact first hlead (fun _ => rfl) (show 0x90 ≤ _ by omega) (show _ ≤ 0xBF by omega)
  by_cases hf4 : v / 262144 = 4
  · have hlead : State.afterF4.Leads (v / 262144 % 8 + 0xF0) := by
      simp only [State.Leads]
      omega
    exact first hlead (fun _ => rfl) (show 0x80 ≤ _ by omega) (show _ ≤ 0x8F by omega)
  · have hlead : State.threeMore.Leads (v / 262144 % 8 + 0xF0) := by
      simp only [State.Leads]
      omega
    exact first hlead (fun _ => rfl) (show 0x80 ≤ _ by omega) (show _ ≤ 0xBF by omega)

/-- The check takes in an encoded character whole. -/
theorem walk_encode (c : Char) (bs : Bytes) :
    walk .boundary (String.utf8EncodeChar c ++ bs) = walk .boundary bs := by
  have hv : c.val.toNat < 0xD800 ∨ 0xDFFF < c.val.toNat ∧ c.val.toNat < 0x110000 := c.valid
  simp only [String.utf8EncodeChar]
  generalize c.val.toNat = v at hv
  by_cases h1 : v ≤ 0x7F
  · rw [if_pos h1]
    exact walk_cons bs (step_lead (s := .boundary) (by omega) (Nat.lt_succ_of_le h1))
  rw [if_neg h1]
  by_cases h2 : v ≤ 0x7FF
  · have hlead : State.oneMore.Leads (v / 64 % 32 + 0xC0) := by
      simp only [State.Leads]
      omega
    rw [if_pos h2, List.cons_append, walk_cons _ (step_lead (by omega) hlead)]
    exact walk_oneMore v bs
  rw [if_neg h2]
  by_cases h3 : v ≤ 0xFFFF
  · rw [if_pos h3]
    exact walk_three (by omega) (by omega) bs
  · rw [if_neg h3]
    exact walk_four (by omega) (by omega) bs

theorem walk_flatMap_encode (cs : List Char) (bs : Bytes) :
    walk .boundary (cs.flatMap String.utf8EncodeChar ++ bs) = walk .boundary bs := by
  induction cs with
  | nil => rfl
  | cons c cs ih => rw [List.flatMap_cons, List.append_assoc, walk_encode, ih]

/-! ### Decoded characters -/

theorem exists_char {v : Nat} (hv : v < 0xD800 ∨ 0xDFFF < v ∧ v < 0x110000) :
    ∃ c : Char, c.val.toNat = v :=
  ⟨Char.ofNatAux v hv, rfl⟩

/-- The value of a byte that carries six bits of a character. -/
def Tail (b : UInt8) : Prop := 0x80 ≤ b.toNat ∧ b.toNat ≤ 0xBF

theorem ofNat_eq_of_toNat_eq {n : Nat} {b : UInt8} (h : n = b.toNat) : UInt8.ofNat n = b := by
  rw [h, UInt8.ofNat_toNat]

theorem exists_encode_one {a : UInt8} (ha : a.toNat < 0x80) :
    ∃ c, String.utf8EncodeChar c = [a] := by
  obtain ⟨c, hc⟩ := exists_char (v := a.toNat) (by omega)
  refine ⟨c, ?_⟩
  simp only [String.utf8EncodeChar, hc]
  rw [if_pos (by omega), UInt8.ofNat_toNat]

theorem exists_encode_two {a x : UInt8} (ha : 0xC2 ≤ a.toNat) (ha' : a.toNat < 0xE0) (hx : Tail x) :
    ∃ c, String.utf8EncodeChar c = [a, x] := by
  obtain ⟨hx, hx'⟩ := hx
  obtain ⟨c, hc⟩ := exists_char (v := (a.toNat - 0xC0) * 64 + (x.toNat - 0x80)) (by omega)
  refine ⟨c, ?_⟩
  simp only [String.utf8EncodeChar, hc]
  rw [if_neg (by omega), if_pos (by omega), ofNat_eq_of_toNat_eq (b := a) (by omega),
    ofNat_eq_of_toNat_eq (b := x) (by omega)]

theorem exists_encode_three {a x y : UInt8} (ha : 0xE0 ≤ a.toNat) (ha' : a.toNat < 0xF0)
    (hx : Tail x) (hy : Tail y) (he0 : a.toNat = 0xE0 → 0xA0 ≤ x.toNat)
    (hed : a.toNat = 0xED → x.toNat ≤ 0x9F) : ∃ c, String.utf8EncodeChar c = [a, x, y] := by
  obtain ⟨hx, hx'⟩ := hx
  obtain ⟨hy, hy'⟩ := hy
  obtain ⟨c, hc⟩ := exists_char
    (v := (a.toNat - 0xE0) * 4096 + (x.toNat - 0x80) * 64 + (y.toNat - 0x80)) (by omega)
  refine ⟨c, ?_⟩
  simp only [String.utf8EncodeChar, hc]
  rw [if_neg (by omega), if_neg (by omega), if_pos (by omega),
    ofNat_eq_of_toNat_eq (b := a) (by omega), ofNat_eq_of_toNat_eq (b := x) (by omega),
    ofNat_eq_of_toNat_eq (b := y) (by omega)]

theorem exists_encode_four {a x y z : UInt8} (ha : 0xF0 ≤ a.toNat) (ha' : a.toNat < 0xF5)
    (hx : Tail x) (hy : Tail y) (hz : Tail z) (hf0 : a.toNat = 0xF0 → 0x90 ≤ x.toNat)
    (hf4 : a.toNat = 0xF4 → x.toNat ≤ 0x8F) : ∃ c, String.utf8EncodeChar c = [a, x, y, z] := by
  obtain ⟨hx, hx'⟩ := hx
  obtain ⟨hy, hy'⟩ := hy
  obtain ⟨hz, hz'⟩ := hz
  obtain ⟨c, hc⟩ := exists_char (v := (a.toNat - 0xF0) * 262144 + (x.toNat - 0x80) * 4096 +
    (y.toNat - 0x80) * 64 + (z.toNat - 0x80)) (by omega)
  refine ⟨c, ?_⟩
  simp only [String.utf8EncodeChar, hc]
  rw [if_neg (by omega), if_neg (by omega), if_neg (by omega),
    ofNat_eq_of_toNat_eq (b := a) (by omega), ofNat_eq_of_toNat_eq (b := x) (by omega),
    ofNat_eq_of_toNat_eq (b := y) (by omega), ofNat_eq_of_toNat_eq (b := z) (by omega)]

/-- Inside a character there has to be a next byte, and it has to fit. -/
theorem exists_tail {s t : State} {low high : UInt8} {bs : Bytes}
    (h : walk s bs = (.boundary, [])) (hs : s ≠ .boundary)
    (hstep : ∀ b, step s b = within low high b t) :
    ∃ b rest, bs = b :: rest ∧ low.toNat ≤ b.toNat ∧ b.toNat ≤ high.toNat ∧
      walk t rest = (.boundary, []) := by
  cases bs with
  | nil =>
    rw [walk] at h
    exact absurd (congrArg Prod.fst h) hs
  | cons b rest =>
    rw [walk, hstep] at h
    cases ht : within low high b t with
    | none => simp [ht] at h
    | some u =>
      obtain ⟨hl, hh, rfl⟩ := within_eq_some_iff.1 ht
      exact ⟨b, rest, rfl, hl, hh, by simpa [ht] using h⟩

theorem exists_tail_one {bs : Bytes} (h : walk .oneMore bs = (.boundary, [])) :
    ∃ x rest, bs = x :: rest ∧ Tail x ∧ walk .boundary rest = (.boundary, []) := by
  obtain ⟨x, rest, rfl, hl, hh, h⟩ := exists_tail h (by simp) fun _ => rfl
  exact ⟨x, rest, rfl, ⟨hl, hh⟩, h⟩

theorem exists_tail_two {bs : Bytes} (h : walk .twoMore bs = (.boundary, [])) :
    ∃ x y rest, bs = x :: y :: rest ∧ Tail x ∧ Tail y ∧ walk .boundary rest = (.boundary, []) := by
  obtain ⟨x, rest, rfl, hl, hh, h⟩ := exists_tail h (by simp) fun _ => rfl
  obtain ⟨y, rest, rfl, hy, h⟩ := exists_tail_one h
  exact ⟨x, y, rest, rfl, ⟨hl, hh⟩, hy, h⟩

/-- A text that starts with an encoded character, and passes behind it. -/
def Starts (bs : Bytes) : Prop :=
  ∃ c rest, bs = String.utf8EncodeChar c ++ rest ∧ walk .boundary rest = (.boundary, [])

theorem Starts.of_encode {enc rest : Bytes} (henc : ∃ c, String.utf8EncodeChar c = enc)
    (h : walk .boundary rest = (.boundary, [])) : Starts (enc ++ rest) := by
  obtain ⟨c, rfl⟩ := henc
  exact ⟨c, rest, rfl, h⟩

/-- A text that passes starts with an encoded character. -/
theorem exists_encode {b : UInt8} {bs : Bytes} (h : walk .boundary (b :: bs) = (.boundary, [])) :
    Starts (b :: bs) := by
  cases hlead : lead b with
  | none => simp [walk, step, hlead] at h
  | some s =>
    rw [walk_cons bs (show step .boundary b = some s from hlead)] at h
    have hb := lead_eq_some_iff.1 hlead
    cases s with
    | boundary => exact .of_encode (exists_encode_one hb) h
    | oneMore =>
      obtain ⟨x, rest, rfl, hx, h⟩ := exists_tail_one h
      exact .of_encode (exists_encode_two hb.1 hb.2 hx) h
    | twoMore =>
      obtain ⟨x, y, rest, rfl, hx, hy, h⟩ := exists_tail_two h
      obtain ⟨hb, hb', hne⟩ := hb
      exact .of_encode (exists_encode_three (by omega) hb' hx hy (by omega) (by omega)) h
    | threeMore =>
      obtain ⟨x, rest, rfl, hl, hh, h⟩ := exists_tail h (by simp) fun _ => rfl
      obtain ⟨y, z, rest, rfl, hy, hz, h⟩ := exists_tail_two h
      obtain ⟨hb, hb'⟩ := hb
      exact .of_encode (exists_encode_four (by omega) (by omega) ⟨hl, hh⟩ hy hz (by omega)
        (by omega)) h
    | afterE0 =>
      obtain ⟨x, rest, rfl, hl, hh, h⟩ := exists_tail h (by simp) fun _ => rfl
      obtain ⟨y, rest, rfl, hy, h⟩ := exists_tail_one h
      simp only [State.Leads] at hb
      exact .of_encode (exists_encode_three (by omega) (by omega)
        ⟨Nat.le_trans (by decide) hl, hh⟩ hy (fun _ => hl) (by omega)) h
    | afterED =>
      obtain ⟨x, rest, rfl, hl, hh, h⟩ := exists_tail h (by simp) fun _ => rfl
      obtain ⟨y, rest, rfl, hy, h⟩ := exists_tail_one h
      simp only [State.Leads] at hb
      exact .of_encode (exists_encode_three (by omega) (by omega)
        ⟨hl, Nat.le_trans hh (by decide)⟩ hy (by omega) fun _ => hh) h
    | afterF0 =>
      obtain ⟨x, rest, rfl, hl, hh, h⟩ := exists_tail h (by simp) fun _ => rfl
      obtain ⟨y, z, rest, rfl, hy, hz, h⟩ := exists_tail_two h
      simp only [State.Leads] at hb
      exact .of_encode (exists_encode_four (by omega) (by omega)
        ⟨Nat.le_trans (by decide) hl, hh⟩ hy hz (fun _ => hl) (by omega)) h
    | afterF4 =>
      obtain ⟨x, rest, rfl, hl, hh, h⟩ := exists_tail h (by simp) fun _ => rfl
      obtain ⟨y, z, rest, rfl, hy, hz, h⟩ := exists_tail_two h
      simp only [State.Leads] at hb
      exact .of_encode (exists_encode_four (by omega) (by omega)
        ⟨hl, Nat.le_trans hh (by decide)⟩ hy hz (by omega) fun _ => hh) h

/-! ### The check against the definition -/

theorem encode_ne_nil (c : Char) : String.utf8EncodeChar c ≠ [] := by
  rw [← List.length_pos_iff, String.length_utf8EncodeChar]
  exact c.utf8Size_pos

/-- The check ends between characters exactly on well-formed texts. -/
theorem walk_eq_boundary_iff (bs : Bytes) :
    walk .boundary bs = (.boundary, []) ↔ WellFormed bs := by
  constructor
  · intro h
    induction hn : bs.length using Nat.strongRecOn generalizing bs with
    | ind n ih =>
      cases bs with
      | nil => exact ⟨[], rfl⟩
      | cons b bs =>
        obtain ⟨c, rest, hsplit, hrest⟩ := exists_encode h
        have hlt : rest.length < n := by
          have := List.length_pos_iff.2 (encode_ne_nil c)
          rw [← hn, hsplit, List.length_append]
          omega
        obtain ⟨cs, rfl⟩ := ih rest.length hlt rest hrest rfl
        exact ⟨c :: cs, by rw [hsplit, List.flatMap_cons]⟩
  · rintro ⟨cs, rfl⟩
    have := walk_flatMap_encode cs []
    rwa [List.append_nil] at this

theorem valid_iff (bs : Bytes) : valid bs = true ↔ WellFormed bs := by
  rw [valid, decide_eq_true_iff, walk_eq_boundary_iff]

/-- A shortest way to the end of the character. -/
def State.completion : State → Bytes
  | .boundary => []
  | .oneMore => [0x80]
  | .twoMore => [0x80, 0x80]
  | .threeMore => [0x80, 0x80, 0x80]
  | .afterE0 => [0xA0, 0x80]
  | .afterED => [0x80, 0x80]
  | .afterF0 => [0x90, 0x80, 0x80]
  | .afterF4 => [0x80, 0x80, 0x80]

theorem walk_completion (s : State) : walk s s.completion = (.boundary, []) := by
  cases s <;> rfl

/-- The check takes in all bytes exactly as long as they can still become a well-formed text. -/
theorem walk_eq_nil_iff (bs : Bytes) : (walk .boundary bs).2 = [] ↔ Extensible bs := by
  constructor
  · intro h
    refine ⟨(walk .boundary bs).1.completion, ?_⟩
    rw [← walk_eq_boundary_iff, walk_append _ _ _ h, walk_completion]
  · rintro ⟨tail, h⟩
    rw [← walk_eq_boundary_iff] at h
    refine Classical.byContradiction fun hbad => hbad ?_
    rw [walk_append_of_bad _ _ _ hbad] at h
    exact (List.append_eq_nil_iff.1 (congrArg Prod.snd h)).1

end WireServer.Utf8
