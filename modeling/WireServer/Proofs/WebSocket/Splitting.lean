import WireServer.WebSocket.Parser

/-! A stream may be cut anywhere. One call on a longer input is the call on its front, gone on with;
from that, reading chunk by chunk comes to what reading the whole stream comes to. -/

namespace WireServer.WebSocket.Parser

/-- What a call comes to: the violation, or the parser with the bytes that it left. -/
def Outcome.result (o : Outcome) : Except Violation (Parser × Bytes) :=
  o.2.map fun rest => (o.1, rest)

@[simp] theorem result_ok (p : Parser) (rest : Bytes) :
    Outcome.result (p, .ok rest) = .ok (p, rest) := rfl

@[simp] theorem result_error (p : Parser) (v : Violation) :
    Outcome.result (p, .error v) = .error v := rfl

/-- Going on with more input: a complete frame leaves it alone. -/
def resume (more : Bytes) : Parser × Bytes → Except Violation (Parser × Bytes)
  | (p, rest) => if p.isComplete then .ok (p, rest ++ more) else (p.parse more).result

/-- What holds between two calls that met no violation. -/
def Steady (p : Parser) : Prop :=
  match p.phase with
  | .op | .len => p.parsed = 0 ∧ p.payload = []
  | .extended _ left => 0 < left ∧ p.parsed = 0 ∧ p.payload = []
  | .maskingKey got =>
    got.length < 4 ∧ p.parsed = 0 ∧ p.payload = [] ∧ p.length ≤ p.rules.maxPayload
  | .payload mask =>
    p.parsed < p.length ∧ p.payload.length = p.parsed ∧ p.length ≤ p.rules.maxPayload ∧
      ∀ m ∈ mask, m.offset < 4
  | .complete =>
    p.parsed = p.length ∧ p.payload.length = p.parsed ∧ p.length ≤ p.rules.maxPayload

/-! ### Payload -/

@[simp] theorem inText_absorb (p : Parser) (mask : Option Mask) (chunk : Bytes) :
    (p.absorb mask chunk).inText = p.inText := rfl

@[simp] theorem utf8_absorb (p : Parser) (mask : Option Mask) (chunk : Bytes) :
    (p.absorb mask chunk).utf8 =
      if p.inText then (Utf8.walk p.utf8 (Mask.strip mask chunk)).1 else p.utf8 := rfl

theorem finish_append (p : Parser) (xs ys : Bytes) :
    (p.finish (xs ++ ys)).result = (p.finish xs).result.bind (resume ys) := by
  unfold finish
  split
  · rfl
  · split
    · rfl
    · simp [Except.bind, resume, isComplete]

theorem spoils_append (p : Parser) (mask : Option Mask) (xs ys : Bytes) :
    p.spoils (Mask.strip mask (xs ++ ys)) = (p.spoils (Mask.strip mask xs) ||
      (p.absorb mask xs).spoils (Mask.strip (mask.map (·.skip xs.length)) ys)) := by
  rw [Mask.strip_append]
  by_cases ht : p.inText
  · by_cases hb : (Utf8.walk p.utf8 (Mask.strip mask xs)).2 = []
    · simp only [spoils, inText_absorb, ht, hb, Utf8.walk_append _ _ _ hb]
      simp [absorb, ht]
    · obtain ⟨b, bad, hw⟩ := List.exists_cons_of_ne_nil hb
      simp [spoils, ht, Utf8.walk_append_of_bad _ _ _ hb, hw]
  · simp [spoils, ht]

theorem absorb_append (p : Parser) (mask : Option Mask) (xs ys : Bytes)
    (h : p.spoils (Mask.strip mask xs) = false) :
    p.absorb mask (xs ++ ys) = (p.absorb mask xs).absorb (mask.map (·.skip xs.length)) ys := by
  have hmask : mask.map (·.skip (xs ++ ys).length) =
      (mask.map (·.skip xs.length)).map (·.skip ys.length) := by
    cases mask <;> simp [Mask.skip_skip]
  have hutf8 : (p.absorb mask (xs ++ ys)).utf8 =
      ((p.absorb mask xs).absorb (mask.map (·.skip xs.length)) ys).utf8 := by
    by_cases ht : p.inText
    · have hb : (Utf8.walk p.utf8 (Mask.strip mask xs)).2 = [] := by simpa [spoils, ht] using h
      simp only [utf8_absorb, inText_absorb, ht, if_true, Mask.strip_append,
        Utf8.walk_append _ _ _ hb]
    · simp only [utf8_absorb, inText_absorb, ht, Bool.false_eq_true, if_false]
  simp only [absorb, Mask.strip_append, hmask] at hutf8 ⊢
  rw [hutf8]
  simp [Nat.add_assoc]

/-- Payload bytes may come in two pieces. -/
theorem readPayload_append (p : Parser) (mask : Option Mask) (xs ys : Bytes)
    (h : p.parsed ≤ p.length) :
    (p.readPayload mask (xs ++ ys)).result = (p.readPayload mask xs).result.bind (resume ys) := by
  by_cases hx : p.length - p.parsed ≤ xs.length
  · -- the frame ends in the first piece
    have htake : (xs ++ ys).take (p.length - p.parsed) = xs.take (p.length - p.parsed) :=
      List.take_append_of_le_length hx
    have hdrop : (xs ++ ys).drop (p.length - p.parsed) = xs.drop (p.length - p.parsed) ++ ys :=
      List.drop_append_of_le_length hx
    have hfull : (p.absorb mask (xs.take (p.length - p.parsed))).parsed =
        (p.absorb mask (xs.take (p.length - p.parsed))).length := by
      simp only [absorb, List.length_take]
      omega
    simp only [readPayload, htake, hdrop, hfull, if_true]
    split
    · rfl
    · exact finish_append _ _ _
  · have hxs : xs.take (p.length - p.parsed) = xs := List.take_of_length_le (by omega)
    have htake : (xs ++ ys).take (p.length - p.parsed) =
        xs ++ ys.take (p.length - p.parsed - xs.length) := by
      rw [List.take_append, hxs]
    have hdrop : (xs ++ ys).drop (p.length - p.parsed) =
        ys.drop (p.length - p.parsed - xs.length) := by
      rw [List.drop_append, List.drop_of_length_le (by omega), List.nil_append]
    have hleft : (p.absorb mask xs).length - (p.absorb mask xs).parsed =
        p.length - p.parsed - xs.length := by
      simp only [absorb]
      omega
    have hpart : (p.absorb mask xs).parsed ≠ (p.absorb mask xs).length := by
      simp only [absorb]
      omega
    by_cases hs : p.spoils (Mask.strip mask xs)
    · simp [readPayload, hxs, htake, hs, spoils_append, Except.bind]
    · have hs' : p.spoils (Mask.strip mask xs) = false := by simpa using hs
      have hfirst : (p.readPayload mask xs).result = .ok (p.absorb mask xs, []) := by
        simp [readPayload, hxs, hs', hpart,
          List.drop_of_length_le (show xs.length ≤ p.length - p.parsed by omega)]
      have hgo : resume ys (p.absorb mask xs, []) =
          ((p.absorb mask xs).readPayload (mask.map (·.skip xs.length)) ys).result := by
        simp only [resume, isComplete, absorb, reduceCtorEq, decide_false, Bool.false_eq_true,
          if_false]
        rfl
      rw [hfirst, Except.bind, hgo]
      simp only [readPayload, htake, hdrop, hleft, spoils_append, hs', Bool.false_or,
        absorb_append _ _ _ _ hs']
      split <;> rfl

/-! ### Masking key and length -/

theorem ofBytes?_of_length_lt {bs : Bytes} (h : bs.length < 4) : MaskKey.ofBytes? bs = none := by
  match bs, h with
  | [], _ | [_], _ | [_, _], _ | [_, _, _], _ => rfl

theorem exists_ofBytes? (bs : Bytes) (h : bs.length = 4) : ∃ k, MaskKey.ofBytes? bs = some k := by
  match bs, h with
  | [a, b, c, d], _ => exact ⟨⟨a, b, c, d⟩, rfl⟩

/-- Too few bytes for the key: they are kept. -/
theorem readKey_of_lt (p : Parser) {got src : Bytes} (h : got.length + src.length < 4) :
    p.readKey got src = ({ p with phase := .maskingKey (got ++ src) }, .ok []) := by
  simp only [readKey, List.take_of_length_le (show src.length ≤ 4 - got.length by omega),
    List.drop_of_length_le (show src.length ≤ 4 - got.length by omega),
    ofBytes?_of_length_lt (show (got ++ src).length < 4 by simpa using h)]

theorem readKey_append (p : Parser) (got xs ys : Bytes) (hgot : got.length < 4)
    (h : p.parsed ≤ p.length) :
    (p.readKey got (xs ++ ys)).result = (p.readKey got xs).result.bind (resume ys) := by
  by_cases hx : got.length + xs.length < 4
  · rw [readKey_of_lt p hx, result_ok, Except.bind]
    have hgo : resume ys ({ p with phase := .maskingKey (got ++ xs) }, []) =
        ({ p with phase := .maskingKey (got ++ xs) }.readKey (got ++ xs) ys).result := by
      cases ys with
      | nil =>
        rw [readKey_of_lt]
        · simp [resume, isComplete, parse]
        · simpa using hx
      | cons b bs => simp [resume, isComplete, parse]
    rw [hgo]
    have htake : (xs ++ ys).take (4 - got.length) = xs ++ ys.take (4 - (got ++ xs).length) := by
      rw [List.take_append, List.take_of_length_le (by omega), List.length_append, Nat.sub_sub]
    have hdrop : (xs ++ ys).drop (4 - got.length) = ys.drop (4 - (got ++ xs).length) := by
      rw [List.drop_append, List.drop_of_length_le (by omega), List.length_append, Nat.sub_sub,
        List.nil_append]
    simp only [readKey, htake, hdrop, List.append_assoc]
    cases MaskKey.ofBytes? (got ++ (xs ++ ys.take (4 - (got ++ xs).length))) <;> rfl
  · have htake : (xs ++ ys).take (4 - got.length) = xs.take (4 - got.length) :=
      List.take_append_of_le_length (by omega)
    have hdrop : (xs ++ ys).drop (4 - got.length) = xs.drop (4 - got.length) ++ ys :=
      List.drop_append_of_le_length (by omega)
    obtain ⟨k, hk⟩ := exists_ofBytes? (got ++ xs.take (4 - got.length)) (by
      rw [List.length_append, List.length_take]
      omega)
    simp only [readKey, htake, hdrop, hk]
    exact readPayload_append p _ _ _ h

theorem lengthKnown_append (p : Parser) (masked : Bool) (xs ys : Bytes) (h : p.parsed = 0) :
    (p.lengthKnown masked (xs ++ ys)).result =
      (p.lengthKnown masked xs).result.bind (resume ys) := by
  unfold lengthKnown
  split
  · rfl
  · split
    · exact readKey_append p _ _ _ (by decide) (by omega)
    · exact readPayload_append p _ _ _ (by omega)

theorem extend_append (p : Parser) (masked : Bool) (left : Nat) (xs ys : Bytes) :
    p.extend masked left (xs ++ ys) =
      (p.extend masked left xs).extend masked (left - xs.length) ys := by
  simp [extend, List.foldl_append, Nat.sub_sub]

/-- Too few bytes for the extension: the length so far is kept. -/
theorem readExtended_of_lt (p : Parser) (masked : Bool) {left : Nat} {src : Bytes}
    (h : src.length < left) :
    p.readExtended masked left src = (p.extend masked left src, .ok []) := by
  simp only [readExtended, List.take_of_length_le (Nat.le_of_lt h), h, if_true]

theorem readExtended_append (p : Parser) (masked : Bool) (left : Nat) (xs ys : Bytes)
    (h : p.parsed = 0) :
    (p.readExtended masked left (xs ++ ys)).result =
      (p.readExtended masked left xs).result.bind (resume ys) := by
  by_cases hx : xs.length < left
  · rw [readExtended_of_lt p masked hx, result_ok, Except.bind]
    have hgo : resume ys (p.extend masked left xs, []) =
        ((p.extend masked left xs).readExtended masked (left - xs.length) ys).result := by
      cases ys with
      | nil =>
        rw [readExtended_of_lt _ _ (show 0 < left - xs.length by omega)]
        simp [resume, isComplete, parse, extend]
      | cons b bs => simp [resume, isComplete, parse, extend]
    have htake : (xs ++ ys).take left = xs ++ ys.take (left - xs.length) := by
      rw [List.take_append, List.take_of_length_le (by omega)]
    have hdrop : (xs ++ ys).drop left = ys.drop (left - xs.length) := by
      rw [List.drop_append, List.drop_of_length_le (by omega), List.nil_append]
    have hlt : (xs ++ ys.take (left - xs.length)).length < left ↔
        (ys.take (left - xs.length)).length < left - xs.length := by
      rw [List.length_append]
      omega
    simp only [hgo, readExtended, htake, hdrop, hlt, extend_append]
  · have htake : (xs ++ ys).take left = xs.take left := List.take_append_of_le_length (by omega)
    have hdrop : (xs ++ ys).drop left = xs.drop left ++ ys :=
      List.drop_append_of_le_length (by omega)
    have hfull : ¬ (xs.take left).length < left := by
      rw [List.length_take]
      omega
    simp only [readExtended, htake, hdrop, hfull, if_false]
    split
    · rfl
    · exact lengthKnown_append _ _ _ _ h

theorem readLength_append (p : Parser) (b : UInt8) (xs ys : Bytes) (h : p.parsed = 0) :
    (p.readLength b (xs ++ ys)).result = (p.readLength b xs).result.bind (resume ys) := by
  simp only [readLength]
  split
  · rfl
  · split
    · rfl
    · split
      · exact readExtended_append _ _ _ _ _ h
      · split
        · exact readExtended_append _ _ _ _ _ h
        · exact lengthKnown_append _ _ _ _ h

/-! ### Calls -/

theorem readOp_eq {p q : Parser} {b : UInt8} (h : p.readOp b = .ok q) :
    ∃ opcode kind, q = { p with phase := .len, flags := ⟨b⟩, opcode, current := kind } := by
  simp only [readOp] at h
  split at h
  · cases h
  · split at h
    · cases h
    · rename_i opcode _
      cases hk : p.admits ⟨b⟩ opcode with
      | error v =>
        rw [hk] at h
        cases h
      | ok kind =>
        rw [hk] at h
        cases h
        exact ⟨opcode, kind, rfl⟩

theorem absorb_nil (p : Parser) (mask : Option Mask) :
    p.absorb mask [] = { p with phase := .payload (mask.map (·.skip 0)) } := by
  simp [absorb, Utf8.walk]

/-- Without input nothing happens. -/
theorem parse_nil {p : Parser} (h : p.Steady) : p.parse [] = (p, .ok []) := by
  cases hphase : p.phase with
  | payload mask =>
    simp only [Steady, hphase] at h
    obtain ⟨hlt, -, -, hmask⟩ := h
    have hskip : mask.map (·.skip 0) = mask := by
      cases mask with
      | none => rfl
      | some m => rw [Option.map_some, Mask.skip_zero (hmask m rfl)]
    have hsame : p.absorb mask [] = p := by
      rw [absorb_nil, hskip, ← hphase]
    have hclean : p.spoils [] = false := by simp [spoils, Utf8.walk]
    simp [parse, hphase, readPayload, hsame, hclean, Nat.ne_of_lt hlt]
  | _ => simp [parse, hphase]

/-- Going on without anything left over is a call of its own. -/
theorem resume_nil_left (p : Parser) (more : Bytes) :
    resume more (p, []) = (p.parse more).result := by
  by_cases hc : p.phase = .complete <;> simp [resume, isComplete, hc, parse]

/-- A call on a longer input is the call on its front, gone on with. -/
theorem parse_append {p : Parser} (h : p.Steady) (xs ys : Bytes) :
    (p.parse (xs ++ ys)).result = (p.parse xs).result.bind (resume ys) := by
  match xs with
  | [] => simp [parse_nil h, Except.bind, resume_nil_left]
  | b :: bs =>
    rw [List.cons_append]
    cases hphase : p.phase with
    | op =>
      simp only [Steady, hphase] at h
      cases ho : p.readOp b with
      | error v => simp [parse, hphase, ho, Except.bind]
      | ok q =>
        obtain ⟨opcode, kind, rfl⟩ := readOp_eq ho
        cases bs with
        | nil => cases ys <;> simp [parse, hphase, ho, Except.bind, resume, isComplete]
        | cons c cs =>
          simp only [List.cons_append, parse, hphase, ho]
          exact readLength_append _ _ _ _ h.1
    | len =>
      simp only [Steady, hphase] at h
      simp only [parse, hphase]
      exact readLength_append p b bs ys h.1
    | extended masked left =>
      simp only [Steady, hphase] at h
      simp only [parse, hphase]
      exact readExtended_append p masked left (b :: bs) ys h.2.1
    | maskingKey got =>
      simp only [Steady, hphase] at h
      simp only [parse, hphase]
      exact readKey_append p got (b :: bs) ys h.1 (by omega)
    | payload mask =>
      simp only [Steady, hphase] at h
      simp only [parse, hphase]
      exact readPayload_append p mask (b :: bs) ys (by omega)
    | complete => simp [parse, hphase, Except.bind, resume, isComplete]

/-! ### What a call leaves -/

/-- A call that met no violation leaves a steady parser, and input only behind a complete frame. -/
structure Leaves (q : Parser) (rest : Bytes) (n : Nat) : Prop where
  steady : q.Steady
  empty : q.isComplete = false → rest = []
  length_le : rest.length ≤ n

theorem finish_leaves {p q : Parser} {src rest : Bytes} (hp : p.parsed = p.length)
    (hl : p.payload.length = p.parsed) (hm : p.length ≤ p.rules.maxPayload)
    (h : (p.finish src).result = .ok (q, rest)) : Leaves q rest src.length := by
  unfold finish at h
  split at h
  · cases h
  · split at h
    · cases h
    · cases h
      exact ⟨⟨hp, hl, hm⟩, by simp [isComplete], Nat.le_refl _⟩

theorem readPayload_leaves {p q : Parser} {mask : Option Mask} {src rest : Bytes}
    (hp : p.parsed ≤ p.length) (hl : p.payload.length = p.parsed)
    (hm : p.length ≤ p.rules.maxPayload) (h : (p.readPayload mask src).result = .ok (q, rest)) :
    Leaves q rest (src.length - (p.length - p.parsed)) := by
  have hlen : (p.absorb mask (src.take (p.length - p.parsed))).payload.length =
      (p.absorb mask (src.take (p.length - p.parsed))).parsed := by
    simp [absorb, hl]
  simp only [readPayload] at h
  split at h
  · cases h
  · split at h
    · rename_i hfull
      have := finish_leaves hfull hlen hm h
      rwa [List.length_drop] at this
    · rename_i hpart
      cases h
      have hlt : (p.absorb mask (src.take (p.length - p.parsed))).parsed < p.length := by
        simp only [absorb, List.length_take] at hpart ⊢
        omega
      refine ⟨⟨hlt, hlen, hm, ?_⟩, ?_, ?_⟩
      · intro m hmem
        obtain ⟨m', -, rfl⟩ := Option.map_eq_some_iff.1 hmem
        exact Mask.offset_skip_lt _ _
      · intro _
        apply List.drop_of_length_le
        simp only [absorb, List.length_take] at hlt
        omega
      · exact Nat.le_of_eq List.length_drop

theorem readKey_leaves {p q : Parser} {got src rest : Bytes} (hg : got.length < 4)
    (hp : p.parsed = 0) (hl : p.payload = []) (hm : p.length ≤ p.rules.maxPayload)
    (h : (p.readKey got src).result = .ok (q, rest)) : Leaves q rest (src.length - 1) := by
  simp only [readKey] at h
  split at h
  · rename_i k hk
    have := readPayload_leaves (by omega) (by simp [hl, hp]) hm h
    refine ⟨this.steady, this.empty, ?_⟩
    have := this.length_le
    rw [List.length_drop] at this
    omega
  · rename_i hk
    cases h
    have hshort : got.length + src.length < 4 := by
      refine Nat.lt_of_not_le fun hlong => ?_
      obtain ⟨k, hk'⟩ := exists_ofBytes? (got ++ src.take (4 - got.length)) (by
        rw [List.length_append, List.length_take]
        omega)
      rw [hk] at hk'
      cases hk'
    have hall : src.take (4 - got.length) = src := List.take_of_length_le (by omega)
    have hnone : src.drop (4 - got.length) = [] := List.drop_of_length_le (by omega)
    rw [hall, hnone]
    refine ⟨⟨by simpa using hshort, hp, hl, hm⟩, fun _ => rfl, Nat.zero_le _⟩

theorem lengthKnown_leaves {p q : Parser} {masked : Bool} {src rest : Bytes} (hp : p.parsed = 0)
    (hl : p.payload = []) (h : (p.lengthKnown masked src).result = .ok (q, rest)) :
    Leaves q rest src.length := by
  unfold lengthKnown at h
  split at h
  · cases h
  · have hm : p.length ≤ p.rules.maxPayload := by omega
    split at h
    · have := readKey_leaves (by decide) hp hl hm h
      exact ⟨this.steady, this.empty, Nat.le_trans this.length_le (by omega)⟩
    · have := readPayload_leaves (by omega) (by simp [hl, hp]) hm h
      exact ⟨this.steady, this.empty, Nat.le_trans this.length_le (by omega)⟩

theorem readExtended_leaves {p q : Parser} {masked : Bool} {left : Nat} {src rest : Bytes}
    (hleft : 0 < left) (hp : p.parsed = 0) (hl : p.payload = [])
    (h : (p.readExtended masked left src).result = .ok (q, rest)) :
    Leaves q rest (src.length - 1) := by
  simp only [readExtended] at h
  split at h
  · rename_i hshort
    cases h
    refine ⟨⟨?_, hp, hl⟩, fun _ => rfl, Nat.zero_le _⟩
    omega
  · split at h
    · cases h
    · have := lengthKnown_leaves (p := p.extend masked left (src.take left)) hp hl h
      refine ⟨this.steady, this.empty, Nat.le_trans this.length_le ?_⟩
      rw [List.length_drop]
      omega

theorem readLength_leaves {p q : Parser} {b : UInt8} {src rest : Bytes} (hp : p.parsed = 0)
    (hl : p.payload = []) (h : (p.readLength b src).result = .ok (q, rest)) :
    Leaves q rest src.length := by
  simp only [readLength] at h
  split at h
  · cases h
  · split at h
    · cases h
    · split at h
      · have := readExtended_leaves (by decide) (by exact hp) (by exact hl) h
        exact ⟨this.steady, this.empty, Nat.le_trans this.length_le (by omega)⟩
      · split at h
        · have := readExtended_leaves (by decide) (by exact hp) (by exact hl) h
          exact ⟨this.steady, this.empty, Nat.le_trans this.length_le (by omega)⟩
        · exact lengthKnown_leaves (by exact hp) (by exact hl) h

/-- A call on some input that starts inside a frame takes at least one byte. -/
theorem parse_leaves {p q : Parser} {b : UInt8} {bs rest : Bytes} (hs : p.Steady)
    (hc : p.isComplete = false) (h : (p.parse (b :: bs)).result = .ok (q, rest)) :
    Leaves q rest bs.length := by
  cases hphase : p.phase with
  | op =>
    simp only [Steady, hphase] at hs
    cases ho : p.readOp b with
    | error v =>
      simp only [parse, hphase, ho] at h
      cases h
    | ok p' =>
      obtain ⟨opcode, kind, rfl⟩ := readOp_eq ho
      cases bs with
      | nil =>
        simp only [parse, hphase, ho] at h
        cases h
        exact ⟨hs, fun _ => rfl, Nat.le_refl _⟩
      | cons c cs =>
        simp only [parse, hphase, ho] at h
        have := readLength_leaves (by exact hs.1) (by exact hs.2) h
        exact ⟨this.steady, this.empty, Nat.le_succ_of_le this.length_le⟩
  | len =>
    simp only [Steady, hphase] at hs
    simp only [parse, hphase] at h
    exact readLength_leaves hs.1 hs.2 h
  | extended masked left =>
    simp only [Steady, hphase] at hs
    simp only [parse, hphase] at h
    exact readExtended_leaves hs.1 hs.2.1 hs.2.2 h
  | maskingKey got =>
    simp only [Steady, hphase] at hs
    simp only [parse, hphase] at h
    exact readKey_leaves hs.1 hs.2.1 hs.2.2.1 hs.2.2.2 h
  | payload mask =>
    simp only [Steady, hphase] at hs
    simp only [parse, hphase] at h
    have := readPayload_leaves (Nat.le_of_lt hs.1) hs.2.1 hs.2.2.1 h
    refine ⟨this.steady, this.empty, Nat.le_trans this.length_le ?_⟩
    rw [List.length_cons]
    omega
  | complete => simp [isComplete, hphase] at hc

theorem steady_reset (p : Parser) : p.reset.Steady := ⟨rfl, rfl⟩

/-! ### Whole pieces -/

/-- What shows of a reading, however its input was cut: the frames, and then the violation or the
parser where the input ended. -/
def Reading.verdict (r : Reading) : List Received × Except Violation Parser :=
  (r.frames, match r.violation with | some v => .error v | none => .ok r.parser)

/-- Frames first, and then what comes of reading on. -/
def andThen (first : List Received × Except Violation Parser)
    (next : Parser → List Received × Except Violation Parser) :
    List Received × Except Violation Parser :=
  match first with
  | (frames, .error v) => (frames, .error v)
  | (frames, .ok p) => (frames ++ (next p).1, (next p).2)

theorem andThen_assoc (a : List Received × Except Violation Parser)
    (f g : Parser → List Received × Except Violation Parser) :
    andThen (andThen a f) g = andThen a fun p => andThen (f p) g := by
  obtain ⟨frames, v | p⟩ := a
  · rfl
  · rcases hf : f p with ⟨frames', v | q⟩ <;> simp [andThen, hf]

theorem andThen_nil (p : Parser) (next : Parser → List Received × Except Violation Parser) :
    andThen ([], .ok p) next = next p := by
  simp [andThen]

/-- Frames noted before come first. -/
theorem verdict_readFrames (n : Nat) (p : Parser) (src : Bytes) (frames : List Received) :
    (readFrames n p src frames).verdict =
      andThen (frames.reverse, .ok p) fun p => (readFrames n p src []).verdict := by
  induction n generalizing p src frames with
  | zero => simp [readFrames, Reading.verdict, andThen]
  | succ n ih =>
    cases src with
    | nil => simp [readFrames, Reading.verdict, andThen]
    | cons b bs =>
      simp only [readFrames, List.isEmpty_cons, Bool.false_eq_true, if_false]
      rcases hp : p.parse (b :: bs) with ⟨q, v | rest⟩
      · simp [Reading.verdict, andThen, hp]
      · by_cases hq : q.isComplete
        · simp only [hq, if_true]
          rw [ih q.reset rest (q.received :: frames)]
          simp only [andThen, hp, hq, if_true]
          rw [ih q.reset rest [q.received]]
          simp [andThen]
        · simp only [hq, Bool.false_eq_true, if_false]
          rw [ih q rest frames]
          simp [andThen, hp, hq]

/-- The first call on some input, and what comes after it. -/
def firstCall (p : Parser) (src : Bytes)
    (next : Parser → Bytes → List Received × Except Violation Parser) :
    List Received × Except Violation Parser :=
  match (p.parse src).result with
  | .error v => ([], .error v)
  | .ok (q, rest) =>
    if q.isComplete then andThen ([q.received], .ok q.reset) (next · rest) else ([], .ok q)

theorem verdict_readFrames_nil (n : Nat) (p : Parser) :
    (readFrames n p [] []).verdict = ([], .ok p) := by
  cases n <;> rfl

theorem verdict_readFrames_cons {p : Parser} (hs : p.Steady) (hc : p.isComplete = false) (n : Nat)
    (b : UInt8) (bs : Bytes) :
    (readFrames (n + 1) p (b :: bs) []).verdict =
      firstCall p (b :: bs) fun q rest => (readFrames n q rest []).verdict := by
  rw [readFrames]
  simp only [List.isEmpty_cons, Bool.false_eq_true, if_false, firstCall]
  rcases hp : p.parse (b :: bs) with ⟨q, v | rest⟩
  · rfl
  · have hl := parse_leaves hs hc (by rw [hp, result_ok])
    by_cases hq : q.isComplete
    · simp only [hq, if_true, result_ok]
      exact verdict_readFrames _ _ _ _
    · have hq' : q.isComplete = false := by simpa using hq
      simp only [hq', hl.empty hq', result_ok, Bool.false_eq_true, if_false]
      exact verdict_readFrames_nil n q

/-- Only what a call can leave matters for what comes after it. -/
theorem firstCall_congr {p : Parser} (hs : p.Steady) (hc : p.isComplete = false) {b : UInt8}
    {bs : Bytes} {f g : Parser → Bytes → List Received × Except Violation Parser}
    (h : ∀ q rest, q.Steady → q.isComplete = false → rest.length ≤ bs.length →
      f q rest = g q rest) :
    firstCall p (b :: bs) f = firstCall p (b :: bs) g := by
  unfold firstCall
  cases hp : (p.parse (b :: bs)).result with
  | error v => rfl
  | ok out =>
    obtain ⟨q, rest⟩ := out
    have hl := parse_leaves hs hc hp
    simp only [andThen, h q.reset rest (steady_reset q) rfl hl.length_le]

/-- More fuel than input never runs out. -/
theorem readFrames_fuel {n m : Nat} {p : Parser} {src : Bytes} (hs : p.Steady)
    (hc : p.isComplete = false) (hn : src.length < n) (hm : src.length < m) :
    (readFrames n p src []).verdict = (readFrames m p src []).verdict := by
  induction n generalizing m p src with
  | zero => exact absurd hn (Nat.not_lt_zero _)
  | succ n ih =>
    cases src with
    | nil => rw [verdict_readFrames_nil, verdict_readFrames_nil]
    | cons b bs =>
      obtain ⟨m, rfl⟩ : ∃ k, m = k + 1 := ⟨m - 1, by omega⟩
      rw [List.length_cons] at hn hm
      rw [verdict_readFrames_cons hs hc, verdict_readFrames_cons hs hc]
      refine firstCall_congr hs hc fun q rest hq hqc hle => ?_
      exact ih hq hqc (by omega) (by omega)

@[simp] theorem read_nil (p : Parser) : (p.read []).verdict = ([], .ok p) :=
  verdict_readFrames_nil _ p

/-- Reading is one call, and reading on behind the frame that it completed. -/
theorem verdict_read {p : Parser} (hs : p.Steady) (hc : p.isComplete = false) (src : Bytes) :
    (p.read src).verdict = firstCall p src fun q rest => (q.read rest).verdict := by
  cases src with
  | nil =>
    rw [read_nil, firstCall, parse_nil hs]
    simp [hc]
  | cons b bs =>
    rw [read, verdict_readFrames_cons hs hc]
    refine firstCall_congr hs hc fun q rest hq hqc hle => ?_
    exact readFrames_fuel hq hqc (by rw [List.length_cons]; omega) (Nat.lt_succ_self _)

/-- Input may come in two pieces: the second is read from where the first one ended. -/
theorem verdict_read_append {p : Parser} (hs : p.Steady) (hc : p.isComplete = false)
    (xs ys : Bytes) :
    (p.read (xs ++ ys)).verdict =
      andThen (p.read xs).verdict fun q => (q.read ys).verdict := by
  induction hn : xs.length using Nat.strongRecOn generalizing p xs with
  | ind n ih =>
    cases xs with
    | nil => rw [List.nil_append, read_nil, andThen_nil]
    | cons b bs =>
      rw [verdict_read hs hc (b :: bs), verdict_read hs hc (b :: bs ++ ys), firstCall, firstCall,
        parse_append hs]
      cases hp : (p.parse (b :: bs)).result with
      | error v => rfl
      | ok out =>
        obtain ⟨q, rest⟩ := out
        have hl := parse_leaves hs hc hp
        simp only [Except.bind, resume]
        by_cases hq : q.isComplete
        · simp only [hq, if_true, andThen_assoc]
          rw [List.length_cons] at hn
          have hlt : rest.length < n := by
            have := hl.length_le
            omega
          simp only [andThen, ih rest.length hlt (steady_reset q) rfl rest rfl]
        · have hq' : q.isComplete = false := by simpa using hq
          simp only [hq', Bool.false_eq_true, if_false, andThen_nil]
          rw [verdict_read hl.steady hq', firstCall]

/-- Where a reading ends without a violation, another can start. -/
theorem read_steady {p q : Parser} {src : Bytes} (hs : p.Steady) (hc : p.isComplete = false)
    (h : (p.read src).verdict.2 = .ok q) : q.Steady ∧ q.isComplete = false := by
  induction hn : src.length using Nat.strongRecOn generalizing p src with
  | ind n ih =>
    cases src with
    | nil =>
      rw [read_nil] at h
      cases h
      exact ⟨hs, hc⟩
    | cons b bs =>
      rw [verdict_read hs hc, firstCall] at h
      cases hp : (p.parse (b :: bs)).result with
      | error v =>
        rw [hp] at h
        cases h
      | ok out =>
        obtain ⟨q', rest⟩ := out
        have hl := parse_leaves hs hc hp
        simp only [hp] at h
        by_cases hq : q'.isComplete
        · simp only [hq, if_true, andThen] at h
          rw [List.length_cons] at hn
          have hlt : rest.length < n := by
            have := hl.length_le
            omega
          exact ih rest.length hlt (steady_reset q') rfl h rfl
        · simp only [hq, Bool.false_eq_true, if_false] at h
          cases h
          exact ⟨hl.steady, by simpa using hq⟩

/-! ### Chunks -/

/-- Takes in one chunk, with a call even when it is empty; what stands behind a complete frame is
read on. -/
def readChunk (p : Parser) (src : Bytes) : Reading :=
  match p.parse src with
  | (p, .error v) => { parser := p, rest := src, violation := some v }
  | (p, .ok rest) =>
    if p.isComplete then readFrames (rest.length + 1) p.reset rest [p.received]
    else { parser := p, rest }

/-- Chunks one after another, up to the first violation. -/
def readChunks : Parser → List Bytes → List Received × Except Violation Parser
  | p, [] => ([], .ok p)
  | p, c :: cs => andThen (p.readChunk c).verdict (readChunks · cs)

theorem verdict_readChunk {p : Parser} (hs : p.Steady) (hc : p.isComplete = false) (src : Bytes) :
    (p.readChunk src).verdict = (p.read src).verdict := by
  rw [verdict_read hs hc, readChunk, firstCall]
  rcases p.parse src with ⟨q, v | rest⟩
  · rfl
  · by_cases hq : q.isComplete
    · simp only [hq, if_true, result_ok]
      exact verdict_readFrames _ _ _ _
    · simp [hq, Reading.verdict]

/-- Chunks come to what their concatenation comes to. -/
theorem readChunks_eq_read {p : Parser} (hs : p.Steady) (hc : p.isComplete = false)
    (cs : List Bytes) : p.readChunks cs = (p.read cs.flatten).verdict := by
  induction cs generalizing p with
  | nil => rfl
  | cons c cs ih =>
    rw [List.flatten_cons, verdict_read_append hs hc, readChunks, verdict_readChunk hs hc]
    rcases hr : (p.read c).verdict with ⟨frames, v | q⟩
    · rfl
    · obtain ⟨hq, hqc⟩ := read_steady hs hc (by rw [hr])
      simp only [andThen, ih hq hqc]

/-- Two ways to cut one stream give a fresh parser the same frames, and then the same violation or
the same state. -/
theorem readChunks_cut (rules : Rules) (cs ds : List Bytes) (h : cs.flatten = ds.flatten) :
    ({ rules } : Parser).readChunks cs = ({ rules } : Parser).readChunks ds := by
  have hs : ({ rules } : Parser).Steady := ⟨rfl, rfl⟩
  rw [readChunks_eq_read hs rfl, readChunks_eq_read hs rfl, h]

/-- A masked text cut inside its only character, with a ping between the two frames: whole, and in
pieces that fall inside a key, with an empty one among them. -/
theorem readChunks_cut_fragmented_text :
    let whole : Bytes := [0x01, 0x81, 1, 2, 3, 4, 0xC2, 0x89, 0x80, 9, 9, 9, 9,
      0x80, 0x81, 1, 2, 3, 4, 0xA8]
    let parts : List Bytes := [whole.take 4, [], (whole.drop 4).take 6, whole.drop 10]
    [whole].flatten = parts.flatten ∧
      ({} : Parser).readChunks [whole] = ({} : Parser).readChunks parts ∧
      (({} : Parser).readChunks parts).1.map (·.payload) = [[0xC3], [], [0xA9]] :=
  ⟨by decide, readChunks_cut {} _ _ (by decide), by decide⟩

end WireServer.WebSocket.Parser
