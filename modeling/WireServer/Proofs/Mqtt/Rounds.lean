import WireServer.Mqtt.Registers
import WireServer.Proofs.Mqtt.Conversation

/-! The rounds of the loop that reads a packet. From sound registers no round meets a trap, each one
leaves the rest of the call to the next, and a call ends on every input with what the session makes
of it. -/

namespace WireServer.Mqtt

namespace Registers

variable {r : Registers} {limit : Nat}

/-! ### Words -/

theorem sum_of_lt {a b : UInt32} (h : a.toNat + b.toNat < 2 ^ 32) :
    sum a b = .ok (a + b) ∧ (a + b).toUInt64 = a.toUInt64 + b.toUInt64 := by
  refine ⟨if_pos h, ?_⟩
  rw [← UInt64.toNat_inj, UInt32.toNat_toUInt64, UInt32.toNat_add, UInt64.toNat_add,
    UInt32.toNat_toUInt64, UInt32.toNat_toUInt64]
  omega

theorem product_of_lt {a b : UInt32} (h : a.toNat * b.toNat < 2 ^ 32) :
    product a b = .ok (a * b) ∧ (a * b).toUInt64 = a.toUInt64 * b.toUInt64 := by
  refine ⟨if_pos h, ?_⟩
  rw [← UInt64.toNat_inj, UInt32.toNat_toUInt64, UInt32.toNat_mul, UInt64.toNat_mul,
    UInt32.toNat_toUInt64, UInt32.toNat_toUInt64]
  omega

theorem increment_of_lt {n : UInt8} (h : n.toNat < 4) : increment n = .ok (n + 1) :=
  if_pos (show n.toNat + 1 < 2 ^ 8 by omega)

theorem high_bit_iff (b : UInt8) : b &&& 0x80 ≠ 0 ↔ 0x80 ≤ b := by
  have hbits : ∀ v : BitVec 8, v &&& 0x80 ≠ 0 ↔ 0x80 ≤ v := by decide
  rw [Ne, ← UInt8.toBitVec_inj]
  exact hbits b.toBitVec

/-! ### What rounds keep -/

/-- The words of a length whose last byte is still to come. -/
abbrev Counted (r : Registers) : Prop :=
  Counting r.lengthBytes.toNat r.remaining.toNat r.remaining.toUInt64 r.lengthBytes
    r.multiplier.toUInt64

/-- The words behind the last byte of a length. -/
structure Known (limit : Nat) (remaining multiplier : UInt32) (lengthBytes : UInt8) : Prop where
  few : lengthBytes.toNat ≤ 4
  weight : multiplier.toNat ≤ 128 ^ 3
  value : remaining.toNat < 128 ^ 4
  fits : remaining.toNat ≤ limit

/-- What holds before and behind every round. -/
def Sound (limit : Nat) (r : Registers) : Prop :=
  match r.stage with
  | .control => r.remaining = 0 ∧ r.multiplier = 1 ∧ r.lengthBytes = 0 ∧ r.body = []
  | .length => r.Counted ∧ r.body = []
  | .body =>
    Known limit r.remaining r.multiplier r.lengthBytes ∧ r.body.length < r.remaining.toNat
  | .complete =>
    Known limit r.remaining r.multiplier r.lengthBytes ∧ r.body.length = r.remaining.toNat

theorem Counted.multiplier_eq (h : r.Counted) : r.multiplier.toNat = 128 ^ r.lengthBytes.toNat := by
  rw [← h.weight_eq, UInt32.toNat_toUInt64]

theorem Counted.multiplier_le (h : r.Counted) : r.multiplier.toNat ≤ 128 ^ 3 :=
  h.multiplier_eq ▸ h.pow_le

theorem Sound.steady (h : r.Sound limit) (hstage : r.stage ≠ .complete) : r.view.Steady := by
  cases hs : r.stage <;> simp only [Sound, hs] at h
  · exact ⟨by simp [view, hs], by simp [view, hs], fun _ => h.2.2.2⟩
  · exact ⟨by simp [view, hs], by simp [view, hs], fun _ => h.2⟩
  · refine ⟨by simp [view, hs], fun n hn => ?_, fun hno => absurd ?_ (hno r.remaining.toNat)⟩
    · have heq : r.remaining.toNat = n := by simpa [view, hs] using hn
      exact heq ▸ h.2
    · simp [view, hs]
  · exact absurd hs hstage

/-! ### The length -/

/-- The words with one byte more. They are what the session counts. -/
theorem Counted.read (h : r.Counted) (limit : Nat) (b : UInt8) : ∃ n : UInt32,
    n.toUInt64 = r.remaining.toUInt64 + (b &&& 0x7F).toUInt64 * r.multiplier.toUInt64 ∧
    n.toNat < 128 ^ (r.lengthBytes.toNat + 1) ∧
    r.readLength limit b =
      let q : Registers := { r with remaining := n, lengthBytes := r.lengthBytes + 1 }
      if 0x80 ≤ b then
        if r.lengthBytes + 1 = maxLengthBytes then .ok (q, .error .malformedLength)
        else do
          let multiplier ← product r.multiplier 128
          return ({ q with multiplier }, .ok 1)
      else if limit < n.toNat then .ok (q, .error (.tooLarge n.toNat limit))
      else .ok ({ q with stage := if n = 0 then .complete else .body }, .ok 1) := by
  have hlow : (b &&& 0x7F).toUInt32.toNat ≤ 127 := by
    rw [UInt8.toNat_toUInt32, UInt8.toNat_and]
    exact Nat.and_le_right
  have hmul := h.multiplier_le
  have hsmall : r.remaining.toNat < 128 ^ r.lengthBytes.toNat := h.small
  have hpow := h.pow_le
  have hprod : (b &&& 0x7F).toUInt32.toNat * r.multiplier.toNat ≤
      127 * 128 ^ r.lengthBytes.toNat := by
    rw [h.multiplier_eq]
    exact Nat.mul_le_mul_right _ hlow
  obtain ⟨hproduct, hpart⟩ :=
    product_of_lt (a := (b &&& 0x7F).toUInt32) (b := r.multiplier) (by omega)
  have hpartNat : ((b &&& 0x7F).toUInt32 * r.multiplier).toNat =
      (b &&& 0x7F).toUInt32.toNat * r.multiplier.toNat := by
    rw [UInt32.toNat_mul]
    omega
  obtain ⟨hsum, hvalue⟩ :=
    sum_of_lt (a := r.remaining) (b := (b &&& 0x7F).toUInt32 * r.multiplier) (by omega)
  refine ⟨r.remaining + (b &&& 0x7F).toUInt32 * r.multiplier, ?_, ?_, ?_⟩
  · rw [hvalue, hpart]
    rfl
  · rw [UInt32.toNat_add, hpartNat, Nat.pow_succ]
    omega
  · simp only [readLength, hproduct, hsum, increment_of_lt h.few, bind, Except.bind, high_bit_iff,
      pure, Except.pure]

theorem Counted.toNat_count (h : r.Counted) :
    (r.lengthBytes + 1).toNat = r.lengthBytes.toNat + 1 := by
  have hfew : r.lengthBytes.toNat < 4 := h.few
  rw [UInt8.toNat_add, UInt8.toNat_one]
  omega

/-- Where the length may go on, the next byte of it has a weight. -/
theorem Counted.more (h : r.Counted) (hk : r.lengthBytes.toNat < 3) {b : UInt8} {n : UInt32}
    (hn : n.toUInt64 = r.remaining.toUInt64 + (b &&& 0x7F).toUInt64 * r.multiplier.toUInt64) :
    product r.multiplier 128 = .ok (r.multiplier * 128) ∧
      (r.multiplier * 128).toUInt64 = r.multiplier.toUInt64 * 128 ∧
      Counted { r with
        remaining := n, lengthBytes := r.lengthBytes + 1, multiplier := r.multiplier * 128 } := by
  have hmul : r.multiplier.toNat ≤ 128 ^ 2 := by
    rw [h.multiplier_eq]
    exact Nat.pow_le_pow_right (by decide) (Nat.le_of_lt_succ hk)
  obtain ⟨hproduct, hweight⟩ := product_of_lt (a := r.multiplier) (b := 128)
    (show r.multiplier.toNat * 128 < 2 ^ 32 by omega)
  refine ⟨hproduct, hweight, ?_⟩
  have hnext := h.next hk b
  rw [← hn] at hnext
  have hvalue : n.toNat = r.remaining.toNat + b.toNat % 128 * 128 ^ r.lengthBytes.toNat := by
    rw [← hnext.value_eq, UInt32.toNat_toUInt64]
  rw [← hvalue, ← h.toNat_count] at hnext
  simp only [Counted, hweight]
  exact hnext

/-- Behind the last byte of a length the body is empty, and so complete if the length is zero. -/
theorem Counted.last (h : r.Counted) (hbody : r.body = []) {n : UInt32}
    (hsmall : n.toNat < 128 ^ (r.lengthBytes.toNat + 1)) (hfits : n.toNat ≤ limit) :
    Sound limit { r with
      remaining := n, lengthBytes := r.lengthBytes + 1,
      stage := if n = 0 then .complete else .body } := by
  have hpow : 128 ^ (r.lengthBytes.toNat + 1) ≤ 128 ^ 4 :=
    Nat.pow_le_pow_right (by decide) h.few
  have hknown : Known limit n r.multiplier (r.lengthBytes + 1) :=
    ⟨h.toNat_count ▸ h.few, h.multiplier_le, Nat.lt_of_lt_of_le hsmall hpow, hfits⟩
  by_cases hzero : n = 0
  · simp only [Sound, if_pos hzero]
    exact ⟨hknown, by rw [hbody, hzero]; rfl⟩
  · simp only [Sound, if_neg hzero]
    refine ⟨hknown, ?_⟩
    rw [hbody]
    exact Nat.pos_of_ne_zero fun h0 => hzero (UInt32.toNat_inj.mp h0)

/-- One byte of a length ends in an error, as it does for the session, or leaves sound registers. -/
theorem readLength_cases (h : r.Counted) (hstage : r.stage = .length) (hbody : r.body = [])
    (limit : Nat) (b : UInt8) :
    ∃ q : Registers,
      (∃ e, r.readLength limit b = .ok (q, .error e) ∧
        r.view.readLength limit r.remaining.toUInt64 r.lengthBytes r.multiplier.toUInt64 b =
          (q.view, some e)) ∨
      (r.readLength limit b = .ok (q, .ok 1) ∧ q.Sound limit ∧
        r.view.readLength limit r.remaining.toUInt64 r.lengthBytes r.multiplier.toUInt64 b =
          (q.view, none)) := by
  obtain ⟨n, hn, hsmall, hread⟩ := h.read limit b
  rw [hread]
  simp only [Session.readLength, ← hn, UInt32.toNat_toUInt64, gt_iff_lt]
  by_cases hmore : 0x80 ≤ b
  · simp only [if_pos hmore]
    by_cases hfull : r.lengthBytes + 1 = maxLengthBytes
    · simp only [if_pos hfull]
      exact ⟨_, .inl ⟨_, rfl, by simp only [view, hstage]⟩⟩
    · have hk : r.lengthBytes.toNat < 3 := by
        have hfew : r.lengthBytes.toNat < 4 := h.few
        have := mt h.count_full.mpr hfull
        omega
      obtain ⟨hproduct, hweight, hcounted⟩ := h.more hk hn
      simp only [if_neg hfull, hproduct]
      refine ⟨_, .inr ⟨rfl, ?_, ?_⟩⟩
      · simp only [Sound, hstage]
        exact ⟨hcounted, hbody⟩
      · simp only [view, hstage, hweight]
  · simp only [if_neg hmore]
    by_cases hlarge : limit < n.toNat
    · simp only [if_pos hlarge]
      exact ⟨_, .inl ⟨_, rfl, by simp only [view, hstage]⟩⟩
    · have hzero : n.toUInt64 = 0 ↔ n = 0 := by
        rw [← UInt64.toNat_inj, UInt32.toNat_toUInt64, ← UInt32.toNat_inj]
        rfl
      simp only [if_neg hlarge, hzero]
      refine ⟨_, .inr ⟨rfl, h.last hbody hsmall (Nat.le_of_not_lt hlarge), ?_⟩⟩
      by_cases h0 : n = 0 <;> simp only [view, h0, if_true, if_false]

/-! ### A round -/

/-- A part of the packet was read, and what is left is left to the next round. -/
structure Advances (limit : Nat) (r : Registers) (rest : Bytes) (q : Registers) (took : Nat) :
    Prop where
  sound : q.Sound limit
  moved : 0 < took
  within : took ≤ rest.length
  same : q.view.parse limit (rest.drop took) = r.view.parse limit rest

theorem control_advances (h : r.Sound limit) (hstage : r.stage = .control) (b : UInt8)
    (rest : Bytes) :
    Advances limit r (b :: rest) { r with control := b, stage := .length } 1 := by
  simp only [Sound, hstage] at h
  obtain ⟨hremaining, hmultiplier, hcount, hbody⟩ := h
  have hphase : r.view.phase = .control := by simp only [view, hstage]
  refine ⟨?_, Nat.one_pos, Nat.succ_pos _, ?_⟩
  · simp only [Sound, Counted, hremaining, hmultiplier, hcount]
    exact ⟨.start, hbody⟩
  · rw [Session.parse_control hphase, List.drop_succ_cons, List.drop_zero]
    simp only [view, hremaining, hmultiplier, hcount]
    rfl

theorem body_advances (h : r.Sound limit) (hstage : r.stage = .body) {rest : Bytes}
    (hrest : rest ≠ []) :
    ∃ q took, r.readBody rest = .ok (q, .ok took) ∧ Advances limit r rest q took := by
  simp only [Sound, hstage] at h
  obtain ⟨hknown, hroom⟩ := h
  have hphase : r.view.phase = .body r.remaining.toNat := by simp only [view, hstage]
  have hroom' : r.view.body.length < r.remaining.toNat := hroom
  have hleft : difference r.remaining.toNat r.body.length = .ok (r.remaining.toNat - r.body.length) :=
    if_pos (Nat.le_of_lt hroom)
  have hpos : 0 < rest.length := List.length_pos_iff.mpr hrest
  refine ⟨_, _, by simp only [readBody, hleft]; rfl, ?_⟩
  by_cases hlong : r.remaining.toNat ≤ r.body.length + rest.length
  · have htook : min (r.remaining.toNat - r.body.length) rest.length =
        r.remaining.toNat - r.body.length := by omega
    have hfull : (r.body ++ rest.take (r.remaining.toNat - r.body.length)).length =
        r.remaining.toNat := by
      rw [List.length_append, List.length_take_of_le (by omega)]
      omega
    simp only [htook, hfull, if_true]
    refine ⟨⟨hknown, hfull⟩, by omega, by omega, ?_⟩
    rw [Session.parse_body hphase hroom', Session.readBody_of_long hroom' hlong,
      Session.parse_complete rfl]
    rfl
  · have htook : min (r.remaining.toNat - r.body.length) rest.length = rest.length := by omega
    have hshort : (r.body ++ rest).length ≠ r.remaining.toNat := by
      rw [List.length_append]
      omega
    simp only [htook, List.take_length, hshort, if_false]
    refine ⟨⟨hknown, ?_⟩, hpos, Nat.le_refl _, ?_⟩
    · show (r.body ++ rest).length < r.remaining.toNat
      rw [List.length_append]
      omega
    · rw [Session.parse_body hphase hroom', Session.readBody_of_short (Nat.lt_of_not_le hlong),
        List.drop_length, Session.parse_nil]
      rfl

/-- A round is the last one, ends in an error, or leaves the rest to the next. -/
theorem part_cases (h : r.Sound limit) (rest : Bytes) :
    (r.part limit rest = none ∧ (rest ≠ [] → r.stage = .complete) ∧
      r.view.parse limit rest = (r.view, .ok rest)) ∨
    (∃ q e, r.part limit rest = some (.ok (q, .error e)) ∧
      r.view.parse limit rest = (q.view, .error e)) ∨
    ∃ q took, r.part limit rest = some (.ok (q, .ok took)) ∧ Advances limit r rest q took := by
  cases rest with
  | nil => exact .inl ⟨by cases hs : r.stage <;> simp only [part], nofun, Session.parse_nil⟩
  | cons b rest =>
    cases hs : r.stage with
    | control =>
      exact .inr (.inr ⟨_, _, by simp only [part, hs], control_advances h hs b rest⟩)
    | length =>
      obtain ⟨hcounted, hbody⟩ : r.Counted ∧ r.body = [] := by simpa only [Sound, hs] using h
      have hphase : r.view.phase =
          .length r.remaining.toUInt64 r.lengthBytes r.multiplier.toUInt64 := by
        simp only [view, hs]
      obtain ⟨q, ⟨e, hread, hsession⟩ | ⟨hread, hsound, hsession⟩⟩ :=
        readLength_cases hcounted hs hbody limit b
      · exact .inr (.inl ⟨q, e, by simp only [part, hs, hread],
          Session.parse_length_error hphase hsession rest⟩)
      · exact .inr (.inr ⟨q, 1, by simp only [part, hs, hread], hsound, Nat.one_pos,
          Nat.succ_pos _, (Session.parse_length hphase hsession rest).symm⟩)
    | body =>
      obtain ⟨q, took, hread, hadvances⟩ := body_advances h hs (List.cons_ne_nil b rest)
      exact .inr (.inr ⟨q, took, by simp only [part, hs, hread], hadvances⟩)
    | complete =>
      have hphase : r.view.phase = .complete := by simp only [view, hs]
      exact .inl ⟨by simp only [part, hs], fun _ => rfl, Session.parse_complete hphase _⟩

/-! ### A call -/

/-- What every round of a call keeps: going on from its place comes to what the whole call comes
to. -/
structure Underway (limit : Nat) (r : Registers) (src : Bytes) (s : Registers × Nat) : Prop where
  sound : s.1.Sound limit
  inside : s.2 ≤ src.length
  same : s.1.view.parse limit (src.drop s.2) = r.view.parse limit src

/-- What a call comes to: no trap, and what the session makes of the input. Without an error the
registers are sound, and some of the input is left only behind a complete packet. -/
def Ends (limit : Nat) (r : Registers) (src : Bytes) (a : Answer) : Prop :=
  ∃ q result, a = .ok (q, result) ∧ r.view.parse limit src = (q.view, result.map src.drop) ∧
    ∀ n, result = .ok n →
      q.Sound limit ∧ n ≤ src.length ∧ (n < src.length → q.stage = .complete)

/-- One round goes on, further into the input, or ends the call. -/
theorem round_cases {src : Bytes} {s : Registers × Nat} (h : Underway limit r src s) :
    (∃ s', round limit src s = .inl s' ∧ Underway limit r src s' ∧ s.2 < s'.2) ∨
    ∃ a, round limit src s = .inr a ∧ Ends limit r src a := by
  obtain ⟨q, offset⟩ := s
  have hinside : offset ≤ src.length := h.inside
  obtain ⟨hpart, hcomplete, hview⟩ | ⟨q', e, hpart, hview⟩ | ⟨q', took, hpart, hadvances⟩ :=
    part_cases h.sound (src.drop offset)
  · refine .inr ⟨_, by simp only [round, hpart], q, .ok offset, rfl, h.same.symm.trans hview, ?_⟩
    rintro n ⟨⟩
    refine ⟨h.sound, hinside, fun hlt => hcomplete ?_⟩
    rw [← List.length_pos_iff, List.length_drop]
    omega
  · exact .inr ⟨_, by simp only [round, hpart], q', .error e, rfl, h.same.symm.trans hview, nofun⟩
  · refine .inl ⟨(q', offset + took), by simp only [round, hpart], ⟨hadvances.sound, ?_, ?_⟩,
      Nat.lt_add_of_pos_right hadvances.moved⟩
    · have hwithin := hadvances.within
      rw [List.length_drop] at hwithin
      show offset + took ≤ src.length
      omega
    · rw [← List.drop_drop]
      exact hadvances.same.trans h.same

/-- A call ends on every input, within a round for each byte and one more. -/
theorem parse_ends (h : r.Sound limit) (src : Bytes) {rounds : Nat} (hrounds : src.length < rounds) :
    ∃ a, r.parse limit rounds src = some a ∧ Ends limit r src a := by
  let left (s : Registers × Nat) : Nat := src.length - s.2
  have hstep : ∀ s s', Underway limit r src s → round limit src s = .inl s' →
      Underway limit r src s' ∧ left s' < left s := by
    intro s s' hs hround
    obtain ⟨t, ht, hnext, hmoved⟩ | ⟨a, ha, -⟩ := round_cases hs
    · cases ht.symm.trans hround
      have hinside := hnext.inside
      exact ⟨hnext, show src.length - s'.2 < src.length - s.2 by omega⟩
    · cases ha.symm.trans hround
  have hstart : Underway limit r src (r, 0) := ⟨h, Nat.zero_le _, rfl⟩
  obtain ⟨last, a, hlast, hend, hrun⟩ :=
    Loop.exists_run hstep hstart (show left (r, 0) < rounds from hrounds)
  refine ⟨a, hrun, ?_⟩
  obtain ⟨t, ht, -⟩ | ⟨b, hb, hends⟩ := round_cases hlast
  · cases ht.symm.trans hend
  · cases hb.symm.trans hend
    exact hends

/-- Pieces come to what the session makes of all of the input at once. -/
theorem parseAll_ends (h : r.Sound limit) (hstage : r.stage ≠ .complete) (cuts : List Bytes) :
    ∃ q result, r.parseAll limit cuts = some (.ok (q, result)) ∧
      r.view.parse limit cuts.flatten = (q.view, result) ∧
      ∀ rest, result = .ok rest → q.Sound limit := by
  induction cuts generalizing r with
  | nil => exact ⟨r, .ok [], rfl, Session.parse_nil, fun _ _ => h⟩
  | cons src more ih =>
    obtain ⟨_, hparse, q, result, rfl, hview, hends⟩ := parse_ends h src (Nat.lt_succ_self _)
    rw [List.flatten_cons, Session.parse_append (h.steady hstage), hview, parseAll, hparse]
    cases result with
    | error e => exact ⟨q, .error e, rfl, rfl, nofun⟩
    | ok n =>
      obtain ⟨hsound, -, -⟩ := hends n rfl
      have hphase : q.view.phase = .complete ↔ q.stage = .complete := by
        cases hs : q.stage <;> simp [view, hs]
      by_cases hdone : q.stage = .complete
      · simp only [if_pos hdone, Except.map, Session.andThen_ok, if_pos (hphase.mpr hdone)]
        exact ⟨q, _, rfl, rfl, fun _ _ => hsound⟩
      · simp only [if_neg hdone, Except.map, Session.andThen_ok, if_neg (mt hphase.mp hdone)]
        exact ih hsound hdone

end Registers

end WireServer.Mqtt
