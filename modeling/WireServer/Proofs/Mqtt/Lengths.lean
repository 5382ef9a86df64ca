import WireServer.Proofs.Mqtt.Rounds

/-! Remaining lengths. A number below `128 ^ 4` is read from any of its spellings, in any pieces, and
the packet is as long as it says; four bytes that all go on are none. In every state that is reached
without an error the words keep to bounds far below what they can hold. -/

namespace WireServer.Mqtt

/-- A number in so many bytes, seven bits each, low bits first. With more bytes than it needs, zeros
stand behind it. -/
def spell : Nat → Nat → Bytes
  | 0, _ => []
  | 1, n => [UInt8.ofNat n]
  | width + 2, n => UInt8.ofNat (128 + n % 128) :: spell (width + 1) (n / 128)

theorem length_spell (width n : Nat) : (spell width n).length = width := by
  induction width, n using spell.induct with
  | case1 => rfl
  | case2 => rfl
  | case3 width n ih => rw [spell, List.length_cons, ih]

theorem spells_spell (width : Nat) {n : Nat} (h : n < 128 ^ (width + 1)) :
    Spells (spell (width + 1) n) n := by
  induction width generalizing n with
  | zero =>
    have hvalue : (UInt8.ofNat n).toNat = n := by
      rw [UInt8.toNat_ofNat']
      omega
    have hlast : UInt8.ofNat n < 0x80 := by
      rw [UInt8.lt_iff_toNat_lt, hvalue]
      exact h
    have hspells := Spells.last hlast
    rwa [hvalue] at hspells
  | succ width ih =>
    have hvalue : (UInt8.ofNat (128 + n % 128)).toNat = 128 + n % 128 := by
      rw [UInt8.toNat_ofNat']
      omega
    have hmore : 0x80 ≤ UInt8.ofNat (128 + n % 128) := by
      rw [UInt8.le_iff_toNat_le, hvalue]
      exact Nat.le_add_right ..
    have hrest : n / 128 < 128 ^ (width + 1) := by
      rw [Nat.div_lt_iff_lt_mul (by decide), ← Nat.pow_succ]
      exact h
    have hspells := Spells.more hmore (ih hrest)
    rwa [hvalue, Nat.add_sub_cancel_left, Nat.mod_add_div] at hspells

/-! ### What the session makes of a packet -/

namespace Session

variable {s s' : Session} {limit n : Nat} {length : Bytes}

/-- A length within the limit, and behind it as much of the body as there is. -/
theorem parse_counted (hphase : s.phase = .control) (hbody : s.body = []) (control : UInt8)
    (hn : Spells length n) (hfew : length.length ≤ 4) (hfits : n ≤ limit) (tail : Bytes) :
    s.parse limit (control :: (length ++ tail)) =
      ({ s with
        control, body := tail.take n,
        phase := if n ≤ tail.length then .complete else .body n }, .ok (tail.drop n)) := by
  let s₁ : Session := { s with control, phase := behindLength n }
  rw [(parse_header hphase control hn hfew tail).1 hfits]
  show s₁.parse limit tail = _
  by_cases hzero : n = 0
  · have hdone : s₁.phase = .complete := if_pos hzero
    rw [parse_complete hdone]
    simp [s₁, hzero, hbody, behindLength]
  · have hphase₁ : s₁.phase = .body n := if_neg hzero
    have hroom : s₁.body.length < n := by simpa [s₁, hbody] using Nat.pos_of_ne_zero hzero
    rw [parse_body hphase₁ hroom]
    by_cases hlong : n ≤ tail.length
    · rw [readBody_of_long hroom (by omega)]
      simp [s₁, hbody, hlong]
    · have hshort : s₁.body.length + tail.length < n := by simpa [s₁, hbody] using hlong
      rw [readBody_of_short hshort]
      simp [s₁, hbody, hlong, List.take_of_length_le (Nat.le_of_not_le hlong),
        List.drop_of_length_le (Nat.le_of_not_le hlong)]

/-- A length that is too large stays with the session that refuses it. -/
theorem phase_of_tooLarge {src : Bytes} {limit' : Nat}
    (h : s.parse limit src = (s', .error (.tooLarge n limit'))) :
    ∃ value count weight, s'.phase = .length value count weight ∧ value.toNat = n := by
  induction src generalizing s with
  | nil => cases h
  | cons b src ih =>
    cases hphase : s.phase with
    | control =>
      rw [parse_control hphase] at h
      exact ih h
    | length value count weight =>
      rcases hread : s.readLength limit value count weight b with ⟨s₁, _ | e⟩
      · rw [parse_length hphase hread] at h
        exact ih h
      · rw [parse_length_error hphase hread] at h
        cases h
        simp only [readLength] at hread
        split at hread
        · split at hread <;> cases hread
        · split at hread
          · cases hread
            exact ⟨_, _, _, rfl, rfl⟩
          · cases hread
    | body m =>
      simp only [parse, hphase] at h
      cases h
    | complete =>
      rw [parse_complete hphase] at h
      cases h

end Session

namespace Registers

variable {r : Registers} {limit : Nat} {handed : Bool}

/-! ### States without an error -/

/-- The states that a fresh reader comes to as long as nothing fails, those between two rounds of a
call included, and whether the complete packet is handed over already. -/
inductive Reached (limit : Nat) : Bool → Registers → Prop where
  | fresh : Reached limit false {}
  | part {r q : Registers} {rest : Bytes} {took : Nat} :
    Reached limit false r → r.part limit rest = some (.ok (q, .ok took)) → Reached limit false q
  | handOver {r q : Registers} :
    Reached limit false r → r.stage = .complete → r.handOver = (q, .ok ()) → Reached limit true q
  | reset {r : Registers} : Reached limit true r → Reached limit false r.reset
  /-- Some of the output is sent. -/
  | write {r : Registers} (out : Net.Chain) :
    Reached limit false r → Reached limit false { r with out }
  /-- The server stops. -/
  | stop {r : Registers} :
    Reached limit false r → Reached limit false { r with disconnecting := true }

/-- What holds while a complete packet is handed over and the reader is not reset. -/
structure Emptied (limit : Nat) (r : Registers) : Prop where
  stage : r.stage = .complete
  known : Known limit r.remaining r.multiplier r.lengthBytes
  body : r.body = []

theorem Sound.part {q : Registers} {rest : Bytes} {took : Nat} (h : r.Sound limit)
    (hpart : r.part limit rest = some (.ok (q, .ok took))) : q.Sound limit := by
  obtain ⟨hnone, -⟩ | ⟨_, _, herror, -⟩ | ⟨q', took', hnext, hadvances⟩ := part_cases h rest
  · cases hnone.symm.trans hpart
  · cases herror.symm.trans hpart
  · cases hnext.symm.trans hpart
    exact hadvances.sound

theorem Sound.handOver {q : Registers} (h : r.Sound limit) (hstage : r.stage = .complete)
    (hrun : r.handOver = (q, .ok ())) : q.Emptied limit := by
  simp only [Sound, hstage] at h
  have hbody := Session.completePacket_body r.view
  simp only [Registers.handOver, Prod.mk.injEq] at hrun
  obtain ⟨rfl, -⟩ := hrun
  exact ⟨hstage, h.1, hbody⟩

theorem Emptied.reset (h : r.Emptied limit) : r.reset.Sound limit := ⟨rfl, rfl, rfl, h.body⟩

/-- Neither output nor a stop has to do with the packet. -/
theorem Sound.congr {q : Registers} (h : r.Sound limit) (hstage : q.stage = r.stage)
    (hremaining : q.remaining = r.remaining) (hmultiplier : q.multiplier = r.multiplier)
    (hcount : q.lengthBytes = r.lengthBytes) (hbody : q.body = r.body) : q.Sound limit := by
  simpa only [Sound, Counted, hstage, hremaining, hmultiplier, hcount, hbody] using h

theorem Reached.invariant (h : Reached limit handed r) :
    if handed then r.Emptied limit else r.Sound limit := by
  induction h with
  | fresh => exact ⟨rfl, rfl, rfl, rfl⟩
  | part _ hpart ih => exact Sound.part ih hpart
  | handOver _ hstage hrun ih => exact Sound.handOver ih hstage hrun
  | reset _ ih => exact Emptied.reset ih
  | write out _ ih => exact Sound.congr ih rfl rfl rfl rfl rfl
  | stop _ ih => exact Sound.congr ih rfl rfl rfl rfl rfl

theorem Reached.sound (h : Reached limit false r) : r.Sound limit := h.invariant

/-- The words keep to these bounds, and the body to the length. -/
structure Bounded (r : Registers) : Prop where
  multiplier : r.multiplier.toNat ≤ 128 ^ 3
  remaining : r.remaining.toNat ≤ 268435455
  lengthBytes : r.lengthBytes.toNat ≤ 4
  body : r.body.length ≤ r.remaining.toNat
  empty : r.stage = .control → r.body = []

theorem Known.bounded (h : Known limit r.remaining r.multiplier r.lengthBytes)
    (hbody : r.body.length ≤ r.remaining.toNat) (hstage : r.stage ≠ .control) : r.Bounded where
  multiplier := h.weight
  remaining := Nat.le_of_lt_succ h.value
  lengthBytes := h.few
  body := hbody
  empty hs := absurd hs hstage

theorem Sound.bounded (h : r.Sound limit) : r.Bounded := by
  cases hs : r.stage with
  | control =>
    simp only [Sound, hs] at h
    obtain ⟨hremaining, hmultiplier, hcount, hbody⟩ := h
    refine ⟨?_, ?_, ?_, ?_, fun _ => hbody⟩
    · simp [hmultiplier]
    · simp [hremaining]
    · simp [hcount]
    · simp [hbody]
  | length =>
    simp only [Sound, hs] at h
    obtain ⟨hcounted, hbody⟩ := h
    have hpow := hcounted.pow_le
    have hsmall := hcounted.small
    refine ⟨hcounted.multiplier_le, by omega, Nat.le_of_lt hcounted.few, ?_, fun _ => hbody⟩
    simp [hbody]
  | body =>
    simp only [Sound, hs] at h
    exact h.1.bounded (Nat.le_of_lt h.2) (by simp [hs])
  | complete =>
    simp only [Sound, hs] at h
    exact h.1.bounded (Nat.le_of_eq h.2) (by simp [hs])

theorem Reached.bounded (h : Reached limit handed r) : r.Bounded := by
  have hinvariant := h.invariant
  cases handed with
  | false => exact Sound.bounded hinvariant
  | true =>
    obtain ⟨hstage, hknown, hbody⟩ : r.Emptied limit := hinvariant
    exact hknown.bounded (by simp [hbody]) (by simp [hstage])

/-! ### Reading -/

theorem Reached.run {q : Registers} {src : Bytes} {rounds offset used : Nat}
    (h : Reached limit false r)
    (hrun : Loop.run (round limit src) rounds (r, offset) = some (.ok (q, .ok used))) :
    Reached limit false q := by
  induction rounds generalizing r offset with
  | zero => cases hrun
  | succ rounds ih =>
    rw [Loop.run, round] at hrun
    rcases hpart : r.part limit (src.drop offset) with _ | _ | ⟨q', _ | took⟩ <;>
      simp only [hpart] at hrun
    · cases hrun
      exact h
    · cases hrun
    · cases hrun
    · exact ih (.part h hpart) hrun

theorem phase_eq_complete_iff : r.view.phase = .complete ↔ r.stage = .complete := by
  cases hs : r.stage <;> simp [view, hs]

/-- Handing over takes no part in the framing. -/
theorem completePacket_view (r : Registers) :
    r.view.completePacket = (r.handOver.1.view, r.handOver.2) := by
  have hphase : r.view.completePacket.1.phase = r.view.phase := by
    simp only [Session.completePacket]
    split <;> try rfl
    split <;> rfl
  have hcontrol : r.view.completePacket.1.control = r.view.control := by
    simp only [Session.completePacket]
    split <;> try rfl
    split <;> rfl
  refine Prod.ext ?_ rfl
  rw [Session.mk.injEq]
  exact ⟨hphase, hcontrol, rfl, rfl, rfl, rfl⟩

/-- Where a session comes to without an error, the registers come to as well. -/
theorem Reached.consume {src : Bytes} {s : Session} (h : Reached limit false r)
    (hstage : r.stage ≠ .complete) (hrun : r.view.consume limit src = (s, .ok ())) :
    ∃ q, Reached limit false q ∧ s = q.view := by
  induction hn : src.length using Nat.strongRecOn generalizing r src with
  | ind n ih =>
    by_cases hopen : r.disconnecting = true
    · rw [Session.consume_of_disconnecting hopen] at hrun
      cases hrun
      exact ⟨r, h, rfl⟩
    have hsteady := h.sound.steady hstage
    have hopen' : r.view.disconnecting = false := Bool.eq_false_iff.mpr hopen
    rw [Session.consume_eq hsteady hopen'] at hrun
    obtain ⟨_, hparse, q, result, rfl, hview, hends⟩ :=
      parse_ends h.sound src (Nat.lt_succ_self src.length)
    rw [hview] at hrun
    cases result with
    | error e => cases hrun
    | ok used =>
      have hq : Reached limit false q := h.run hparse
      rw [Except.map, Session.andThen_ok] at hrun
      by_cases hdone : q.stage = .complete
      · rw [if_pos (phase_eq_complete_iff.mpr hdone), completePacket_view] at hrun
        rcases hhand : q.handOver with ⟨q', e | ⟨⟩⟩ <;> rw [hhand] at hrun
        · cases hrun
        · have hless : (src.drop used).length < n := by
            obtain ⟨-, hless⟩ | ⟨hsteady', -⟩ := hsteady.of_parse hview
            · exact hn ▸ hless
            · exact absurd (phase_eq_complete_iff.mpr hdone) hsteady'.incomplete
          exact ih _ hless (.reset (.handOver hq hdone hhand)) nofun hrun rfl
      · rw [if_neg (mt phase_eq_complete_iff.mp hdone)] at hrun
        cases hrun
        exact ⟨q, hq, rfl⟩

/-- What a packet comes to whose length is spelled. -/
theorem parseAll_spelled (h : r.Sound limit) (hstage : r.stage = .control) {control : UInt8}
    {n : Nat} {length tail : Bytes} {cuts : List Bytes} (hn : Spells length n)
    (hfew : length.length ≤ 4) (hcuts : cuts.flatten = control :: (length ++ tail)) :
    ∃ q result, r.parseAll limit cuts = some (.ok (q, result)) ∧ q.remaining.toNat = n ∧
      (limit < n → result = .error (.tooLarge n limit)) ∧
      (n ≤ limit → result = .ok (tail.drop n) ∧ q.body = tail.take n ∧
        (q.stage = .complete ↔ n ≤ tail.length)) := by
  have hphase : r.view.phase = .control := by simp only [view, hstage]
  have hbody : r.view.body = [] :=
    (h.steady (by simp [hstage])).empty fun _ => by simp [hphase]
  obtain ⟨q, result, hrun, hview, hsound⟩ := parseAll_ends h (by simp [hstage]) cuts
  rw [hcuts] at hview
  refine ⟨q, result, hrun, ?_⟩
  by_cases hlarge : limit < n
  · have herror := (Session.parse_header hphase control hn hfew tail).2 hlarge
    rw [hview] at herror
    obtain rfl : result = .error (.tooLarge n limit) := herror
    obtain ⟨value, count, weight, hlength, hvalue⟩ := Session.phase_of_tooLarge hview
    refine ⟨?_, fun _ => rfl, fun hfits => absurd hlarge (Nat.not_lt.mpr hfits)⟩
    cases hs : q.stage <;> simp only [view, hs, Phase.length.injEq, reduceCtorEq] at hlength
    rw [← hvalue, ← hlength.1, UInt32.toNat_toUInt64]
  · have hfits : n ≤ limit := Nat.le_of_not_lt hlarge
    rw [Session.parse_counted hphase hbody control hn hfew hfits] at hview
    obtain ⟨hsession, rfl⟩ := Prod.mk.inj hview
    have htaken : q.body = tail.take n := congrArg Session.body hsession.symm
    have hends : q.view.phase = if n ≤ tail.length then .complete else .body n :=
      congrArg Session.phase hsession.symm
    have hdone : q.stage = .complete ↔ n ≤ tail.length := by
      rw [← phase_eq_complete_iff, hends]
      split <;> simp [*]
    refine ⟨?_, fun h => absurd h hlarge, fun _ => ⟨rfl, htaken, hdone⟩⟩
    by_cases hlong : n ≤ tail.length
    · obtain ⟨-, hfull⟩ : _ ∧ q.body.length = q.remaining.toNat := by
        simpa only [Sound, hdone.mpr hlong] using hsound _ rfl
      rw [← hfull, htaken, List.length_take_of_le hlong]
    · rw [if_neg hlong] at hends
      cases hs : q.stage <;> simp only [view, hs, Phase.body.injEq, reduceCtorEq] at hends
      exact hends

/-- Four bytes of a length that all go on. -/
theorem parseAll_endless (h : r.Sound limit) (hstage : r.stage = .control) {control : UInt8}
    {length tail : Bytes} {cuts : List Bytes} (hall : Unended length) (hlen : length.length = 4)
    (hcuts : cuts.flatten = control :: (length ++ tail)) :
    ∃ q, r.parseAll limit cuts = some (.ok (q, .error .malformedLength)) := by
  have hphase : r.view.phase = .control := by simp only [view, hstage]
  obtain ⟨q, result, hrun, hview, -⟩ := parseAll_ends h (by simp [hstage]) cuts
  have herror :
      ({ r.view with control, phase := .length 0 0 1 }.parse limit (length ++ tail)).2 =
        .error .malformedLength :=
    Session.parse_endless rfl .start hall (by omega) tail
  rw [hcuts, Session.parse_control hphase] at hview
  rw [hview] at herror
  obtain rfl : result = .error .malformedLength := herror
  exact ⟨q, hrun⟩

/-- The remaining length of a packet. In every state that is reached without an error the words keep
to their bounds, the body keeps to the length and is empty where a packet starts; a call on any
input ends without a trap, as the session that the registers are those of, and that session comes to
no state but these. From the start of a packet, whatever pieces the input comes in, a number in one
to four bytes is read as that number: it is refused if it passes the limit, and as many bytes are
collected otherwise, after which the packet is complete. A length that goes on behind its fourth
byte is malformed. -/
theorem remaining_length_read (h : Reached limit handed r) :
    r.Bounded ∧
    (handed = false →
      (∀ src rounds, src.length < rounds → ∃ q result,
        r.parse limit rounds src = some (.ok (q, result)) ∧
        r.view.parse limit src = (q.view, result.map src.drop)) ∧
      (r.stage ≠ .complete → ∀ src s, r.view.consume limit src = (s, .ok ()) →
        ∃ q, Reached limit false q ∧ s = q.view)) ∧
    (r.stage = .control → ∀ (control : UInt8) (tail : Bytes) (cuts : List Bytes),
      (∀ width n, 0 < width → width ≤ 4 → n < 128 ^ width →
        cuts.flatten = control :: (spell width n ++ tail) →
        ∃ q result, r.parseAll limit cuts = some (.ok (q, result)) ∧ q.remaining.toNat = n ∧
          (limit < n → result = .error (.tooLarge n limit)) ∧
          (n ≤ limit → result = .ok (tail.drop n) ∧ q.body = tail.take n ∧
            (q.stage = .complete ↔ n ≤ tail.length))) ∧
      (∀ length, Unended length → length.length = 4 →
        cuts.flatten = control :: (length ++ tail) →
        ∃ q, r.parseAll limit cuts = some (.ok (q, .error .malformedLength)))) := by
  refine ⟨h.bounded, ?_, fun hstage => ?_⟩
  · rintro rfl
    refine ⟨fun src rounds hrounds => ?_, fun hstage src s => h.consume hstage⟩
    obtain ⟨_, hparse, q, result, rfl, hview, -⟩ := parse_ends h.sound src hrounds
    exact ⟨q, result, hparse, hview⟩
  · have hsound : r.Sound limit := by
      cases handed with
      | false => exact h.sound
      | true => cases hstage.symm.trans (Emptied.stage h.invariant)
    intro control tail cuts
    refine ⟨fun width n hpos hfew hn hcuts => ?_, fun length hall hlen hcuts =>
      parseAll_endless hsound hstage hall hlen hcuts⟩
    obtain ⟨width, rfl⟩ := Nat.exists_eq_add_one_of_ne_zero (Nat.ne_of_gt hpos)
    exact parseAll_spelled hsound hstage (spells_spell width hn)
      (Nat.le_trans (Nat.le_of_eq (length_spell _ _)) hfew) hcuts

/-- Behind a CONNECT, up to a second packet. -/
def opened : Registers where
  connect := some ⟨4, 2, 60, "", none, none, none⟩
  out := Net.Chain.push {} connackAccepted

theorem reached_opened : Reached 256 false opened := by
  let body : Bytes := [0, 4, 77, 81, 84, 84, 4, 2, 0, 60, 0, 0]
  let inLength : Registers := { stage := .length, control := 0x10 }
  let inBody : Registers := { inLength with stage := .body, remaining := 12, lengthBytes := 1 }
  let whole : Registers := { inBody with stage := .complete, body }
  let handed : Registers := { whole with body := [], connect := opened.connect, out := opened.out }
  have hcontrol : part 256 {} [0x10] = some (.ok (inLength, .ok 1)) := by decide
  have hlength : inLength.part 256 [12] = some (.ok (inBody, .ok 1)) := by decide
  have hbody : inBody.part 256 body = some (.ok (whole, .ok 12)) := by decide
  have hconnect : whole.handOver = (handed, .ok ()) := by decide
  exact .reset (.handOver (.part (.part (.part .fresh hcontrol) hlength) hbody) rfl hconnect)

/-- 130 bytes behind a length with a zero group, cut inside the length and inside the body. -/
theorem remaining_length_read_padded :
    let tail : Bytes := List.replicate 130 7 ++ [0xC0]
    let cuts : List Bytes :=
      [[0x30, 0x82], [], [0x81, 0x00, 7], List.replicate 128 7, [7, 0xC0]]
    Reached 256 false opened ∧ opened.stage = .control ∧
      cuts.flatten = 0x30 :: (spell 3 130 ++ tail) ∧
      ∃ q, opened.parseAll 256 cuts = some (.ok (q, .ok [0xC0])) ∧ q.remaining.toNat = 130 ∧
        q.body = List.replicate 130 7 ∧ q.stage = .complete := by
  intro tail cuts
  have hcuts : cuts.flatten = 0x30 :: (spell 3 130 ++ tail) := by decide
  obtain ⟨-, -, hread⟩ := remaining_length_read reached_opened
  obtain ⟨hspelled, -⟩ := hread rfl 0x30 tail cuts
  obtain ⟨q, result, hrun, hvalue, -, hfits⟩ :=
    hspelled 3 130 (by decide) (by decide) (by decide) hcuts
  obtain ⟨rfl, hbody, hdone⟩ := hfits (by decide)
  have hlength : (List.replicate 130 (7 : UInt8)).length = 130 := List.length_replicate
  rw [List.drop_left' hlength] at hrun
  rw [List.take_left' hlength] at hbody
  exact ⟨reached_opened, rfl, hcuts, q, hrun, hvalue, hbody, hdone.mpr (by simp [tail])⟩

end Registers

end WireServer.Mqtt
