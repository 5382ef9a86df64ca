import WireServer.Proofs.Text.Pieces
import WireServer.Proofs.WebSocket.Legality
import WireServer.WebSocket.Registers

/-! The rounds of the parser's loop. No round takes a difference below zero or a place outside of
the input, each one leaves the rest of the call to the next, and the loop is over within six of
them, also where it starts behind a violation. -/

namespace WireServer.WebSocket

/-! ### Words and keys -/

theorem MaskKey.write_fits (k : MaskKey) (i : Nat) (bs : Bytes) (h : i + bs.length ≤ 4) :
    ∃ k', k.write i bs = some k' ∧ k'.toBytes.take (i + bs.length) = k.toBytes.take i ++ bs := by
  have hi : (k.toBytes.take i).length = i := List.length_take_of_le (show i ≤ 4 by omega)
  obtain ⟨k', hk'⟩ := Parser.exists_ofBytes?
    (k.toBytes.take i ++ bs ++ k.toBytes.drop (i + bs.length)) (by
      rw [List.length_append, List.length_append, hi, List.length_drop,
        show k.toBytes.length = 4 from rfl]
      omega)
  refine ⟨k', hk', ?_⟩
  rw [toBytes_of_ofBytes? hk']
  exact List.take_left' (by rw [List.length_append, hi])

namespace Registers

theorem difference_of_le {a b : Nat} (h : b ≤ a) : difference a b = pure (a - b) := if_pos h

theorem toNat_shiftByte {len : UInt64} (b : UInt8) (h : len.toNat < 2 ^ 56) :
    (len <<< 8 ||| b.toUInt64).toNat = len.toNat * 256 + b.toNat := by
  have hshift : (len <<< 8).toNat = len.toNat <<< 8 := by
    rw [UInt64.toNat_shiftLeft]
    refine Nat.mod_eq_of_lt ?_
    rw [Nat.shiftLeft_eq]
    exact (show len.toNat * 256 < 2 ^ 64 by omega)
  rw [UInt64.toNat_or, hshift, UInt8.toNat_toUInt64, ← Nat.shiftLeft_add_eq_or_of_lt b.toNat_lt,
    Nat.shiftLeft_eq]

theorem top_bit_iff (len : UInt64) : len >>> (63 : UInt64) ≠ 0 ↔ 2 ^ 63 ≤ len.toNat := by
  have hshift : (len >>> (63 : UInt64)).toNat = len.toNat / 2 ^ 63 := by
    rw [UInt64.toNat_shiftRight, Nat.shiftRight_eq_div_pow]
    rfl
  rw [Ne, ← UInt64.toNat_inj, hshift, UInt64.toNat_zero]
  omega

/-- Eight bytes have room in a length. -/
theorem toNat_shiftIn {len : UInt64} {k : Nat} (bs : Bytes) (hlen : len.toNat < 256 ^ k)
    (hk : k + bs.length ≤ 8) :
    (shiftIn len bs).toNat = bs.foldl (fun n b => n * 256 + b.toNat) len.toNat ∧
      (shiftIn len bs).toNat < 256 ^ (k + bs.length) := by
  induction bs generalizing len k with
  | nil => exact ⟨rfl, hlen⟩
  | cons b bs ih =>
    rw [List.length_cons] at hk ⊢
    have hroom : len.toNat < 2 ^ 56 :=
      Nat.lt_of_lt_of_le hlen (Nat.pow_le_pow_right (show 0 < 256 by decide) (show k ≤ 7 by omega))
    have hword := toNat_shiftByte b hroom
    have hnext : (len <<< 8 ||| b.toUInt64).toNat < 256 ^ (k + 1) := by
      have := b.toNat_lt
      rw [hword, Nat.pow_succ]
      omega
    obtain ⟨hvalue, hbound⟩ := ih hnext (by omega)
    rw [hword] at hvalue
    exact ⟨hvalue, by rwa [show k + (bs.length + 1) = k + 1 + bs.length by omega]⟩

/-! ### What rounds keep -/

/-- The length is one that no frame may have. -/
def Overlong (r : Registers) : Prop := 2 ^ 63 ≤ r.len.toNat ∨ r.rules.maxPayload < r.len.toNat

/-- What holds before and behind every round. Where the last byte of a length is in and the length
is still to be checked, the check has failed before. -/
def Sound (r : Registers) : Prop :=
  match r.stage with
  | .op | .len => r.parsed = 0
  | .lenExtended =>
    r.parsed = 0 ∧ r.lenIdx ≤ r.lenNeeded ∧ r.lenNeeded ≤ 8 ∧ r.len.toNat < 256 ^ r.lenIdx ∧
      (r.lenIdx = r.lenNeeded → r.Overlong)
  | .maskingKey => r.parsed = 0 ∧ r.masked = true ∧ r.keyIdx < 4
  | .payload => r.parsed ≤ r.len ∧ r.mask.offset < 4
  | .complete => True

/-- What holds between two calls. Where the last byte of a payload is in and the frame is not
complete, its text has failed the check before. -/
structure Settled (r : Registers) : Prop where
  sound : r.Sound
  refused : r.stage = .payload → r.parsed = r.len → r.finish = (r, .error .invalidUtf8)

theorem Settled.of_sound {r : Registers} (h : r.Sound) (hstage : r.stage ≠ .payload) : r.Settled :=
  ⟨h, fun hp => absurd hp hstage⟩

/-- A part of the frame was read, and what is left is left to the next round. -/
structure Advances (r : Registers) (rest : Bytes) (r' : Registers) (took : Nat) : Prop where
  sound : r'.Sound
  within : took ≤ rest.length
  takes : r.Settled → rest ≠ [] → 0 < took
  same : r'.view.parse (rest.drop took) = r.view.parse rest

/-! ### The first two bytes -/

theorem parseOp_eq (r : Registers) {b : UInt8} {opcode : Opcode}
    (hreserved : Flags.reserved ⟨b⟩ = 0) (hcode : Flags.opcode? ⟨b⟩ = some opcode) :
    r.parseOp b =
      match r.view.admits ⟨b⟩ opcode with
      | .ok message => r.enterLen ⟨b⟩ opcode message
      | .error v => (r, .error v) := by
  simp only [parseOp, hreserved, hcode, ne_eq, not_true, if_false]
  cases opcode <;> simp only [Parser.admits, view] <;> split <;> simp [*]

/-- A first byte is taken or refused the same way. -/
theorem parseOp_cases (r : Registers) (b : UInt8) :
    (∃ v, r.parseOp b = (r, .error v) ∧ r.view.readOp b = .error v) ∨
      ∃ flags opcode message, r.parseOp b = r.enterLen flags opcode message ∧
        r.view.readOp b = .ok (r.enterLen flags opcode message).1.view := by
  by_cases hreserved : Flags.reserved ⟨b⟩ = 0
  · cases hcode : Flags.opcode? ⟨b⟩ with
    | none =>
      refine .inl ⟨.unknownOpcode (Flags.rawOpcode ⟨b⟩), ?_, ?_⟩
      · simp only [parseOp, hreserved, hcode, ne_eq, not_true, if_false]
      · simp only [Parser.readOp, hreserved, hcode]
        rfl
    | some opcode =>
      rw [parseOp_eq r hreserved hcode]
      simp only [Parser.readOp, hreserved, hcode]
      cases r.view.admits ⟨b⟩ opcode with
      | error v => exact .inl ⟨v, rfl, rfl⟩
      | ok message => exact .inr ⟨⟨b⟩, opcode, message, rfl, rfl⟩
  · refine .inl ⟨.reservedBits (Flags.reserved ⟨b⟩), if_pos hreserved, ?_⟩
    simp only [Parser.readOp, ne_eq, hreserved, not_false_eq_true, if_true]
    rfl

/-- The length is checked the same way wherever it stood in the frame. -/
theorem afterLen_cases (r : Registers) (hparsed : r.parsed = 0) (src : Bytes) :
    (∃ v, r.afterLen = (r, .error v) ∧ r.Overlong ∧
      r.view.lengthKnown r.masked src = (r.view, .error v)) ∨
    ∃ r', r.afterLen = (r', .ok ()) ∧ r.len.toNat ≤ r.rules.maxPayload ∧ r'.Sound ∧
      (r'.stage = .maskingKey ∨ r'.stage = .payload) ∧
      r'.view.parse src = r.view.lengthKnown r.masked src := by
  by_cases hlong : r.rules.maxPayload < r.len.toNat
  · exact .inl ⟨_, if_pos hlong, .inr hlong, if_pos hlong⟩
  rw [afterLen, if_neg hlong, Parser.lengthKnown,
    if_neg (show ¬ r.view.rules.maxPayload < r.view.length from hlong)]
  cases hmasked : r.masked with
  | true =>
    refine .inr ⟨_, rfl, Nat.le_of_not_lt hlong, ⟨hparsed, rfl, Nat.zero_lt_succ 3⟩,
      .inl rfl, ?_⟩
    cases src with
    | nil =>
      have hshort : ([] : Bytes).length + ([] : Bytes).length < 4 := by decide
      exact (Parser.readKey_of_lt r.view hshort).symm
    | cons b bs => rfl
  | false =>
    refine .inr ⟨_, rfl, Nat.le_of_not_lt hlong, ⟨?_, Nat.zero_lt_succ 3⟩, .inr rfl, ?_⟩
    · rw [hparsed]
      exact UInt64.zero_le
    · simp [view, Parser.parse, hmasked]
      rfl

/-! ### Lengths and keys -/

/-- Outside of a payload nothing happens without input. -/
theorem parse_nil_of_stage {r : Registers} (h : r.stage ≠ .payload) :
    r.view.parse [] = (r.view, .ok []) := by
  cases hstage : r.stage with
  | payload => exact absurd hstage h
  | _ => simp only [Parser.parse, view, hstage]

theorem parse_of_lenExtended {r : Registers} (hstage : r.stage = .lenExtended) {src : Bytes}
    (hsrc : src ≠ []) :
    r.view.parse src = r.view.readExtended r.masked (r.lenNeeded - r.lenIdx) src := by
  obtain ⟨b, bs, rfl⟩ := List.exists_cons_of_ne_nil hsrc
  simp only [Parser.parse, view, hstage]

/-- An extended length waits for input. -/
theorem parse_of_waiting (r : Registers) (src : Bytes) (hstage : r.stage = .lenExtended)
    (hidx : r.lenIdx < r.lenNeeded) :
    r.view.parse src = r.view.readExtended r.masked (r.lenNeeded - r.lenIdx) src := by
  cases src with
  | nil =>
    rw [Parser.readExtended_of_lt _ _ (show 0 < _ by omega), parse_nil_of_stage (by simp [hstage])]
    simp only [Parser.extend, view, hstage]
    rfl
  | cons b bs => exact parse_of_lenExtended hstage (List.cons_ne_nil b bs)

theorem parse_of_maskingKey {r : Registers} (hstage : r.stage = .maskingKey) {src : Bytes}
    (hsrc : src ≠ []) :
    r.view.parse src = r.view.readKey (r.key.toBytes.take r.keyIdx) src := by
  obtain ⟨b, bs, rfl⟩ := List.exists_cons_of_ne_nil hsrc
  simp only [Parser.parse, view, hstage]

theorem beginExtended_cases {r : Registers} (hparsed : r.parsed = 0) {needed : Nat}
    (hneeded : 0 < needed) (hfew : needed ≤ 8) (src : Bytes) :
    (r.beginExtended needed).Sound ∧
      (r.beginExtended needed).view.parse src =
        { r.view with length := 0 }.readExtended r.masked needed src :=
  ⟨⟨hparsed, Nat.zero_le _, hfew, show 0 < 1 by decide,
    fun h => absurd h (Nat.ne_of_lt hneeded)⟩, parse_of_waiting _ src rfl hneeded⟩

theorem parseLen_cases {r : Registers} (hparsed : r.parsed = 0) (hstage : r.stage = .len)
    (b : UInt8) (src : Bytes) :
    ∃ r', (∃ v, r.parseLen b = (r', .error v) ∧ r'.Settled ∧
        r.view.readLength b src = (r'.view, .error v)) ∨
      (r.parseLen b = (r', .ok ()) ∧ r'.Sound ∧ r'.stage ≠ .op ∧ r'.stage ≠ .len ∧
        r'.view.parse src = r.view.readLength b src) := by
  let masked := b &&& 0x80 != 0
  let code := b &&& 0x7F
  have hview (n : UInt64) :
      { r.view with phase := Phase.len, length := n.toNat } =
        { r with masked, len := n }.view := by
    simp only [view, hstage]
  have settled {q : Registers} (hq : q.stage = .len) (hparsed : q.parsed = 0) : q.Settled :=
    .of_sound (by rw [Sound, hq]; exact hparsed) (by simp [hq])
  by_cases hunmasked : (!masked && r.rules.requireMask) = true
  · refine ⟨{ r with masked }, .inl ⟨.unmasked, if_pos hunmasked, settled hstage hparsed, ?_⟩⟩
    exact (if_pos hunmasked).trans (by rw [← hview r.len]; rfl)
  by_cases hcontrol : (r.opcode.isControl && code > 125) = true
  · refine ⟨{ r with masked }, .inl ⟨.controlTooLong, ?_, settled hstage hparsed, ?_⟩⟩
    · exact (if_neg hunmasked).trans (if_pos hcontrol)
    · exact (if_neg hunmasked).trans ((if_pos hcontrol).trans (by rw [← hview r.len]; rfl))
  have hparse : r.parseLen b =
      if code = 126 then ({ r with masked }.beginExtended 2, .ok ())
      else if code = 127 then ({ r with masked }.beginExtended 8, .ok ())
      else { r with masked, len := code.toUInt64 }.afterLen :=
    (if_neg hunmasked).trans (if_neg hcontrol)
  have hread : r.view.readLength b src =
      if code.toNat = 126 then { r.view with phase := .len, length := 0 }.readExtended masked 2 src
      else if code.toNat = 127 then
        { r.view with phase := .len, length := 0 }.readExtended masked 8 src
      else { r.view with phase := .len, length := code.toNat }.lengthKnown masked src :=
    (if_neg hunmasked).trans (if_neg hcontrol)
  rw [hparse, hread]
  have extended (needed : Nat) (hneeded : 0 < needed) (hfew : needed ≤ 8) :
      ({ r with masked }.beginExtended needed).Sound ∧
        ({ r with masked }.beginExtended needed).view.parse src =
          { r.view with phase := .len, length := 0 }.readExtended masked needed src := by
    have := beginExtended_cases (r := { r with masked }) hparsed hneeded hfew src
    rwa [← hview r.len] at this
  by_cases h126 : code = 126
  · have h126' : code.toNat = 126 := congrArg UInt8.toNat h126
    obtain ⟨hsound, hsame⟩ := extended 2 (by decide) (by decide)
    rw [if_pos h126, if_pos h126']
    exact ⟨_, .inr ⟨rfl, hsound, nofun, nofun, hsame⟩⟩
  have h126' : code.toNat ≠ 126 := fun h => h126 (UInt8.toNat_inj.1 h)
  rw [if_neg h126, if_neg h126']
  by_cases h127 : code = 127
  · have h127' : code.toNat = 127 := congrArg UInt8.toNat h127
    obtain ⟨hsound, hsame⟩ := extended 8 (by decide) (by decide)
    rw [if_pos h127, if_pos h127']
    exact ⟨_, .inr ⟨rfl, hsound, nofun, nofun, hsame⟩⟩
  have h127' : code.toNat ≠ 127 := fun h => h127 (UInt8.toNat_inj.1 h)
  rw [if_neg h127, if_neg h127', ← UInt8.toNat_toUInt64, hview]
  obtain ⟨v, hafter, -, hknown⟩ | ⟨r', hafter, -, hsound, hstage', hsame⟩ :=
    afterLen_cases { r with masked, len := code.toUInt64 } hparsed src
  · exact ⟨_, .inl ⟨v, hafter, settled hstage hparsed, hknown⟩⟩
  · refine ⟨r', .inr ⟨hafter, hsound, ?_, ?_, hsame⟩⟩ <;> rcases hstage' with h | h <;> simp [h]

/-- A length with all its bytes passes the checks, or fails one of them and stays. -/
theorem checkLen_cases {q : Registers} (hstage : q.stage = .lenExtended) (hparsed : q.parsed = 0)
    (hfull : q.lenIdx = q.lenNeeded) (hfew : q.lenNeeded ≤ 8) (hlen : q.len.toNat < 256 ^ q.lenIdx)
    (rest : Bytes) :
    (∃ v, q.checkLen = (q, .error v) ∧ q.Settled ∧
      (if 2 ^ 63 ≤ q.len.toNat then (q.view, .error .invalidLength)
        else q.view.lengthKnown q.masked rest) = (q.view, .error v)) ∨
    ∃ r', q.checkLen = (r', .ok ()) ∧ ¬ q.Overlong ∧ r'.Sound ∧
      (r'.stage = .maskingKey ∨ r'.stage = .payload) ∧
      r'.view.parse rest =
        if 2 ^ 63 ≤ q.len.toNat then (q.view, .error .invalidLength)
        else q.view.lengthKnown q.masked rest := by
  have settled (hlong : q.Overlong) : q.Settled := by
    refine .of_sound ?_ (by simp [hstage])
    simp only [Sound, hstage]
    exact ⟨hparsed, Nat.le_of_eq hfull, hfew, hlen, fun _ => hlong⟩
  rw [checkLen, if_neg (not_not.2 hfull)]
  by_cases hhuge : 2 ^ 63 ≤ q.len.toNat
  · rw [if_pos ((top_bit_iff _).2 hhuge), if_pos hhuge]
    exact .inl ⟨_, rfl, settled (.inl hhuge), rfl⟩
  rw [if_neg (mt (top_bit_iff _).1 hhuge), if_neg hhuge]
  obtain ⟨v, hafter, hlong, hknown⟩ | ⟨r', hafter, hfits, hsound, hstage', hsame⟩ :=
    afterLen_cases q hparsed rest
  · exact .inl ⟨v, hafter, settled hlong, hknown⟩
  · have hpassed : ¬ q.Overlong := fun hlong => hlong.elim hhuge (Nat.not_lt_of_le hfits)
    exact .inr ⟨r', hafter, hpassed, hsound, hstage', hsame⟩

/-- A length byte by byte: it waits for more, fails, or is in. -/
theorem parseLenExtended_cases {r : Registers} (h : r.Sound) (hstage : r.stage = .lenExtended)
    {src : Bytes} (hsrc : src ≠ []) :
    ∃ r', (∃ v, r.parseLenExtended src = .ok (r', .error v) ∧ r'.Settled ∧
        r.view.parse src = (r'.view, .error v)) ∨
      ∃ took, r.parseLenExtended src = .ok (r', .ok took) ∧ Advances r src r' took ∧
        (r'.stage = .lenExtended ∧ took = src.length ∨ r'.stage = .maskingKey ∨
          r'.stage = .payload) := by
  simp only [Sound, hstage] at h
  obtain ⟨hparsed, hidx, hfew, hlen, hoverlong⟩ := h
  let left := r.lenNeeded - r.lenIdx
  let took := min left src.length
  let q : Registers :=
    { r with len := shiftIn r.len (src.take took), lenIdx := r.lenIdx + took }
  have hrun : r.parseLenExtended src =
      .ok (q.checkLen.1, q.checkLen.2.map fun _ => took) := by
    rw [parseLenExtended, difference_of_le hidx]
    rfl
  have hcount : (src.take took).length = took := List.length_take_of_le (Nat.min_le_right _ _)
  obtain ⟨hvalue, hbound⟩ := toNat_shiftIn (src.take took) hlen (by
    rw [hcount]
    omega)
  rw [hcount] at hbound
  have hqview : r.view.extend r.masked left (src.take took) = q.view := by
    simp only [Parser.extend, view, hstage, hcount, Nat.sub_sub, left, q, hvalue]
  have hread : r.view.parse src =
      if took < left then (q.view, .ok [])
      else if 2 ^ 63 ≤ q.len.toNat then (q.view, .error .invalidLength)
      else q.view.lengthKnown q.masked (src.drop took) := by
    rw [parse_of_lenExtended hstage hsrc, Parser.readExtended, List.take_eq_take_min, hqview,
      hcount, List.drop_eq_drop_min]
    rfl
  rw [hrun, hread]
  by_cases hmore : took < left
  · have hwait : q.lenIdx ≠ q.lenNeeded := show r.lenIdx + took ≠ r.lenNeeded by omega
    have hall : took = src.length := by omega
    have hsound : q.Sound := by
      simp only [Sound, show q.stage = .lenExtended from hstage]
      exact ⟨hparsed, show r.lenIdx + took ≤ r.lenNeeded by omega, hfew, hbound,
        fun h => absurd h hwait⟩
    rw [checkLen, if_pos hwait, if_pos hmore]
    refine ⟨q, .inr ⟨took, rfl, ⟨hsound, Nat.min_le_right _ _, fun _ _ => ?_, ?_⟩,
      .inl ⟨hstage, hall⟩⟩⟩
    · rw [hall]
      exact List.length_pos_iff.2 hsrc
    · rw [hread, if_pos hmore, hall, List.drop_length]
      exact parse_nil_of_stage (by rw [show q.stage = .lenExtended from hstage]; simp)
  have hfull : q.lenIdx = q.lenNeeded := show r.lenIdx + took = r.lenNeeded by omega
  rw [if_neg hmore]
  obtain ⟨v, hcheck, hsettled, hknown⟩ | ⟨r', hcheck, hpassed, hsound, hstage', hsame⟩ :=
    checkLen_cases (q := q) hstage hparsed hfull hfew hbound (src.drop took)
  · rw [hcheck]
    exact ⟨q, .inl ⟨v, rfl, hsettled, hknown⟩⟩
  rw [hcheck]
  refine ⟨r', .inr ⟨took, rfl, ⟨hsound, Nat.min_le_right _ _, fun _ _ => ?_, ?_⟩, .inr hstage'⟩⟩
  · -- a length that was in before has not passed
    refine Nat.pos_of_ne_zero fun hzero => hpassed ?_
    have hsame : q.len = r.len := by simp only [q, hzero, List.take_zero]; rfl
    rw [Overlong, hsame]
    exact hoverlong (by omega)
  · rw [hread, if_neg hmore]
    exact hsame

/-- A key byte by byte: it waits for more, or is in. -/
theorem parseMaskingKey_cases {r : Registers} (h : r.Sound) (hstage : r.stage = .maskingKey)
    {src : Bytes} (hsrc : src ≠ []) :
    ∃ r' took, r.parseMaskingKey src = .ok (r', .ok took) ∧ Advances r src r' took ∧
      (r'.stage = .maskingKey ∧ took = src.length ∨ r'.stage = .payload) := by
  have hparse := parse_of_maskingKey hstage hsrc
  simp only [Sound, hstage] at h
  obtain ⟨hparsed, hmasked, hidx⟩ := h
  let left := 4 - r.keyIdx
  let took := min left src.length
  have hcount : (src.take took).length = took := List.length_take_of_le (Nat.min_le_right _ _)
  have hgot : (r.key.toBytes.take r.keyIdx).length = r.keyIdx :=
    List.length_take_of_le (show r.keyIdx ≤ 4 by omega)
  obtain ⟨key, hkey, hbytes⟩ := r.key.write_fits r.keyIdx (src.take took) (by
    rw [hcount]
    omega)
  rw [hcount] at hbytes
  have htook : 0 < took := by
    have := List.length_pos_iff.2 hsrc
    omega
  let q : Registers := { r with key, keyIdx := r.keyIdx + took }
  have hrun : r.parseMaskingKey src = .ok (q.checkKey, .ok took) := by
    rw [parseMaskingKey, difference_of_le (Nat.le_of_lt hidx), pure_bind]
    dsimp only
    rw [hkey]
    rfl
  rw [hrun]
  by_cases hmore : took < left
  · have hall : took = src.length := by omega
    have hqview : q.view =
        { r.view with phase := .maskingKey (r.key.toBytes.take r.keyIdx ++ src) } := by
      rw [hall, List.take_length] at hbytes
      simp only [view, hstage, q, hall, hbytes]
    rw [checkKey, if_neg (show q.keyIdx ≠ 4 from show r.keyIdx + took ≠ 4 by omega)]
    refine ⟨q, took, rfl, ⟨?_, Nat.min_le_right _ _, fun _ _ => htook, ?_⟩, .inl ⟨hstage, hall⟩⟩
    · simp only [Sound, show q.stage = .maskingKey from hstage]
      exact ⟨hparsed, hmasked, show r.keyIdx + took < 4 by omega⟩
    · rw [hparse, Parser.readKey_of_lt _ (by rw [hgot]; omega), hall, List.drop_length, ← hqview]
      exact parse_nil_of_stage (by rw [show q.stage = .maskingKey from hstage]; simp)
  · have hfull : took = left := by omega
    have hall : r.keyIdx + took = 4 := by omega
    have hin : MaskKey.ofBytes? (r.key.toBytes.take r.keyIdx ++ src.take left) = some key := by
      rw [hfull] at hbytes
      rw [← hbytes, ← hfull, hall]
      rfl
    rw [checkKey, if_pos (show q.keyIdx = 4 from hall)]
    refine ⟨_, took, rfl, ⟨?_, Nat.min_le_right _ _, fun _ _ => htook, ?_⟩, .inr rfl⟩
    · refine ⟨?_, Nat.zero_lt_succ 3⟩
      show r.parsed ≤ r.len
      rw [hparsed]
      exact UInt64.zero_le
    · rw [hparse, Parser.readKey, hgot, hin, hfull]
      simp only [Parser.parse, view, q, hmasked]
      rfl

/-! ### Payload -/

/-- The mask that payload bytes are taken in with. -/
def strips (r : Registers) : Option Mask := if r.masked then some r.mask else none

theorem view_of_payload {r : Registers} (hstage : r.stage = .payload) :
    r.view = { r.view with phase := .payload r.strips } := by
  simp only [view, hstage, strips]

theorem parse_of_payload {r : Registers} (hstage : r.stage = .payload) (src : Bytes) :
    r.view.parse src = r.view.readPayload r.strips src := by
  simp only [Parser.parse, view, hstage, strips]

theorem finish_cases (r : Registers) :
    (r.finish = (r, .error .invalidUtf8) ∧
      ∀ rest, r.view.finish rest = (r.view, .error .invalidUtf8)) ∨
    (r.finish = ({ r with stage := .complete }, .ok ()) ∧
      ∀ rest, r.view.finish rest = ({ r with stage := .complete }.view, .ok rest)) := by
  have htext : (r.opcode.isData ∧ r.message = some .text ∧ !r.utf8.finish r.flags.fin) ↔
      (r.view.inText && r.view.flags.fin && r.view.utf8 != .boundary) = true := by
    have hutf8 : (!r.utf8.finish r.flags.fin) = (r.flags.fin && r.utf8 != .boundary) := by
      cases r.flags.fin <;> cases r.utf8 <;> rfl
    simp only [Parser.inText, view, hutf8, Bool.and_eq_true, beq_iff_eq, and_assoc]
  have hreason : (r.opcode = .close ∧ 2 < r.payload.length ∧ !Utf8.valid (r.payload.drop 2)) ↔
      (r.view.opcode == .close && r.view.payload.length > 2 &&
        !Utf8.valid (r.view.payload.drop 2)) = true := by
    simp only [view, Bool.and_eq_true, beq_iff_eq, decide_eq_true_eq, gt_iff_lt, and_assoc]
  by_cases hspoiled : r.opcode.isData ∧ r.message = some .text ∧ !r.utf8.finish r.flags.fin
  · exact .inl ⟨if_pos hspoiled, fun rest => if_pos (htext.1 hspoiled)⟩
  by_cases hwrong : r.opcode = .close ∧ 2 < r.payload.length ∧ !Utf8.valid (r.payload.drop 2)
  · refine .inl ⟨(if_neg hspoiled).trans (if_pos hwrong), fun rest => ?_⟩
    exact (if_neg (mt htext.2 hspoiled)).trans (if_pos (hreason.1 hwrong))
  · refine .inr ⟨(if_neg hspoiled).trans (if_neg hwrong), fun rest => ?_⟩
    exact (if_neg (mt htext.2 hspoiled)).trans (if_neg (mt hreason.2 hwrong))

/-- What stays when payload bytes are taken in. -/
structure Absorbs (r q : Registers) : Prop where
  stage : q.stage = .payload
  len : q.len = r.len
  offset : q.mask.offset < 4

theorem append_cases {r : Registers} (hstage : r.stage = .payload) (hoffset : r.mask.offset < 4)
    {chunk : Bytes} (hfits : r.parsed.toNat + chunk.length ≤ r.len.toNat) :
    ∃ q, Absorbs r q ∧
      ((r.append chunk = (q, .ok ()) ∧ q.parsed.toNat = r.parsed.toNat + chunk.length ∧
          r.view.spoils (Mask.strip r.strips chunk) = false ∧
          r.view.absorb r.strips chunk = q.view) ∨
        (r.append chunk = (q, .error .invalidUtf8) ∧ q.parsed = r.parsed ∧
          r.view.spoils (Mask.strip r.strips chunk) = true ∧
          { r.view.absorb r.strips chunk with parsed := r.view.parsed } = q.view)) := by
  let data := Mask.strip r.strips chunk
  let q : Registers := { r with
    payload := r.payload ++ data
    mask := if r.masked then r.mask.skip chunk.length else r.mask
    utf8 := if r.view.inText then (Utf8.walk r.utf8 data).1 else r.utf8 }
  let counted : Registers := { q with parsed := r.parsed + UInt64.ofNat chunk.length }
  have hdata : (if r.masked then r.mask.apply chunk else chunk) = data := by
    cases h : r.masked <;> simp [data, strips, h, Mask.strip]
  have htext : (r.message = some .text ∧ r.opcode.isData) ↔ r.view.inText = true := by
    simp only [Parser.inText, view, Bool.and_eq_true, beq_iff_eq, and_comm]
  have hspoils : r.view.spoils data = true ↔
      r.view.inText = true ∧ (Utf8.walk r.utf8 data).2.isEmpty = false := by
    simp only [Parser.spoils, view, Bool.and_eq_true, Bool.not_eq_true']
  have happend : r.append chunk =
      if r.view.spoils data = true then (q, .error .invalidUtf8) else (counted, .ok ()) := by
    simp only [append, hdata, htext, hspoils, counted, q, Utf8.feed_eq]
    cases r.view.inText <;> cases (Utf8.walk r.utf8 data).2.isEmpty <;> rfl
  have hmask : (if r.masked then r.mask.skip chunk.length else r.mask).offset < 4 := by
    split
    · exact Mask.offset_skip_lt _ _
    · exact hoffset
  have hphase : r.strips.map (·.skip chunk.length) = counted.strips := by
    cases h : r.masked <;> simp [strips, counted, q, h]
  have hcount : counted.parsed.toNat = r.parsed.toNat + chunk.length := by
    have := r.len.toNat_lt
    rw [UInt64.toNat_add, UInt64.toNat_ofNat']
    omega
  by_cases h : r.view.spoils data = true
  · refine ⟨q, ⟨hstage, rfl, hmask⟩, .inr ⟨by rw [happend, if_pos h], rfl, h, ?_⟩⟩
    rw [view_of_payload (r := q) hstage, Parser.absorb, hphase]
    rfl
  · refine ⟨counted, ⟨hstage, rfl, hmask⟩,
      .inl ⟨by rw [happend, if_neg h], hcount, by simpa using h, ?_⟩⟩
    rw [view_of_payload (r := counted) hstage, Parser.absorb, hphase,
      show r.view.parsed + chunk.length = counted.parsed.toNat from hcount.symm]
    rfl

/-- Taking in nothing changes nothing. -/
theorem absorb_nothing {r : Registers} (hstage : r.stage = .payload) (hoffset : r.mask.offset < 4) :
    r.view.spoils (Mask.strip r.strips []) = false ∧ r.view.absorb r.strips [] = r.view := by
  have hskip : r.strips.map (·.skip 0) = r.strips := by
    cases h : r.masked <;> simp [strips, h, Mask.skip_zero hoffset]
  refine ⟨by simp [Parser.spoils, Utf8.walk], ?_⟩
  rw [Parser.absorb_nil, hskip, ← view_of_payload hstage]

theorem absorb_cases {r : Registers} (hstage : r.stage = .payload) (hoffset : r.mask.offset < 4)
    {chunk : Bytes} (hfits : r.parsed.toNat + chunk.length ≤ r.len.toNat) :
    ∃ q, Absorbs r q ∧
      ((r.absorb chunk = (q, .ok ()) ∧ q.parsed.toNat = r.parsed.toNat + chunk.length ∧
          (chunk.length = 0 → q = r) ∧ r.view.spoils (Mask.strip r.strips chunk) = false ∧
          r.view.absorb r.strips chunk = q.view) ∨
        (r.absorb chunk = (q, .error .invalidUtf8) ∧ q.parsed = r.parsed ∧ 0 < chunk.length ∧
          r.view.spoils (Mask.strip r.strips chunk) = true ∧
          { r.view.absorb r.strips chunk with parsed := r.view.parsed } = q.view)) := by
  cases chunk with
  | nil =>
    exact ⟨r, ⟨hstage, rfl, hoffset⟩,
      .inl ⟨rfl, rfl, fun _ => rfl, absorb_nothing hstage hoffset⟩⟩
  | cons b bs =>
    obtain ⟨q, hq, ⟨hrun, hparsed, hclean, hsame⟩ | ⟨hrun, hparsed, hspoils, hsame⟩⟩ :=
      append_cases hstage hoffset hfits
    · exact ⟨q, hq, .inl ⟨hrun, hparsed, nofun, hclean, hsame⟩⟩
    · exact ⟨q, hq, .inr ⟨hrun, hparsed, Nat.succ_pos _, hspoils, hsame⟩⟩

theorem parse_nil_of_starved {r : Registers} (h : r.Sound) (hstage : r.stage = .payload)
    (hlt : r.parsed < r.len) : r.view.parse [] = (r.view, .ok []) := by
  simp only [Sound, hstage] at h
  obtain ⟨hclean, hsame⟩ := absorb_nothing hstage h.2
  have hpart : r.view.parsed ≠ r.view.length := Nat.ne_of_lt (UInt64.lt_iff_toNat_lt.1 hlt)
  rw [parse_of_payload hstage, Parser.readPayload, List.take_nil, List.drop_nil, hclean, hsame,
    if_neg hpart]
  rfl

/-- Behind payload bytes that are in, the frame goes on, is complete or fails. -/
theorem checkPayload_cases {q : Registers} (hstage : q.stage = .payload) (hle : q.parsed ≤ q.len)
    (hoffset : q.mask.offset < 4) (rest : Bytes) (hrest : q.parsed ≠ q.len → rest = []) :
    ∃ r', (∃ v, q.checkPayload = (r', .error v) ∧ r'.Settled ∧
        (if q.view.parsed = q.view.length then q.view.finish rest else (q.view, .ok rest)) =
          (r'.view, .error v)) ∨
      (q.checkPayload = (r', .ok ()) ∧ r'.Sound ∧
        (r'.stage = .complete ∨ r'.stage = .payload ∧ r'.parsed < r'.len ∧ rest = []) ∧
        (if q.view.parsed = q.view.length then q.view.finish rest else (q.view, .ok rest)) =
          r'.view.parse rest) := by
  have hfull : q.view.parsed = q.view.length ↔ q.parsed = q.len := UInt64.toNat_inj
  have hsound : q.Sound := by
    simp only [Sound, hstage]
    exact ⟨hle, hoffset⟩
  by_cases h : q.parsed = q.len
  · rw [checkPayload, if_pos h, if_pos (hfull.2 h)]
    obtain ⟨hfinish, hview⟩ | ⟨hfinish, hview⟩ := q.finish_cases
    · exact ⟨q, .inl ⟨_, hfinish, ⟨hsound, fun _ _ => hfinish⟩, hview rest⟩⟩
    · exact ⟨_, .inr ⟨hfinish, trivial, .inl rfl, hview rest⟩⟩
  · have hlt : q.parsed < q.len := UInt64.lt_of_le_of_ne hle h
    rw [checkPayload, if_neg h, if_neg (mt hfull.1 h), hrest h]
    refine ⟨q, .inr ⟨rfl, hsound, .inr ⟨hstage, hlt, rfl⟩, ?_⟩⟩
    exact (parse_nil_of_starved hsound hstage hlt).symm

theorem parsePayload_of_ok {r q : Registers} (hle : r.parsed ≤ r.len) {src : Bytes} {took : Nat}
    (htook : took = min (r.len.toNat - r.parsed.toNat) src.length)
    (habsorb : r.absorb (src.take took) = (q, .ok ())) :
    r.parsePayload src = .ok (q.checkPayload.1, q.checkPayload.2.map fun _ => took) := by
  subst htook
  rw [parsePayload, difference_of_le (UInt64.le_iff_toNat_le.1 hle), pure_bind]
  dsimp only
  rw [habsorb]
  rfl

theorem parsePayload_of_error {r q : Registers} (hle : r.parsed ≤ r.len) {src : Bytes}
    {took : Nat} (htook : took = min (r.len.toNat - r.parsed.toNat) src.length) {v : Violation}
    (habsorb : r.absorb (src.take took) = (q, .error v)) :
    r.parsePayload src = .ok (q, .error v) := by
  subst htook
  rw [parsePayload, difference_of_le (UInt64.le_iff_toNat_le.1 hle), pure_bind]
  dsimp only
  rw [habsorb]
  rfl

/-- Payload bytes: the count never passes the length. -/
theorem parsePayload_cases {r : Registers} (h : r.Sound) (hstage : r.stage = .payload)
    (src : Bytes) :
    ∃ r', (∃ v, r.parsePayload src = .ok (r', .error v) ∧ r'.Settled ∧
        r.view.parse src = (r'.view, .error v)) ∨
      ∃ took, r.parsePayload src = .ok (r', .ok took) ∧ Advances r src r' took ∧
        (r'.stage = .complete ∨ r'.stage = .payload ∧ r'.parsed < r'.len ∧ took = src.length) := by
  have hsound := h
  simp only [Sound, hstage] at h
  obtain ⟨hle, hoffset⟩ := h
  obtain ⟨took, htook⟩ : ∃ took, took = min (r.len.toNat - r.parsed.toNat) src.length := ⟨_, rfl⟩
  have hcount : (src.take took).length = took := by
    rw [htook]
    exact List.length_take_of_le (Nat.min_le_right _ _)
  have hread : r.view.parse src =
      if r.view.spoils (Mask.strip r.strips (src.take took)) then
        ({ r.view.absorb r.strips (src.take took) with parsed := r.view.parsed },
          .error .invalidUtf8)
      else if (r.view.absorb r.strips (src.take took)).parsed =
          (r.view.absorb r.strips (src.take took)).length then
        (r.view.absorb r.strips (src.take took)).finish (src.drop took)
      else (r.view.absorb r.strips (src.take took), .ok (src.drop took)) := by
    rw [parse_of_payload hstage, htook, ← List.take_eq_take_min, ← List.drop_eq_drop_min]
    rfl
  have hfits : r.parsed.toNat + (src.take took).length ≤ r.len.toNat := by
    have := UInt64.le_iff_toNat_le.1 hle
    omega
  obtain ⟨q, hq, habsorbed⟩ := absorb_cases hstage hoffset hfits
  rw [hcount] at habsorbed
  rw [hread]
  rcases habsorbed with ⟨habsorb, hparsed, hnone, hclean, hsame⟩ |
    ⟨habsorb, hparsed, hpos, hspoils, hsame⟩
  · have hqle : q.parsed ≤ q.len := by
      rw [UInt64.le_iff_toNat_le, hparsed, hq.len]
      omega
    have hmore : q.parsed ≠ q.len → src.drop took = [] := fun hne => by
      rw [Ne, ← UInt64.toNat_inj, hparsed, hq.len] at hne
      exact List.drop_of_length_le (by omega)
    rw [parsePayload_of_ok hle htook habsorb, hclean, hsame]
    obtain ⟨r', ⟨v, hcheck, hsettled, hview⟩ | ⟨hcheck, hsound', hstage', hview⟩⟩ :=
      checkPayload_cases hq.stage hqle hq.offset (src.drop took) hmore
    · exact ⟨r', .inl ⟨v, by simp only [hcheck]; rfl, hsettled, hview⟩⟩
    refine ⟨r', .inr ⟨took, by simp only [hcheck]; rfl,
      ⟨hsound', by omega, fun hsettled hsrc => ?_, ?_⟩, ?_⟩⟩
    · -- a payload that is in and has been refused would be refused again
      refine Nat.pos_of_ne_zero fun hzero => ?_
      have hlength := List.length_pos_iff.2 hsrc
      have hfull : r.parsed = r.len := by
        rw [← UInt64.toNat_inj]
        have := UInt64.le_iff_toNat_le.1 hle
        omega
      rw [hnone hzero, checkPayload, if_pos hfull, hsettled.refused hstage hfull] at hcheck
      cases hcheck
    · rw [hread, hclean, hsame]
      exact hview.symm
    · refine hstage'.imp_right fun ⟨hstage', hlt, hdone⟩ => ⟨hstage', hlt, ?_⟩
      have := List.drop_eq_nil_iff.1 hdone
      omega
  · rw [parsePayload_of_error hle htook habsorb, hspoils, hsame]
    refine ⟨q, .inl ⟨_, rfl, ⟨?_, ?_⟩, rfl⟩⟩
    · simp only [Sound, hq.stage]
      exact ⟨by rw [hparsed, hq.len]; exact hle, hq.offset⟩
    · intro _ hfull
      rw [hparsed, hq.len, ← UInt64.toNat_inj] at hfull
      omega

/-! ### Rounds -/

/-- A bound on the rounds that still go on. -/
def roundsLeft (r : Registers) (rest : Bytes) : Nat :=
  match r.stage, rest with
  | .complete, _ => 0
  | .payload, _ => 1
  | _, [] => 0
  | .maskingKey, _ => 2
  | .lenExtended, _ => 3
  | .len, _ => 4
  | .op, _ => 5

theorem roundsLeft_le (r : Registers) (rest : Bytes) : r.roundsLeft rest ≤ 5 := by
  unfold roundsLeft
  split <;> decide

/-- The part that comes next meets a violation, or leaves the rest to the next round. Where payload
is still to come, it has taken the rest to its end. -/
def Proceeds (r : Registers) (rest : Bytes) : Prop :=
  ∃ r', (∃ v, r.part rest = some (.ok (r', .error v)) ∧ r'.Settled ∧
      r.view.parse rest = (r'.view, .error v)) ∨
    ∃ took, r.part rest = some (.ok (r', .ok took)) ∧ Advances r rest r' took ∧
      (r'.roundsLeft (rest.drop took) < r.roundsLeft rest ∨
        r'.stage = .payload ∧ r'.parsed < r'.len ∧ took = rest.length)

theorem proceeds_of_op {r : Registers} (h : r.Sound) (hstage : r.stage = .op) (b : UInt8)
    (rest : Bytes) : r.Proceeds (b :: rest) := by
  have hparsed : r.parsed = 0 := by simpa only [Sound, hstage] using h
  have hread : r.view.parse (b :: rest) =
      match r.view.readOp b, rest with
      | .error v, _ => (r.view, .error v)
      | .ok p, [] => (p, .ok [])
      | .ok p, c :: rest => p.readLength c rest := by
    simp only [Parser.parse, view, hstage]
    rfl
  obtain ⟨v, hrun, hop⟩ | ⟨flags, opcode, message, hrun, hop⟩ := r.parseOp_cases b
  · refine ⟨r, .inl ⟨v, ?_, .of_sound h (by simp [hstage]), by rw [hread, hop]⟩⟩
    simp only [part, hstage, hrun]
    rfl
  · refine ⟨(r.enterLen flags opcode message).1,
      .inr ⟨1, ?_, ⟨hparsed, Nat.succ_pos _, fun _ _ => Nat.one_pos, ?_⟩, .inl ?_⟩⟩
    · simp only [part, hstage, hrun]
      rfl
    · rw [hread, hop]
      cases rest <;> rfl
    · simp only [roundsLeft, hstage, enterLen, List.drop_succ_cons, List.drop_zero]
      cases rest <;> simp

theorem proceeds_of_len {r : Registers} (h : r.Sound) (hstage : r.stage = .len) (b : UInt8)
    (rest : Bytes) : r.Proceeds (b :: rest) := by
  have hparsed : r.parsed = 0 := by simpa only [Sound, hstage] using h
  have hread : r.view.parse (b :: rest) = r.view.readLength b rest := by
    simp only [Parser.parse, view, hstage]
  obtain ⟨r', ⟨v, hrun, hfail⟩ | ⟨hrun, hsound, hop, hlen, hsame⟩⟩ :=
    parseLen_cases hparsed hstage b rest
  · refine ⟨r', .inl ⟨v, ?_, by rwa [hread]⟩⟩
    simp only [part, hstage, hrun]
    rfl
  · refine ⟨r', .inr ⟨1, ?_, ⟨hsound, Nat.succ_pos _, fun _ _ => Nat.one_pos, ?_⟩, .inl ?_⟩⟩
    · simp only [part, hstage, hrun]
      rfl
    · rw [hread]
      exact hsame
    · rw [List.drop_succ_cons, List.drop_zero]
      have hless : r'.roundsLeft rest < 4 := by
        unfold roundsLeft
        split <;> simp_all
      simpa only [roundsLeft, hstage] using hless

theorem proceeds_of_lenExtended {r : Registers} (h : r.Sound) (hstage : r.stage = .lenExtended)
    (b : UInt8) (rest : Bytes) : r.Proceeds (b :: rest) := by
  obtain ⟨r', ⟨v, hrun, hfail⟩ | ⟨took, hrun, hadv, hstage'⟩⟩ :=
    parseLenExtended_cases h hstage (List.cons_ne_nil b rest)
  · exact ⟨r', .inl ⟨v, by simp only [part, hstage, hrun], hfail⟩⟩
  · refine ⟨r', .inr ⟨took, by simp only [part, hstage, hrun], hadv, .inl ?_⟩⟩
    have hless : r'.roundsLeft ((b :: rest).drop took) < 3 := by
      rcases hstage' with ⟨hstage', rfl⟩ | hstage' | hstage'
      · simp [roundsLeft, hstage']
      · unfold roundsLeft
        split <;> simp_all
      · simp [roundsLeft, hstage']
    simpa only [roundsLeft, hstage] using hless

theorem proceeds_of_maskingKey {r : Registers} (h : r.Sound) (hstage : r.stage = .maskingKey)
    (b : UInt8) (rest : Bytes) : r.Proceeds (b :: rest) := by
  obtain ⟨r', took, hrun, hadv, hstage'⟩ :=
    parseMaskingKey_cases h hstage (List.cons_ne_nil b rest)
  refine ⟨r', .inr ⟨took, by simp only [part, hstage, hrun], hadv, .inl ?_⟩⟩
  have hless : r'.roundsLeft ((b :: rest).drop took) < 2 := by
    rcases hstage' with ⟨hstage', rfl⟩ | hstage' <;> simp [roundsLeft, hstage']
  simpa only [roundsLeft, hstage] using hless

theorem proceeds_of_payload {r : Registers} (h : r.Sound) (hstage : r.stage = .payload)
    (rest : Bytes) : r.Proceeds rest := by
  obtain ⟨r', ⟨v, hrun, hfail⟩ | ⟨took, hrun, hadv, hstage'⟩⟩ := parsePayload_cases h hstage rest
  · exact ⟨r', .inl ⟨v, by simp only [part, hstage, hrun], hfail⟩⟩
  · refine ⟨r', .inr ⟨took, by simp only [part, hstage, hrun], hadv, ?_⟩⟩
    exact hstage'.imp_left fun hc => by simp [roundsLeft, hc, hstage]

/-- A part of a frame proceeds, or the loop is over: the input is used up or the frame is
complete. -/
theorem part_cases {r : Registers} (h : r.Sound) (rest : Bytes) :
    (r.part rest = none ∧ r.Settled ∧ r.view.parse rest = (r.view, .ok rest) ∧
      (rest ≠ [] → r.stage = .complete)) ∨ r.Proceeds rest := by
  by_cases hpayload : r.stage = .payload
  · exact .inr (proceeds_of_payload h hpayload rest)
  have hsettled : r.Settled := .of_sound h hpayload
  by_cases hcomplete : r.stage = .complete
  · refine .inl ⟨?_, hsettled, ?_, fun _ => hcomplete⟩
    · simp only [part, hcomplete]
    · simp only [Parser.parse, view, hcomplete]
  cases rest with
  | nil =>
    refine .inl ⟨?_, hsettled, parse_nil_of_stage hpayload, fun hne => absurd rfl hne⟩
    cases hstage : r.stage <;> simp_all [part]
  | cons b rest =>
    refine .inr ?_
    cases hstage : r.stage with
    | op => exact proceeds_of_op h hstage b rest
    | len => exact proceeds_of_len h hstage b rest
    | lenExtended => exact proceeds_of_lenExtended h hstage b rest
    | maskingKey => exact proceeds_of_maskingKey h hstage b rest
    | payload => exact absurd hstage hpayload
    | complete => exact absurd hstage hcomplete

/-! ### The loop -/

section

variable {r : Registers} {src : Bytes}

/-- What every round of a call keeps: sound registers, a place in the input, and that going on from
there comes to what the whole call comes to. Behind the first round some input is used up. -/
structure Underway (r : Registers) (src : Bytes) (s : Registers × Nat) : Prop where
  sound : s.1.Sound
  inside : s.2 ≤ src.length
  same : s.1.view.parse (src.drop s.2) = r.view.parse src
  moved : src ≠ [] → s = (r, 0) ∨ 0 < s.2

/-- What a call comes to: no trap, settled registers, and what the parser makes of the input that
the registers stand for. It uses up some of the input if there is any and the frame was not complete
before, and leaves some of it only behind a complete frame. -/
def Ends (r : Registers) (src : Bytes) (a : Answer) : Prop :=
  ∃ r' result, a = .ok (r', result) ∧ r'.Settled ∧
    r.view.parse src = (r'.view, result.map src.drop) ∧
    ∀ n, result = .ok n → n ≤ src.length ∧ (n < src.length → r'.stage = .complete) ∧
      (src ≠ [] → r.stage ≠ .complete → 0 < n)

section Round

variable {q q' : Registers} {pos took : Nat}

/-- Where no part comes next, the input is used up or the frame is complete. -/
theorem Underway.ends (h : Underway r src (q, pos)) (hsettled : q.Settled)
    (hview : q.view.parse (src.drop pos) = (q.view, .ok (src.drop pos)))
    (hcomplete : src.drop pos ≠ [] → q.stage = .complete) : Ends r src (.ok (q, .ok pos)) := by
  refine ⟨q, .ok pos, rfl, hsettled, by rw [← h.same, hview]; rfl, fun n hn => ?_⟩
  cases hn
  refine ⟨h.inside, fun hlt => hcomplete ?_, fun hsrc hr => ?_⟩
  · rw [← List.length_pos_iff, List.length_drop]
    omega
  · refine (h.moved hsrc).resolve_left fun hs => hr ?_
    cases hs
    exact hcomplete hsrc

/-- A part that advances leaves the rest of the call to the next round. -/
theorem Underway.next (hr : r.Settled) (h : Underway r src (q, pos))
    (hadv : Advances q (src.drop pos) q' took) : Underway r src (q', pos + took) where
  sound := hadv.sound
  inside := by
    have hpos : pos ≤ src.length := h.inside
    have := hadv.within
    rw [List.length_drop] at this
    show pos + took ≤ src.length
    omega
  same := by rw [← List.drop_drop, hadv.same, h.same]
  moved hsrc := by
    refine .inr ?_
    rcases h.moved hsrc with hs | hs
    · cases hs
      exact Nat.lt_of_lt_of_le (hadv.takes hr hsrc) (Nat.le_add_left _ _)
    · exact Nat.lt_of_lt_of_le hs (Nat.le_add_right _ _)

theorem starved_iff : q.starved src pos = true ↔
    q.stage = .payload ∧ q.parsed < q.len ∧ pos = src.length := by
  simp only [starved, decide_eq_true_eq]

/-- Where payload is still to come, the input is used up. -/
theorem Underway.starves (h : Underway r src (q, pos)) (hstarved : q.starved src pos = true) :
    Ends r src (.ok (q, .ok pos)) := by
  obtain ⟨hstage, hlt, rfl⟩ := starved_iff.1 hstarved
  refine h.ends ⟨h.sound, fun _ hfull => ?_⟩ ?_ (fun hmore => absurd List.drop_length hmore)
  · rw [hfull] at hlt
    exact absurd hlt (UInt64.lt_irrefl _)
  · rw [List.drop_length]
    exact parse_nil_of_starved h.sound hstage hlt

end Round

/-- One round goes on, with fewer rounds left, or ends the call. -/
theorem round_cases (hr : r.Settled) {s : Registers × Nat} (h : Underway r src s) :
    (∃ s', round src s = .inl s' ∧ Underway r src s' ∧
      s'.1.roundsLeft (src.drop s'.2) < s.1.roundsLeft (src.drop s.2)) ∨
    ∃ a, round src s = .inr a ∧ Ends r src a := by
  obtain ⟨q, pos⟩ := s
  have hrest : suffix src pos = .ok (src.drop pos) := if_pos h.inside
  obtain ⟨hpart, hsettled, hview, hcomplete⟩ |
    ⟨q', ⟨v, hpart, hsettled, hview⟩ | ⟨took, hpart, hadv, hleft⟩⟩ :=
    part_cases h.sound (src.drop pos)
  · exact .inr ⟨_, by simp only [round, hrest, hpart], h.ends hsettled hview hcomplete⟩
  · exact .inr ⟨.ok (q', .error v), by simp only [round, hrest, hpart], q', .error v, rfl,
      hsettled, by rw [← h.same, hview]; rfl, nofun⟩
  have hnext := h.next hr hadv
  by_cases hstarved : q'.starved src (pos + took) = true
  · refine .inr ⟨_, ?_, hnext.starves hstarved⟩
    simp only [round, hrest, hpart, hstarved, if_true]
  · have hround : round src (q, pos) = .inl (q', pos + took) := by
      simp only [round, hrest, hpart, hstarved]
      rfl
    refine .inl ⟨(q', pos + took), hround, hnext, ?_⟩
    rw [List.drop_drop] at hleft
    refine hleft.resolve_right fun ⟨hstage, hlt, hall⟩ => hstarved ?_
    have hpos : pos ≤ src.length := h.inside
    rw [List.length_drop] at hall
    exact starved_iff.2 ⟨hstage, hlt, by omega⟩

/-- There are six rounds at most, and what every round keeps holds in front of the last one. -/
theorem exists_last (hr : r.Settled) (Inv : Registers × Nat → Prop) (hstart : Inv (r, 0))
    (hkeeps : ∀ s s', Underway r src s → Inv s → round src s = .inl s' → s'.2 ≤ src.length → Inv s')
    {rounds : Nat} (hrounds : 6 ≤ rounds) :
    ∃ last a, Underway r src last ∧ Inv last ∧ round src last = .inr a ∧
      r.parse rounds src = some a := by
  have hstep : ∀ s s', Underway r src s ∧ Inv s → round src s = .inl s' →
      (Underway r src s' ∧ Inv s') ∧
        s'.1.roundsLeft (src.drop s'.2) < s.1.roundsLeft (src.drop s.2) := by
    intro s s' hs hround
    obtain ⟨t, ht, hnext, hless⟩ | ⟨a, ha, -⟩ := round_cases hr hs.1
    · cases ht.symm.trans hround
      exact ⟨⟨hnext, hkeeps s s' hs.1 hs.2 hround hnext.inside⟩, hless⟩
    · cases ha.symm.trans hround
  have hunder : Underway r src (r, 0) := ⟨hr.sound, Nat.zero_le _, rfl, fun _ => .inl rfl⟩
  obtain ⟨last, a, hlast, hend, hrun⟩ := Loop.exists_run (n := rounds) hstep ⟨hunder, hstart⟩
    (Nat.lt_of_le_of_lt (roundsLeft_le _ _) hrounds)
  exact ⟨last, a, hlast.1, hlast.2, hend, hrun⟩

/-- A call ends within six rounds, wherever it starts between two calls. -/
theorem parse_ends (hr : r.Settled) (src : Bytes) {rounds : Nat} (hrounds : 6 ≤ rounds) :
    ∃ a, r.parse rounds src = some a ∧ Ends r src a := by
  obtain ⟨last, a, hlast, -, hend, hrun⟩ :=
    exists_last hr (fun _ => True) trivial (fun _ _ _ _ _ _ => trivial) hrounds
  refine ⟨a, hrun, ?_⟩
  obtain ⟨t, ht, -⟩ | ⟨b, hb, hends⟩ := round_cases hr hlast
  · cases ht.symm.trans hend
  · cases hb.symm.trans hend
    exact hends

end

end Registers
end WireServer.WebSocket
