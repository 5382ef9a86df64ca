import WireServer.Proofs.WebSocket.LengthForms
import WireServer.Proofs.WebSocket.Progress

/-! Headers in pieces. The registers are followed through the bytes of a header, from any state in
front of a frame: whatever the pieces, the length and the key come out as they were written, or the
length is refused. -/

namespace WireServer.WebSocket

namespace Registers

variable {q r : Registers} {n : Nat} {key : Option MaskKey} {todo : Bytes}

/-! ### Where a header stands -/

/-- What the length of a frame is refused with, if at all. -/
def refusal? (q : Registers) (n : Nat) : Option Violation :=
  if q.opcode.isControl ∧ 125 < n then some .controlTooLong
  else if 2 ^ 63 ≤ n then some .invalidLength
  else if q.rules.maxPayload < n then some (.frameTooLarge n q.rules.maxPayload)
  else none

/-- The frame is part of a text message. -/
def InText (q : Registers) : Prop := q.opcode.isData ∧ q.message = some .text

/-- The frame, if it is empty, ends a text inside a character. -/
def CutsText (q : Registers) : Prop := q.InText ∧ q.utf8.finish q.flags.fin = false

/-- The first byte of a frame is taken, and the key is one that the rules ask for. -/
structure Begun (key : Option MaskKey) (q : Registers) : Prop where
  stage : q.stage = .len
  parsed : q.parsed = 0
  payload : q.payload = []
  masked : q.rules.requireMask = true → key.isSome = true

/-- What no byte of the header behind the first one changes. -/
structure Kept (q r : Registers) : Prop where
  rules : r.rules = q.rules
  flags : r.flags = q.flags
  opcode : r.opcode = q.opcode
  message : r.message = q.message
  utf8 : r.utf8 = q.utf8
  parsed : r.parsed = 0
  payload : r.payload = []

/-- The length and the key of the header are in. -/
structure Holds (n : Nat) (key : Option MaskKey) (r : Registers) : Prop where
  len : r.len.toNat = n
  masked : r.masked = key.isSome
  mask : ∀ k ∈ key, r.mask = ⟨k, 0⟩

/-- The registers in the midst of a header with these bytes still to come, where `q` are those
behind its first byte. -/
def Awaits (q : Registers) (n : Nat) (key : Option MaskKey) (r : Registers) (todo : Bytes) : Prop :=
  match r.stage with
  | .op => r.parseOp q.flags.bits = (q, .ok ()) ∧ todo = Header.encode q.flags n key
  | .len => r = q ∧ todo = Header.lengthField key.isSome n ++ Header.keyBytes key
  | .lenExtended =>
    Kept q r ∧ r.masked = key.isSome ∧ q.opcode.isControl = false ∧
      ∃ field, todo = field ++ Header.keyBytes key ∧ 0 < field.length ∧
        r.lenIdx + field.length = r.lenNeeded ∧ r.lenNeeded ≤ 8 ∧ r.len.toNat < 256 ^ r.lenIdx ∧
        field.foldl (fun m b => m * 256 + b.toNat) r.len.toNat = n
  | .maskingKey =>
    Kept q r ∧ refusal? q n = none ∧ r.len.toNat = n ∧ r.masked = true ∧ r.keyIdx < 4 ∧
      ∃ k, key = some k ∧ todo = k.toBytes.drop r.keyIdx ∧
        r.key.toBytes.take r.keyIdx = k.toBytes.take r.keyIdx
  | .payload => Kept q r ∧ refusal? q n = none ∧ todo = [] ∧ r.Holds n key
  | .complete =>
    Kept q r ∧ refusal? q n = none ∧ todo = [] ∧ r.Holds n key ∧ n = 0 ∧ ¬ q.CutsText

/-- The length is refused, or the header is in and the empty frame fails the check of its text. -/
def Fails (q : Registers) (n : Nat) (key : Option MaskKey) (r : Registers) (v : Violation) : Prop :=
  refusal? q n = some v ∨
    refusal? q n = none ∧ r.stage = .payload ∧ r.Holds n key ∧ n = 0 ∧ q.CutsText ∧
      v = .invalidUtf8

/-- The part that comes next fails, or takes some of the bytes to come. -/
def Goes (q : Registers) (n : Nat) (key : Option MaskKey) (todo : Bytes) (answer : Answer) : Prop :=
  ∃ r', (∃ v, answer = .ok (r', .error v) ∧ Fails q n key r' v) ∨
    ∃ took, answer = .ok (r', .ok took) ∧ Awaits q n key r' (todo.drop took)

/-! ### Part by part -/

theorem Begun.kept (hq : Begun key q) : Kept q q :=
  ⟨rfl, rfl, rfl, rfl, rfl, hq.parsed, hq.payload⟩

/-- A length that is in is refused, or the key comes next, or the payload. -/
theorem afterLen_goes (hk : Kept q r) (hmasked : r.masked = key.isSome) (hlen : r.len.toNat = n)
    (hcontrol : ¬ (q.opcode.isControl ∧ 125 < n)) (hsmall : n < 2 ^ 63) :
    (∃ v, r.afterLen = (r, .error v) ∧ q.refusal? n = some v) ∨
    ∃ r', r.afterLen = (r', .ok ()) ∧ Awaits q n key r' (Header.keyBytes key) := by
  have hrefusal : q.refusal? n =
      if q.rules.maxPayload < n then some (.frameTooLarge n q.rules.maxPayload) else none :=
    (if_neg hcontrol).trans (if_neg (Nat.not_le.mpr hsmall))
  by_cases hlarge : r.rules.maxPayload < r.len.toNat
  · refine .inl ⟨_, if_pos hlarge, ?_⟩
    rw [hk.rules, hlen] at hlarge ⊢
    exact hrefusal.trans (if_pos hlarge)
  have hnone : q.refusal? n = none := by
    rw [hk.rules, hlen] at hlarge
    exact hrefusal.trans (if_neg hlarge)
  refine .inr ?_
  cases key with
  | none =>
    have hplain : ¬ r.masked = true := by simp [hmasked]
    exact ⟨_, (if_neg hlarge).trans (if_neg hplain), { hk with }, hnone, rfl, hlen, hmasked, nofun⟩
  | some k =>
    exact ⟨_, (if_neg hlarge).trans (if_pos hmasked), { hk with }, hnone, hlen, hmasked,
      Nat.zero_lt_succ 3, k, rfl, rfl, rfl⟩

theorem op_goes (hq : Begun key q) (hstage : r.stage = .op) {b : UInt8} {bs : Bytes}
    (h : Awaits q n key r (b :: bs)) :
    Goes q n key (b :: bs) (.ok ((r.parseOp b).1, (r.parseOp b).2.map fun _ => 1)) := by
  simp only [Awaits, hstage, Header.encode_eq, List.cons.injEq] at h
  obtain ⟨hop, rfl, rfl⟩ := h
  rw [hop]
  refine ⟨q, .inr ⟨1, rfl, ?_⟩⟩
  simp only [Awaits, hq.stage]
  exact ⟨trivial, rfl⟩

/-- The registers in front of an extended length of so many bytes. -/
theorem beginExtended_awaits (hk : Kept q r) (hmasked : r.masked = key.isSome)
    (hdata : q.opcode.isControl = false) {width : Nat} (hpos : 0 < width) (hwidth : width ≤ 8)
    (hn : n < 256 ^ width) :
    Awaits q n key (r.beginExtended width) (Bytes.ofNatBE width n ++ Header.keyBytes key) := by
  have hlength := Bytes.length_ofNatBE width n
  have hvalue : Bytes.toNatBE (Bytes.ofNatBE width n) = n := by
    rw [Bytes.toNatBE_ofNatBE, Nat.mod_eq_of_lt hn]
  exact ⟨{ hk with }, hmasked, hdata, _, rfl, by omega, by simp [beginExtended, hlength], hwidth,
    Nat.one_pos, hvalue⟩

theorem code_byte : ∀ code < 128,
    (125 < UInt8.ofNat code ↔ 125 < code) ∧ (UInt8.ofNat code = 126 ↔ code = 126) ∧
      (UInt8.ofNat code = 127 ↔ code = 127) ∧ (UInt8.ofNat code).toUInt64.toNat = code := by
  decide +kernel

/-- The second byte of a header, where the mask bit is taken. -/
theorem parseLen_of_taken {masked : Bool} {code : Nat} (hcode : code < 128)
    (hmasked : r.rules.requireMask = true → masked = true) :
    r.parseLen ((if masked then 0x80 else 0) ||| UInt8.ofNat code) =
      if r.opcode.isControl ∧ 125 < code then ({ r with masked }, .error .controlTooLong)
      else if code = 126 then ({ r with masked }.beginExtended 2, .ok ())
      else if code = 127 then ({ r with masked }.beginExtended 8, .ok ())
      else { r with masked, len := UInt64.ofNat code }.afterLen := by
  obtain ⟨hbit, hlow⟩ := masked_length_byte masked code hcode
  obtain ⟨hlong, h126, h127, hword⟩ := code_byte code hcode
  have hbyte : ((if masked then 0x80 else 0) ||| UInt8.ofNat code) &&& 0x7F = UInt8.ofNat code := by
    rw [← UInt8.toNat_inj, hlow, UInt8.toNat_ofNat']
    exact (Nat.mod_eq_of_lt (by omega)).symm
  have hlen : (UInt8.ofNat code).toUInt64 = UInt64.ofNat code := by
    have hfits : code < 2 ^ 64 := by omega
    rw [← UInt64.toNat_inj, hword, UInt64.toNat_ofNat_of_lt' hfits]
  have htaken : ¬ (!masked && r.rules.requireMask) = true := by
    cases masked
    · simpa using hmasked
    · simp
  simp only [parseLen, hbit, hbyte]
  rw [if_neg htaken]
  simp only [hlen, h126, h127, Bool.and_eq_true, decide_eq_true_eq, gt_iff_lt, hlong]

/-- A code with an extension is refused in a control frame, or the extension comes next. -/
theorem extended_goes (hq : Begun key q) (hlong : 125 < n) {b : UInt8} {width : Nat}
    (hpos : 0 < width) (hwidth : width ≤ 8) (hn : n < 256 ^ width)
    (hrun : q.parseLen b = if q.opcode.isControl then
      ({ q with masked := key.isSome }, .error .controlTooLong)
      else ({ q with masked := key.isSome }.beginExtended width, .ok ())) :
    Goes q n key (b :: (Bytes.ofNatBE width n ++ Header.keyBytes key))
      (.ok ((q.parseLen b).1, (q.parseLen b).2.map fun _ => 1)) := by
  rw [hrun]
  cases hcontrol : q.opcode.isControl with
  | true => exact ⟨_, .inl ⟨_, rfl, .inl (if_pos ⟨hcontrol, hlong⟩)⟩⟩
  | false =>
    refine ⟨_, .inr ⟨1, rfl, ?_⟩⟩
    exact beginExtended_awaits (r := { q with masked := key.isSome }) { hq.kept with } rfl hcontrol
      hpos hwidth hn

theorem len_goes (hq : Begun key q) (hn : n < 2 ^ 64) {b : UInt8} {bs : Bytes}
    (hbytes : b :: bs = Header.lengthField key.isSome n ++ Header.keyBytes key) :
    Goes q n key (b :: bs) (.ok ((q.parseLen b).1, (q.parseLen b).2.map fun _ => 1)) := by
  rw [lengthField_eq, List.cons_append, List.cons.injEq, LengthForm.shortest] at hbytes
  obtain ⟨rfl, rfl⟩ := hbytes
  by_cases hbyte : n ≤ 125
  · have hrun := (parseLen_of_taken (r := q) (show n < 128 by omega) hq.masked).trans
      ((if_neg (by omega)).trans ((if_neg (by omega)).trans (if_neg (by omega))))
    rw [if_pos hbyte]
    simp only [LengthForm.code, LengthForm.extension]
    rw [hrun]
    obtain ⟨v, hafter, hrefusal⟩ | ⟨r', hafter, hawaits⟩ :=
      afterLen_goes (q := q) (n := n)
        (r := { q with masked := key.isSome, len := UInt64.ofNat n }) { hq.kept with } rfl
        (UInt64.toNat_ofNat_of_lt' hn) (by omega) (by omega)
    · rw [hafter]
      exact ⟨_, .inl ⟨v, rfl, .inl hrefusal⟩⟩
    · rw [hafter]
      exact ⟨r', .inr ⟨1, rfl, hawaits⟩⟩
  rw [if_neg hbyte]
  by_cases hshort : n ≤ 0xFFFF
  · rw [if_pos hshort]
    refine extended_goes hq (by omega) (by decide) (by decide) (by omega) ?_
    simpa [LengthForm.code] using
      parseLen_of_taken (r := q) (show 126 < 128 by decide) hq.masked
  · rw [if_neg hshort]
    refine extended_goes hq (by omega) (by decide) (by decide) (by omega) ?_
    simpa [LengthForm.code] using
      parseLen_of_taken (r := q) (show 127 < 128 by decide) hq.masked

/-- An extended length that is in is refused, or the key comes next, or the payload. -/
theorem checkLen_goes (hk : Kept q r) (hmasked : r.masked = key.isSome)
    (hdata : q.opcode.isControl = false) (hfull : r.lenIdx = r.lenNeeded) (hlen : r.len.toNat = n) :
    (∃ v, r.checkLen = (r, .error v) ∧ q.refusal? n = some v) ∨
    ∃ r', r.checkLen = (r', .ok ()) ∧ Awaits q n key r' (Header.keyBytes key) := by
  rw [checkLen, if_neg (not_not.2 hfull)]
  by_cases hhuge : 2 ^ 63 ≤ n
  · rw [if_pos ((top_bit_iff _).2 (hlen ▸ hhuge))]
    refine .inl ⟨_, rfl, ?_⟩
    rw [refusal?, if_neg (by simp [hdata]), if_pos hhuge]
  · rw [if_neg (mt (top_bit_iff _).1 (hlen ▸ hhuge))]
    exact afterLen_goes hk hmasked hlen (by simp [hdata]) (Nat.lt_of_not_le hhuge)

theorem lenExtended_goes (hstage : r.stage = .lenExtended) {rest more : Bytes}
    (h : Awaits q n key r (rest ++ more)) :
    Goes q n key (rest ++ more) (r.parseLenExtended rest) := by
  simp only [Awaits, hstage] at h
  obtain ⟨hk, hmasked, hdata, field, hsplit, hpos, hidx, hfew, hlen, hvalue⟩ := h
  -- the part takes as much of the field as this piece has of it
  let took := min field.length rest.length
  let q' : Registers :=
    { r with len := shiftIn r.len (rest.take took), lenIdx := r.lenIdx + took }
  have hrun : r.parseLenExtended rest = .ok (q'.checkLen.1, q'.checkLen.2.map fun _ => took) := by
    rw [parseLenExtended, difference_of_le (by omega),
      show r.lenNeeded - r.lenIdx = field.length by omega]
    rfl
  have hcount : (rest.take took).length = took := List.length_take_of_le (Nat.min_le_right _ _)
  have hfront : rest.take took = field.take took := by
    have hfirst : (rest ++ more).take took = rest.take took :=
      List.take_append_of_le_length (Nat.min_le_right _ _)
    rw [← hfirst, hsplit, List.take_append_of_le_length (Nat.min_le_left _ _)]
  have hback : (rest ++ more).drop took = field.drop took ++ Header.keyBytes key := by
    rw [hsplit, List.drop_append_of_le_length (Nat.min_le_left _ _)]
  obtain ⟨hword, hbound⟩ := toNat_shiftIn (rest.take took) hlen (by omega)
  rw [hcount] at hbound
  have hrest : (field.drop took).foldl (fun m b => m * 256 + b.toNat) q'.len.toNat = n := by
    rw [hword, hfront, ← List.foldl_append, List.take_append_drop, hvalue]
  rw [hrun]
  by_cases hmore : took < field.length
  · have hwait : q'.lenIdx ≠ q'.lenNeeded := show r.lenIdx + took ≠ r.lenNeeded by omega
    rw [checkLen, if_pos hwait]
    refine ⟨q', .inr ⟨took, rfl, ?_⟩⟩
    simp only [Awaits, show q'.stage = .lenExtended from hstage]
    refine ⟨{ hk with }, hmasked, hdata, _, hback, ?_, ?_, hfew, hbound, hrest⟩
    · rw [List.length_drop]
      omega
    · rw [List.length_drop]
      show r.lenIdx + took + (field.length - took) = r.lenNeeded
      omega
  have hall : field.drop took = [] := List.drop_of_length_le (Nat.le_of_not_lt hmore)
  rw [hall, List.foldl_nil] at hrest
  rw [hall, List.nil_append] at hback
  obtain ⟨v, hcheck, hrefusal⟩ | ⟨r', hcheck, hawaits⟩ :=
    checkLen_goes (r := q') { hk with } hmasked hdata
      (show r.lenIdx + took = r.lenNeeded by omega) hrest
  · rw [hcheck]
    exact ⟨q', .inl ⟨v, rfl, .inl hrefusal⟩⟩
  · rw [hcheck]
    exact ⟨r', .inr ⟨took, rfl, hback ▸ hawaits⟩⟩

theorem maskingKey_goes (hstage : r.stage = .maskingKey) {rest more : Bytes}
    (h : Awaits q n key r (rest ++ more)) :
    Goes q n key (rest ++ more) (r.parseMaskingKey rest) := by
  simp only [Awaits, hstage] at h
  obtain ⟨hk, hpassed, hlen, hmasked, hidx, k, rfl, hsplit, hfront⟩ := h
  let took := min (4 - r.keyIdx) rest.length
  have hcount : (rest.take took).length = took := List.length_take_of_le (Nat.min_le_right _ _)
  obtain ⟨k', hwrite, hbytes⟩ := r.key.write_fits r.keyIdx (rest.take took) (by omega)
  have htake : rest.take took = (k.toBytes.drop r.keyIdx).take took := by
    rw [← hsplit, List.take_append_of_le_length (Nat.min_le_right _ _)]
  have hgot : k'.toBytes.take (r.keyIdx + took) = k.toBytes.take (r.keyIdx + took) := by
    rw [hcount, hfront, htake] at hbytes
    rw [hbytes, List.take_add]
  let q' : Registers := { r with key := k', keyIdx := r.keyIdx + took }
  have hrun : r.parseMaskingKey rest = .ok (q'.checkKey, .ok took) := by
    rw [parseMaskingKey, difference_of_le (Nat.le_of_lt hidx), pure_bind]
    dsimp only
    rw [hwrite]
    rfl
  have hback : (rest ++ more).drop took = k.toBytes.drop (r.keyIdx + took) := by
    rw [hsplit, List.drop_drop]
  rw [hrun, checkKey]
  by_cases hfull : r.keyIdx + took = 4
  · have hkey : k' = k := by
      rw [hfull] at hgot
      exact Option.some.inj (congrArg MaskKey.ofBytes? hgot)
    rw [if_pos (show q'.keyIdx = 4 from hfull)]
    refine ⟨_, .inr ⟨took, rfl, { hk with }, hpassed, ?_, hlen, hmasked, ?_⟩⟩
    · rw [hback, hfull]
      rfl
    · rintro _ ⟨⟩
      exact congrArg (Mask.mk · 0) hkey
  · rw [if_neg (show q'.keyIdx ≠ 4 from hfull)]
    refine ⟨q', .inr ⟨took, rfl, ?_⟩⟩
    simp only [Awaits, show q'.stage = .maskingKey from hstage]
    exact ⟨{ hk with }, hpassed, hlen, hmasked, show r.keyIdx + took < 4 by omega, k, rfl, hback,
      hgot⟩

/-- Behind the header an empty frame is complete at once or cuts its text, and any other one waits
for its payload. -/
theorem payload_goes (hstage : r.stage = .payload) {rest more : Bytes}
    (h : Awaits q n key r (rest ++ more)) :
    Goes q n key (rest ++ more) (r.parsePayload rest) := by
  simp only [Awaits, hstage, List.append_eq_nil_iff] at h
  obtain ⟨hk, hpassed, ⟨rfl, rfl⟩, hholds⟩ := h
  have hrun : r.parsePayload [] = .ok (r.checkPayload.1, r.checkPayload.2.map fun _ => 0) :=
    parsePayload_of_ok (by rw [hk.parsed]; exact UInt64.zero_le) (Nat.min_zero _).symm rfl
  have hempty : r.parsed = r.len ↔ n = 0 := by
    rw [hk.parsed, ← UInt64.toNat_inj, hholds.len]
    exact eq_comm
  have hcut : (r.opcode.isData ∧ r.message = some .text ∧ !r.utf8.finish r.flags.fin) ↔
      q.CutsText := by
    simp [hk.opcode, hk.message, hk.utf8, hk.flags, CutsText, InText, and_assoc]
  have hreason : ¬ (r.opcode = .close ∧ 2 < r.payload.length ∧ !Utf8.valid (r.payload.drop 2)) := by
    simp [hk.payload]
  rw [hrun, checkPayload]
  by_cases hzero : n = 0
  · rw [if_pos (hempty.2 hzero), finish]
    by_cases hcuts : q.CutsText
    · rw [if_pos (hcut.2 hcuts)]
      exact ⟨r, .inl ⟨_, rfl, .inr ⟨hpassed, hstage, hholds, hzero, hcuts, rfl⟩⟩⟩
    · rw [if_neg (mt hcut.1 hcuts), if_neg hreason]
      exact ⟨_, .inr ⟨0, rfl, { hk with }, hpassed, rfl, { hholds with }, hzero, hcuts⟩⟩
  · rw [if_neg (mt hempty.1 hzero)]
    refine ⟨r, .inr ⟨0, rfl, ?_⟩⟩
    simp only [Awaits, hstage]
    exact ⟨hk, hpassed, rfl, hholds⟩

/-- The part that comes next goes on in the header, or there is none because the input is used
up. -/
theorem part_goes (hq : Begun key q) (hn : n < 2 ^ 64) {rest more : Bytes}
    (h : Awaits q n key r (rest ++ more)) :
    (r.part rest = none ∧ rest = [] ∧ r.stage ≠ .payload) ∨
      ∃ a, r.part rest = some a ∧ Goes q n key (rest ++ more) a := by
  by_cases hpayload : r.stage = .payload
  · exact .inr ⟨_, by simp only [part, hpayload], payload_goes hpayload h⟩
  by_cases hcomplete : r.stage = .complete
  · simp only [Awaits, hcomplete, List.append_eq_nil_iff] at h
    exact .inl ⟨by simp only [part, hcomplete], h.2.2.1.1, hpayload⟩
  cases rest with
  | nil =>
    refine .inl ⟨?_, rfl, hpayload⟩
    cases hstage : r.stage <;> simp_all [part]
  | cons b rest =>
    refine .inr ?_
    cases hstage : r.stage with
    | op => exact ⟨_, by simp only [part, hstage], op_goes hq hstage h⟩
    | len =>
      simp only [Awaits, hstage] at h
      obtain ⟨rfl, hbytes⟩ := h
      exact ⟨_, by simp only [part, hstage], len_goes hq hn hbytes⟩
    | lenExtended => exact ⟨_, by simp only [part, hstage], lenExtended_goes hstage h⟩
    | maskingKey => exact ⟨_, by simp only [part, hstage], maskingKey_goes hstage h⟩
    | payload => exact absurd hstage hpayload
    | complete => exact absurd hstage hcomplete

/-! ### Call by call -/

/-- Input with the header as far as it goes is used up, or the header fails. Where the payload comes
next there is some. -/
def Closes (q : Registers) (n : Nat) (key : Option MaskKey) (used : Nat) (more : Bytes)
    (answer : Answer) : Prop :=
  ∃ r', (∃ v, answer = .ok (r', .error v) ∧ Fails q n key r' v) ∨
    answer = .ok (r', .ok used) ∧ Awaits q n key r' more ∧ (r'.stage = .payload → n ≠ 0)

section

variable {src more : Bytes} {rounds : Nat}

theorem Awaits.ne_zero_of_starved (h : Awaits q n key r todo) {pos : Nat}
    (hstarved : r.starved src pos = true) : n ≠ 0 := by
  obtain ⟨hstage, hlt, -⟩ := starved_iff.1 hstarved
  simp only [Awaits, hstage] at h
  rw [UInt64.lt_iff_toNat_lt, h.2.2.2.len] at hlt
  exact Nat.ne_of_gt (Nat.lt_of_le_of_lt (Nat.zero_le _) hlt)

/-- One round goes on in the header, or ends the call. -/
theorem round_goes (hq : Begun key q) (hn : n < 2 ^ 64) {s : Registers × Nat}
    (hinside : s.2 ≤ src.length) (h : Awaits q n key s.1 (src.drop s.2 ++ more)) :
    (∃ s', round src s = .inl s' ∧
      (s'.2 ≤ src.length → Awaits q n key s'.1 (src.drop s'.2 ++ more))) ∨
    ∃ a, round src s = .inr a ∧ Closes q n key src.length more a := by
  obtain ⟨r, pos⟩ := s
  have hrest : suffix src pos = .ok (src.drop pos) := if_pos hinside
  obtain ⟨hpart, hnil, hstage⟩ |
    ⟨_, hpart, r', ⟨v, rfl, hfails⟩ | ⟨took, rfl, hawaits⟩⟩ := part_goes hq hn h
  · have hall : pos = src.length := Nat.le_antisymm hinside (List.drop_eq_nil_iff.1 hnil)
    rw [hnil] at h
    exact .inr ⟨.ok (r, .ok pos), by simp only [round, hrest, hpart],
      r, .inr ⟨by rw [hall], h, fun hpayload => absurd hpayload hstage⟩⟩
  · exact .inr ⟨.ok (r', .error v), by simp only [round, hrest, hpart], r', .inl ⟨v, rfl, hfails⟩⟩
  have hnext (hle : pos + took ≤ src.length) :
      Awaits q n key r' (src.drop (pos + took) ++ more) := by
    have hwithin : took ≤ (src.drop pos).length := by
      rw [List.length_drop]
      omega
    rwa [List.drop_append_of_le_length hwithin, List.drop_drop] at hawaits
  by_cases hstarved : r'.starved src (pos + took) = true
  · obtain ⟨-, -, hall⟩ := starved_iff.1 hstarved
    have hend := hnext (Nat.le_of_eq hall)
    rw [hall, List.drop_length] at hend
    refine .inr ⟨.ok (r', .ok (pos + took)), ?_, r',
      .inr ⟨by rw [hall], hend, fun _ => hend.ne_zero_of_starved hstarved⟩⟩
    simp only [round, hrest, hpart, hstarved, if_true]
  · refine .inl ⟨(r', pos + took), ?_, hnext⟩
    simp only [round, hrest, hpart, hstarved]
    rfl

/-- A call uses up its piece of the header, or the header fails. -/
theorem parse_goes (hq : Begun key q) (hn : n < 2 ^ 64) (hr : r.Settled)
    (h : Awaits q n key r (src ++ more)) (hrounds : 6 ≤ rounds) :
    ∃ a, r.parse rounds src = some a ∧ Closes q n key src.length more a := by
  let Inv (s : Registers × Nat) : Prop := Awaits q n key s.1 (src.drop s.2 ++ more)
  have hkeeps : ∀ s s', Underway r src s → Inv s → round src s = .inl s' → s'.2 ≤ src.length →
      Inv s' := by
    intro s s' hunder hawaits hround hinside
    obtain ⟨t, ht, hnext⟩ | ⟨a, ha, -⟩ := round_goes hq hn hunder.inside hawaits
    · cases ht.symm.trans hround
      exact hnext hinside
    · cases ha.symm.trans hround
  obtain ⟨last, a, hunder, hawaits, hend, hrun⟩ := exists_last hr Inv h hkeeps hrounds
  refine ⟨a, hrun, ?_⟩
  obtain ⟨t, ht, -⟩ | ⟨b, hb, hcloses⟩ := round_goes hq hn hunder.inside hawaits
  · cases ht.symm.trans hend
  · cases hb.symm.trans hend
    exact hcloses

/-- The pieces of a header are used up one after another, or the header fails. -/
theorem parseAll_goes (hq : Begun key q) (hn : n < 2 ^ 64) (hr : r.Settled) {cuts : List Bytes}
    (h : Awaits q n key r cuts.flatten) (hsome : r.stage = .payload → n ≠ 0)
    (hrounds : 6 ≤ rounds) :
    ∃ a, r.parseAll rounds cuts = some a ∧ Closes q n key cuts.flatten.length [] a := by
  induction cuts generalizing r with
  | nil => exact ⟨_, rfl, r, .inr ⟨rfl, h, hsome⟩⟩
  | cons src cuts ih =>
    rw [List.flatten_cons] at h ⊢
    obtain ⟨_, hparse, r', ⟨v, rfl, hfails⟩ | ⟨rfl, hawaits, hsome'⟩⟩ :=
      parse_goes hq hn hr h hrounds
    · exact ⟨_, by simp only [parseAll, hparse], r', .inl ⟨v, rfl, hfails⟩⟩
    obtain ⟨_, _, heq, hr', -⟩ := hr.ends hparse
    cases heq
    obtain ⟨_, hall, r'', ⟨v, rfl, hfails⟩ | ⟨rfl, hdone, hsome''⟩⟩ := ih hr' hawaits hsome'
    · exact ⟨_, by simp only [parseAll, hparse, hall]; rfl, r'', .inl ⟨v, rfl, hfails⟩⟩
    · refine ⟨_, by simp only [parseAll, hparse, hall]; rfl, r'', .inr ⟨?_, hdone, hsome''⟩⟩
      rw [List.length_append]
      rfl

/-- With nothing more to come the header is in. -/
theorem Awaits.done (h : Awaits q n key r []) :
    q.refusal? n = none ∧ r.Holds n key ∧
      (r.stage = .payload ∨ r.stage = .complete ∧ n = 0 ∧ ¬ q.CutsText) := by
  cases hstage : r.stage with
  | op =>
    simp only [Awaits, hstage] at h
    cases h.2
  | len =>
    simp only [Awaits, hstage, lengthField_eq] at h
    cases h.2
  | lenExtended =>
    simp only [Awaits, hstage] at h
    obtain ⟨-, -, -, field, hnil, hpos, -⟩ := h
    rw [(List.append_eq_nil_iff.1 hnil.symm).1] at hpos
    cases hpos
  | maskingKey =>
    simp only [Awaits, hstage] at h
    obtain ⟨-, -, -, -, hidx, k, -, hnil, -⟩ := h
    have hlength := congrArg List.length hnil
    rw [List.length_drop, show k.toBytes.length = 4 from rfl, List.length_nil] at hlength
    omega
  | payload =>
    simp only [Awaits, hstage] at h
    exact ⟨h.2.1, h.2.2.2, .inl rfl⟩
  | complete =>
    simp only [Awaits, hstage] at h
    exact ⟨h.2.1, h.2.2.2.1, .inr ⟨rfl, h.2.2.2.2⟩⟩

/-- What the pieces of a header come to, where `q` are the registers behind its first byte: the
length is refused, or the length and the key are in and the header is used up. Only an empty frame
that ends a text inside a character fails behind its header. -/
structure Takes (maxPayload : Nat) (q : Registers) (n : Nat) (key : Option MaskKey) (used : Nat)
    (r : Registers) (result : Except Violation Nat) : Prop where
  control : q.opcode.isControl → 125 < n → result = .error .controlTooLong
  huge : q.opcode.isData → 2 ^ 63 ≤ n → result = .error .invalidLength
  large : (q.opcode.isControl → n ≤ 125) → n < 2 ^ 63 → maxPayload < n →
    result = .error (.frameTooLarge n maxPayload)
  holds : (q.opcode.isControl → n ≤ 125) → n < 2 ^ 63 → n ≤ maxPayload → r.Holds n key
  whole : (q.opcode.isControl → n ≤ 125) → n < 2 ^ 63 → n ≤ maxPayload → ¬ (n = 0 ∧ q.CutsText) →
    result = .ok used ∧ r.stage = if n = 0 then .complete else .payload
  cut : n ≤ maxPayload → n = 0 → q.CutsText → result = .error .invalidUtf8 ∧ r.stage = .payload

theorem refusal?_of_control (hcontrol : q.opcode.isControl) (hlong : 125 < n) :
    q.refusal? n = some .controlTooLong := if_pos ⟨hcontrol, hlong⟩

/-- Behind the check of control frames. -/
theorem refusal?_of_fits (hcontrol : q.opcode.isControl → n ≤ 125) :
    q.refusal? n =
      if 2 ^ 63 ≤ n then some .invalidLength
      else if q.rules.maxPayload < n then some (.frameTooLarge n q.rules.maxPayload)
      else none :=
  if_neg fun h => absurd (hcontrol h.1) (Nat.not_le.2 h.2)

theorem takes_of_refusal {used : Nat} {result : Except Violation Nat}
    (hrefused : ∀ v, q.refusal? n = some v → result = .error v)
    (hpassed : q.refusal? n = none → r.Holds n key ∧
      (n = 0 ∧ q.CutsText → result = .error .invalidUtf8 ∧ r.stage = .payload) ∧
      (¬ (n = 0 ∧ q.CutsText) → result = .ok used ∧
        r.stage = if n = 0 then .complete else .payload)) :
    Takes q.rules.maxPayload q n key used r result := by
  have passes (hcontrol : q.opcode.isControl → n ≤ 125) (hsmall : n < 2 ^ 63)
      (hlimit : n ≤ q.rules.maxPayload) : q.refusal? n = none := by
    rw [refusal?_of_fits hcontrol, if_neg (Nat.not_le.2 hsmall), if_neg (Nat.not_lt.2 hlimit)]
  refine ⟨fun hcontrol hlong => hrefused _ (refusal?_of_control hcontrol hlong),
    fun hdata hhuge => hrefused _ ?_, fun hcontrol hsmall hlarge => hrefused _ ?_,
    fun hcontrol hsmall hlimit => (hpassed (passes hcontrol hsmall hlimit)).1,
    fun hcontrol hsmall hlimit => (hpassed (passes hcontrol hsmall hlimit)).2.2,
    fun hlimit hzero hcuts => ?_⟩
  · have hfits : q.opcode.isControl → n ≤ 125 := fun hcontrol => by
      rw [Opcode.isData, hcontrol] at hdata
      cases hdata
    rw [refusal?_of_fits hfits, if_pos hhuge]
  · rw [refusal?_of_fits hcontrol, if_neg (Nat.not_le.2 hsmall), if_pos hlarge]
  · exact (hpassed (passes (by omega) (by omega) hlimit)).2.1 ⟨hzero, hcuts⟩

/-- A header in pieces comes to what its bytes say. -/
theorem parseAll_header (hq : Begun key q) (hn : n < 2 ^ 64) (hr : r.Settled) {cuts : List Bytes}
    (h : Awaits q n key r cuts.flatten) (hstage : r.stage = .op) (hrounds : 6 ≤ rounds) :
    ∃ r' result, r.parseAll rounds cuts = some (.ok (r', result)) ∧
      Takes q.rules.maxPayload q n key cuts.flatten.length r' result := by
  obtain ⟨_, hrun, r', ⟨v, rfl, hfails⟩ | ⟨rfl, hawaits, hsome⟩⟩ :=
    parseAll_goes hq hn hr h (by simp [hstage]) hrounds
  · refine ⟨r', .error v, hrun, takes_of_refusal ?_ ?_⟩
    · intro w hw
      obtain hrefused | ⟨hnone, -⟩ := hfails
      · exact congrArg Except.error (Option.some.inj (hrefused.symm.trans hw))
      · cases hnone.symm.trans hw
    · intro hnone
      obtain hrefused | ⟨-, hpayload, hholds, hzero, hcuts, rfl⟩ := hfails
      · cases hnone.symm.trans hrefused
      · exact ⟨hholds, fun _ => ⟨rfl, hpayload⟩, fun hwhole => absurd ⟨hzero, hcuts⟩ hwhole⟩
  · obtain ⟨hnone, hholds, hstage'⟩ := hawaits.done
    refine ⟨r', _, hrun, takes_of_refusal (fun v hv => ?_) fun _ =>
      ⟨hholds, fun ⟨hzero, hcuts⟩ => ?_, fun _ => ⟨rfl, ?_⟩⟩⟩
    · cases hnone.symm.trans hv
    · obtain hpayload | ⟨-, -, hwhole⟩ := hstage'
      · exact absurd hzero (hsome hpayload)
      · exact absurd hcuts hwhole
    · obtain hpayload | ⟨hcomplete, hzero, -⟩ := hstage'
      · rw [hpayload, if_neg (hsome hpayload)]
      · rw [hcomplete, if_pos hzero]

end

end Registers

end WireServer.WebSocket
