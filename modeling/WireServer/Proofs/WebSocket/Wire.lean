import WireServer.Proofs.BigEndian
import WireServer.Proofs.WebSocket.Splitting

/-! Frames as they can stand on the wire, with every length form and key, and what one call of the
parser makes of one: the checks in the order of its bytes. -/

namespace WireServer.WebSocket

/-- The three ways to write a length. -/
inductive LengthForm where
  | short | medium | long
  deriving DecidableEq, Repr

namespace LengthForm

/-- The lengths below this have the form. -/
def bound : LengthForm → Nat
  | .short => 126
  | .medium => 0x10000
  | .long => 0x10000000000000000

/-- The seven bits in the second byte. -/
def code : LengthForm → Nat → Nat
  | .short, n => n
  | .medium, _ => 126
  | .long, _ => 127

/-- The bytes of an extended length. -/
def extension : LengthForm → Nat → Bytes
  | .short, _ => []
  | .medium, n => Bytes.ofNatBE 2 n
  | .long, n => Bytes.ofNatBE 8 n

end LengthForm

/-- A frame that can be written, whether the rules allow it or not: any first byte, any length form
that holds the length, not only the shortest, and any key or none. -/
structure Wire where
  flags : Flags
  form : LengthForm
  key : Option MaskKey
  data : Bytes
  fits : data.length < form.bound

namespace Wire

/-- The mask at the start of the payload. -/
def mask (f : Wire) : Option Mask := f.key.map (⟨·, 0⟩)

/-- Mask bit and length code. -/
def lengthByte (f : Wire) : UInt8 :=
  (if f.key.isSome then 0x80 else 0) ||| UInt8.ofNat (f.form.code f.data.length)

/-- The key's bytes, if there is one. -/
def keyBytes (f : Wire) : Bytes := (f.key.map MaskKey.toBytes).getD []

/-- The payload as it stands on the wire. -/
def body (f : Wire) : Bytes := Mask.strip f.mask f.data

/-- The frame as it stands in a stream. -/
def bytes (f : Wire) : Bytes :=
  f.flags.bits :: f.lengthByte :: (f.form.extension f.data.length ++ (f.keyBytes ++ f.body))

end Wire

theorem masked_length_byte : ∀ masked : Bool, ∀ code < 128,
    (((if masked then 0x80 else 0) ||| UInt8.ofNat code) &&& 0x80 != 0) = masked ∧
      (((if masked then 0x80 else 0) ||| UInt8.ofNat code) &&& 0x7F : UInt8).toNat = code := by
  decide +kernel

namespace Wire

variable (f : Wire)

theorem code_lt : f.form.code f.data.length < 128 := by
  have := f.fits
  cases hf : f.form <;> simp only [hf, LengthForm.code, LengthForm.bound] at this ⊢ <;> omega

/-- An extension shows in the second byte. -/
theorem code_gt_iff : f.form.code f.data.length > 125 ↔ f.form ≠ .short := by
  have := f.fits
  cases hf : f.form <;> simp [hf, LengthForm.code, LengthForm.bound] at this ⊢
  omega

theorem lengthByte_masked : (f.lengthByte &&& 0x80 != 0) = f.key.isSome :=
  (masked_length_byte _ _ f.code_lt).1

theorem lengthByte_code : (f.lengthByte &&& 0x7F).toNat = f.form.code f.data.length :=
  (masked_length_byte _ _ f.code_lt).2

theorem length_body : f.body.length = f.data.length := Mask.length_strip _ _

theorem strip_body : Mask.strip f.mask f.body = f.data := by
  cases hk : f.key with
  | none => simp [body, mask, hk, Mask.strip]
  | some k => simp [body, mask, hk, Mask.strip, Mask.apply_apply]

end Wire

namespace Parser

/-- The parser with the payload of a frame in it. -/
def filled (p : Parser) (mask : Option Mask) (data : Bytes) : Parser :=
  { p with
    phase := .payload (mask.map (·.skip data.length))
    length := data.length
    parsed := data.length
    payload := data
    utf8 := if p.inText then (Utf8.walk p.utf8 data).1 else p.utf8 }

theorem readPayload_bytes (p : Parser) (f : Wire) (rest : Bytes) (hp : p.parsed = 0)
    (hl : p.payload = []) (hlen : p.length = f.data.length) :
    p.readPayload f.mask (f.body ++ rest) =
      if p.spoils f.data then ({ p.filled f.mask f.data with parsed := 0 }, .error .invalidUtf8)
      else (p.filled f.mask f.data).finish rest := by
  have htake : (f.body ++ rest).take f.data.length = f.body := by
    rw [List.take_append_of_le_length (Nat.le_of_eq f.length_body.symm), ← f.length_body,
      List.take_length]
  have hdrop : (f.body ++ rest).drop f.data.length = rest := by
    rw [← f.length_body, List.drop_left]
  have habsorb : p.absorb f.mask f.body = p.filled f.mask f.data := by
    simp only [absorb, filled, hp, hl, Wire.length_body, Wire.strip_body, Nat.zero_add,
      List.nil_append, ← hlen]
  simp only [readPayload, hp, hlen, Nat.sub_zero, htake, hdrop, habsorb, Wire.strip_body]
  rw [if_pos (show (p.filled f.mask f.data).parsed = (p.filled f.mask f.data).length from rfl)]

/-- The payload of a frame taken in whole, and the checks of its text. -/
def conclude (p : Parser) (f : Wire) (rest : Bytes) : Except Violation (Parser × Bytes) :=
  if p.spoils f.data then .error .invalidUtf8
  else ((p.filled f.mask f.data).finish rest).result

theorem lengthKnown_bytes (p : Parser) (f : Wire) (rest : Bytes) (hp : p.parsed = 0)
    (hl : p.payload = []) (hlen : p.length = f.data.length) :
    (p.lengthKnown f.key.isSome (f.keyBytes ++ (f.body ++ rest))).result =
      if p.rules.maxPayload < f.data.length then
        .error (.frameTooLarge f.data.length p.rules.maxPayload)
      else p.conclude f rest := by
  have hkey : (if f.key.isSome then p.readKey [] (f.keyBytes ++ (f.body ++ rest))
      else p.readPayload none (f.keyBytes ++ (f.body ++ rest))) =
        p.readPayload f.mask (f.body ++ rest) := by
    cases hk : f.key with
    | none => simp [Wire.keyBytes, Wire.mask, hk]
    | some k => simp [Wire.keyBytes, Wire.mask, hk, readKey, MaskKey.toBytes, MaskKey.ofBytes?]
  rw [lengthKnown, hkey, hlen]
  split
  · rfl
  · rw [readPayload_bytes p f rest hp hl hlen, conclude]
    split <;> rfl

/-- An extended length whose bytes are all there. -/
theorem readExtended_bytes (p : Parser) (masked : Bool) (left n : Nat) (src : Bytes)
    (hn : n < 256 ^ left) (hp : p.length = 0) :
    (p.readExtended masked left (Bytes.ofNatBE left n ++ src)).result =
      if 0x8000000000000000 ≤ n then .error .invalidLength
      else ({ p with phase := .extended masked 0, length := n }.lengthKnown masked src).result := by
  have htake : (Bytes.ofNatBE left n ++ src).take left = Bytes.ofNatBE left n := by
    rw [List.take_append_of_le_length (Nat.le_of_eq (Bytes.length_ofNatBE left n).symm),
      List.take_of_length_le (Nat.le_of_eq (Bytes.length_ofNatBE left n))]
  have hdrop : (Bytes.ofNatBE left n ++ src).drop left = src := by
    rw [List.drop_append, List.drop_of_length_le (Nat.le_of_eq (Bytes.length_ofNatBE left n)),
      Bytes.length_ofNatBE, Nat.sub_self, List.nil_append, List.drop_zero]
  have hextend : p.extend masked left (Bytes.ofNatBE left n) =
      { p with phase := .extended masked 0, length := n } := by
    have hvalue := Bytes.toNatBE_ofNatBE left n
    rw [Nat.mod_eq_of_lt hn, Bytes.toNatBE] at hvalue
    simp only [extend, hp, hvalue, Bytes.length_ofNatBE, Nat.sub_self]
  simp only [readExtended, htake, hdrop, hextend, Bytes.length_ofNatBE, Nat.lt_irrefl, if_false]
  split <;> rfl

/-- The second byte and everything behind it. -/
theorem readLength_bytes (p : Parser) (f : Wire) (rest : Bytes) (hp : p.parsed = 0)
    (hl : p.payload = []) :
    (p.readLength f.lengthByte
        (f.form.extension f.data.length ++ (f.keyBytes ++ (f.body ++ rest)))).result =
      if f.key.isNone && p.rules.requireMask then .error .unmasked
      else if p.opcode.isControl && f.form != .short then .error .controlTooLong
      else if 0x8000000000000000 ≤ f.data.length then .error .invalidLength
      else if p.rules.maxPayload < f.data.length then
        .error (.frameTooLarge f.data.length p.rules.maxPayload)
      else p.conclude f rest := by
  have hfits := f.fits
  have hmask : (!f.key.isSome) = f.key.isNone := by cases f.key <;> rfl
  have hcode : decide (f.form.code f.data.length > 125) = (f.form != .short) := by
    rw [Bool.eq_iff_iff, decide_eq_true_iff, bne_iff_ne, f.code_gt_iff]
  have hknown (phase : Phase) := lengthKnown_bytes { p with phase, length := f.data.length } f rest
    hp hl rfl
  simp only [readLength, Wire.lengthByte_masked, Wire.lengthByte_code, hmask, hcode]
  split
  · rfl
  split
  · rfl
  cases hform : f.form with
  | short =>
    simp only [hform, LengthForm.bound] at hfits
    have h126 : f.data.length ≠ 126 := by omega
    have h127 : f.data.length ≠ 127 := by omega
    have hsmall : ¬ 0x8000000000000000 ≤ f.data.length := by omega
    simp only [LengthForm.code, LengthForm.extension, List.nil_append, h126, h127, hsmall, if_false]
    exact hknown _
  | medium =>
    simp only [hform, LengthForm.bound] at hfits
    simp only [LengthForm.code, LengthForm.extension, if_true]
    have hsmall : ¬ 0x8000000000000000 ≤ f.data.length := by omega
    rw [readExtended_bytes _ _ _ _ _ (by omega) rfl, if_neg hsmall, if_neg hsmall]
    exact hknown _
  | long =>
    simp only [hform, LengthForm.bound] at hfits
    simp only [LengthForm.code, LengthForm.extension, if_true]
    rw [if_neg (by decide), readExtended_bytes _ _ _ _ _ (by omega) rfl]
    split
    · rfl
    · exact hknown _

/-- One call on a frame and more behind it, from between two frames: the checks in the order of the
frame's bytes, and then the parser with the frame in it. -/
theorem parse_bytes (p : Parser) (f : Wire) (rest : Bytes) (hphase : p.phase = .op)
    (hp : p.parsed = 0) (hl : p.payload = []) :
    (p.parse (f.bytes ++ rest)).result = (p.readOp f.flags.bits).bind fun q =>
      if f.key.isNone && p.rules.requireMask then .error .unmasked
      else if q.opcode.isControl && f.form != .short then .error .controlTooLong
      else if 0x8000000000000000 ≤ f.data.length then .error .invalidLength
      else if p.rules.maxPayload < f.data.length then
        .error (.frameTooLarge f.data.length p.rules.maxPayload)
      else q.conclude f rest := by
  simp only [Wire.bytes, List.cons_append, List.append_assoc, parse, hphase]
  cases ho : p.readOp f.flags.bits with
  | error v => rfl
  | ok q =>
    obtain ⟨opcode, kind, rfl⟩ := readOp_eq ho
    exact readLength_bytes _ f rest hp hl

end Parser

end WireServer.WebSocket
