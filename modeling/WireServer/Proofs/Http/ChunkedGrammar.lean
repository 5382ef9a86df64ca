import Mathlib.Data.List.Forall2
import Mathlib.Data.Nat.Digits.Defs
import WireServer.Proofs.Http.BodyBytes

/-! The grammar of the chunked coding: size lines, chunks, trailer lines and the end. A body is
read by the decoder exactly if it is one of the grammar, and at every byte the decoder is at some
place within a body that can still be completed. -/

namespace WireServer.Http.Chunked

open Marked

/-! ### The grammar -/

/-- A hexadecimal digit in either case. -/
def HexDigit (b : UInt8) (value : Nat) : Prop :=
  value < 16 ∧ (b.toNat = (Nat.digitChar value).toNat ∨
    b.toNat = (Nat.digitChar value).toUpper.toNat)

/-- One or more hexadecimal digits, which spell the number. -/
def SpellsHex (digits : Bytes) (n : Nat) : Prop :=
  digits ≠ [] ∧ ∃ values, List.Forall₂ HexDigit digits values ∧
    Nat.ofDigits 16 values.reverse = n

def crlf : Bytes := [0x0D, 0x0A]

/-- No line ends among the bytes. -/
def IsPlain (bs : Bytes) : Prop := ∀ b ∈ bs, b ≠ 0x0D ∧ b ≠ 0x0A

/-- The line in front of a chunk of `n` bytes: the size, and perhaps blanks and an extension. -/
structure SizeLine (n : Nat) where
  digits : Bytes
  blanks : Bytes
  ext : Option Bytes
  spells : SpellsHex digits n
  fits : n < 2 ^ 64
  blank : ∀ b ∈ blanks, isBlank b
  plain : ∀ bs ∈ ext, IsPlain bs

/-- No blanks. -/
theorem blank_nil : ∀ b ∈ ([] : Bytes), isBlank b := List.forall_mem_nil _

/-- No extension. -/
theorem plain_none : ∀ bs ∈ (none : Option Bytes), IsPlain bs :=
  fun _ h => absurd h (Option.not_mem_none _)

def extension : Option Bytes → Bytes
  | none => []
  | some bs => 0x3B :: bs

/-- The line without its end. -/
def SizeLine.text {n : Nat} (l : SizeLine n) : Bytes := l.digits ++ l.blanks ++ extension l.ext

structure Chunk where
  data : Bytes
  line : SizeLine data.length
  filled : data ≠ []

def Chunk.marked (c : Chunk) : List Marked :=
  framing (c.line.text ++ crlf) ++ payload c.data ++ framing crlf

/-- A body in chunks, with the trailer lines behind the last of them. -/
structure Coded where
  chunks : List Chunk
  last : SizeLine 0
  trailer : List Bytes
  lines : ∀ line ∈ trailer, line ≠ [] ∧ IsPlain line

namespace Coded

/-- The last size line and the trailer lines. -/
def closing (last : SizeLine 0) (trailer : List Bytes) : Bytes :=
  last.text ++ crlf ++ trailer.flatMap (· ++ crlf)

def marked (c : Coded) : List Marked :=
  c.chunks.flatMap Chunk.marked ++ framing (closing c.last c.trailer ++ crlf)

/-- The bytes of the body. -/
def wire (c : Coded) : Bytes :=
  c.chunks.flatMap (fun chunk => chunk.line.text ++ crlf ++ chunk.data ++ crlf) ++
    (c.last.text ++ crlf ++ c.trailer.flatMap (· ++ crlf) ++ crlf)

def data (c : Coded) : Bytes := c.chunks.flatMap Chunk.data

theorem bytes_marked (c : Coded) : bytes c.marked = c.wire := by
  have hchunks (chunks : List Chunk) : bytes (chunks.flatMap Chunk.marked) =
      chunks.flatMap fun chunk => chunk.line.text ++ crlf ++ chunk.data ++ crlf := by
    induction chunks with
    | nil => rfl
    | cons chunk chunks ih => simp [Chunk.marked, ih]
  simp [marked, wire, closing, hchunks]

theorem data_marked (c : Coded) : Marked.data c.marked = c.data := by
  have hchunks (chunks : List Chunk) :
      Marked.data (chunks.flatMap Chunk.marked) = chunks.flatMap Chunk.data := by
    induction chunks with
    | nil => rfl
    | cons chunk chunks ih => simp [Chunk.marked, ih]
  simp [marked, data, hchunks]

end Coded

/-! ### Digits -/

theorem hexDigit?_eq_some_iff {b : UInt8} {value : Nat} :
    hexDigit? b = some value ↔ HexDigit b value := by
  have hall : ∀ n < 256, ∀ v < 16, hexDigit? (UInt8.ofNat n) = some v ↔
      n = (Nat.digitChar v).toNat ∨ n = (Nat.digitChar v).toUpper.toNat := by
    decide +kernel
  have hsmall : ∀ n < 256, ∀ v ∈ hexDigit? (UInt8.ofNat n), v < 16 := by decide +kernel
  have hb : b.toNat < 256 := b.toNat_lt
  have hof : UInt8.ofNat b.toNat = b := UInt8.ofNat_toNat
  constructor
  · intro h
    have hvalue : value < 16 := hsmall _ hb _ (by rw [hof]; exact h)
    exact ⟨hvalue, (hall _ hb _ hvalue).1 (by rwa [hof])⟩
  · rintro ⟨hvalue, h⟩
    rw [← hof]
    exact (hall _ hb _ hvalue).2 h

theorem hexDigit?_of_blank {b : UInt8} (h : isBlank b) : hexDigit? b = none := by
  simp only [isBlank, Bool.or_eq_true, decide_eq_true_eq] at h
  rcases h with rfl | rfl <;> rfl

theorem SpellsHex.single {b : UInt8} {value : Nat} (h : HexDigit b value) :
    SpellsHex [b] value :=
  ⟨by simp, [value], .cons h .nil, by simp⟩

theorem SpellsHex.snoc {digits : Bytes} {n : Nat} {b : UInt8} {value : Nat}
    (h : SpellsHex digits n) (hb : HexDigit b value) :
    SpellsHex (digits ++ [b]) (n * 16 + value) := by
  obtain ⟨-, values, hvalues, hn⟩ := h
  refine ⟨by simp, values ++ [value], List.rel_append hvalues (.cons hb .nil), ?_⟩
  rw [List.reverse_append, List.reverse_singleton, List.singleton_append, Nat.ofDigits_cons, hn]
  omega

/-! ### The decoder on a body of the grammar -/

open BodyDecoder in
/-- The digits of a size, which make a number that fits. -/
theorem takes_digits {digits : Bytes} {values : List Nat} (h : List.Forall₂ HexDigit digits values)
    {m n : Nat} (hasDigit : Bool) (hn : values.foldl (fun n v => n * 16 + v) m = n)
    (hfits : n < 2 ^ 64) : (chunked ⟨.size, m, hasDigit⟩).Takes (framing digits)
      (chunked ⟨.size, n, if digits = [] then hasDigit else true⟩) := by
  have hgrow (values : List Nat) (m : Nat) : m ≤ values.foldl (fun n v => n * 16 + v) m := by
    induction values generalizing m with
    | nil => exact Nat.le_refl _
    | cons v values ih => exact Nat.le_trans (by omega) (ih (m * 16 + v))
  induction h generalizing m hasDigit with
  | nil =>
    subst hn
    exact .nil _
  | @cons b value digits values hb hrest ih =>
    rw [List.foldl_cons] at hn
    have hfirst : m * 16 + value < UInt64.size := by
      have := hgrow values (m * 16 + value)
      rw [hn] at this
      exact Nat.lt_of_le_of_lt this hfits
    have hstep : Decoder.step ⟨.size, m, hasDigit⟩ b = .ok ⟨.size, m * 16 + value, true⟩ := by
      simp only [Decoder.step, hexDigit?_eq_some_iff.2 hb, Decoder.digit, hfirst, if_true]
    have hmore := ih true hn
    rw [ite_self] at hmore
    exact (takes_step (by simp) (by simp) hstep).trans hmore

open BodyDecoder in
/-- Bytes that leave the decoder as it is. -/
theorem takes_run {d : Decoder} {bs : Bytes} (hdata : d.state ≠ .data) (hdone : d.state ≠ .done)
    (h : ∀ b ∈ bs, d.step b = .ok d) : (chunked d).Takes (framing bs) (chunked d) := by
  induction bs with
  | nil => exact .nil _
  | cons b bs ih =>
    rw [List.forall_mem_cons] at h
    exact (takes_step hdata hdone h.1).trans (ih h.2)

/-- Behind its digits, a size goes on with blanks, an extension or the end of the line. -/
theorem step_afterSize {d : Decoder} {b : UInt8} (hd : d.hasDigit)
    (hstate : d.state = .size ∨ d.state = .sizeBlank) (hb : hexDigit? b = none) :
    d.step b = d.afterSize b := by
  rcases hstate with hstate | hstate <;> simp [Decoder.step, hstate, hb, hd]

open BodyDecoder in
theorem takes_blanks {bs : Bytes} {n : Nat} (h : ∀ b ∈ bs, isBlank b) :
    ∃ s, (s = .size ∨ s = .sizeBlank) ∧
      (chunked ⟨.size, n, true⟩).Takes (framing bs) (chunked ⟨s, n, true⟩) := by
  cases bs with
  | nil => exact ⟨.size, .inl rfl, .nil _⟩
  | cons b bs =>
    have hblank (s : State) (hs : s = .size ∨ s = .sizeBlank) (x : UInt8) (hx : x ∈ b :: bs) :
        Decoder.step ⟨s, n, true⟩ x = .ok ⟨.sizeBlank, n, true⟩ := by
      rw [step_afterSize rfl hs (hexDigit?_of_blank (h x hx)), Decoder.afterSize, if_pos (h x hx)]
    refine ⟨.sizeBlank, .inr rfl, ?_⟩
    exact (takes_step (by simp) (by simp) (hblank .size (.inl rfl) b (by simp))).trans
      (takes_run (by simp) (by simp) fun x hx => hblank .sizeBlank (.inr rfl) x (by simp [hx]))

open BodyDecoder in
theorem takes_plain {d : Decoder} {bs : Bytes} (h : IsPlain bs)
    (hstate : d.state = .ext ∨ d.state = .trailer) :
    (chunked d).Takes (framing bs) (chunked d) := by
  refine takes_run (by rcases hstate with h | h <;> simp [h])
    (by rcases hstate with h | h <;> simp [h]) fun b hb => ?_
  obtain ⟨hcr, hlf⟩ := h b hb
  rcases hstate with hstate | hstate <;> simp [Decoder.step, hstate, hcr, hlf]

open BodyDecoder in
theorem SizeLine.takes {n : Nat} (l : SizeLine n) :
    (chunked ⟨.size, 0, false⟩).Takes (framing (l.text ++ crlf))
      (chunked ⟨if n = 0 then .trailerStart else .data, n, true⟩) := by
  obtain ⟨hne, values, hvalues, hn⟩ := l.spells
  have hfold : values.foldl (fun n v => n * 16 + v) 0 = n := by
    rw [← hn, Nat.ofDigits_eq_foldr, List.foldr_reverse]
    congr 1
    funext n v
    simp [Nat.mul_comm, Nat.add_comm]
  have hdigits := takes_digits hvalues false hfold l.fits
  rw [if_neg hne] at hdigits
  obtain ⟨s, hs, hblanks⟩ := takes_blanks (n := n) l.blank
  have hfront := hdigits.trans hblanks
  have hend : (chunked ⟨.sizeLf, n, true⟩).Takes (framing [0x0A])
      (chunked ⟨if n = 0 then .trailerStart else .data, n, true⟩) :=
    takes_step (by simp) (by simp) rfl
  have hafter (b : UInt8) (hb : hexDigit? b = none) :
      Decoder.step ⟨s, n, true⟩ b = Decoder.afterSize ⟨s, n, true⟩ b :=
    step_afterSize rfl hs hb
  have hopen : s ≠ .data ∧ s ≠ .done := by rcases hs with rfl | rfl <;> simp
  have hplain := l.plain
  rw [SizeLine.text]
  cases hext : l.ext with
  | none =>
    have hcr := takes_step hopen.1 hopen.2 (hafter 0x0D rfl)
    simpa [extension, crlf, framing] using (hfront.trans hcr).trans hend
  | some bs =>
    have hsemi := takes_step hopen.1 hopen.2 (hafter 0x3B rfl)
    have hbody : (chunked ⟨.ext, n, true⟩).Takes (framing bs) (chunked ⟨.ext, n, true⟩) :=
      takes_plain (hplain bs hext) (.inl rfl)
    have hcr : (chunked ⟨.ext, n, true⟩).Takes (framing [0x0D]) (chunked ⟨.sizeLf, n, true⟩) :=
      takes_step (by simp) (by simp) rfl
    simpa [extension, crlf, framing] using
      (((hfront.trans hsemi).trans hbody).trans hcr).trans hend

open BodyDecoder in
theorem Chunk.takes (c : Chunk) :
    (chunked ⟨.size, 0, false⟩).Takes c.marked (chunked ⟨.size, 0, false⟩) := by
  have hne : c.data.length ≠ 0 := by simp [c.filled]
  have hline := c.line.takes
  rw [if_neg hne] at hline
  have hdata := takes_data (d := ⟨.data, c.data.length, true⟩) rfl c.filled (Nat.le_refl _)
  simp only [Decoder.count, if_true, Nat.sub_self] at hdata
  have hcr : (chunked ⟨.dataCr, 0, true⟩).Takes (framing [0x0D]) (chunked ⟨.dataLf, 0, true⟩) :=
    takes_step (by simp) (by simp) rfl
  have hlf : (chunked ⟨.dataLf, 0, true⟩).Takes (framing [0x0A]) (chunked ⟨.size, 0, false⟩) :=
    takes_step (by simp) (by simp) rfl
  exact (hline.trans hdata).trans (hcr.trans hlf)

open BodyDecoder in
theorem takes_chunks (chunks : List Chunk) : (chunked ⟨.size, 0, false⟩).Takes
    (chunks.flatMap Chunk.marked) (chunked ⟨.size, 0, false⟩) := by
  induction chunks with
  | nil => exact .nil _
  | cons c chunks ih =>
    rw [List.flatMap_cons]
    exact c.takes.trans ih

open BodyDecoder in
theorem takes_trailer {lines : List Bytes} (h : ∀ line ∈ lines, line ≠ [] ∧ IsPlain line) :
    (chunked ⟨.trailerStart, 0, true⟩).Takes (framing (lines.flatMap (· ++ crlf)))
      (chunked ⟨.trailerStart, 0, true⟩) := by
  induction lines with
  | nil => exact .nil _
  | cons line lines ih =>
    rw [List.forall_mem_cons] at h
    obtain ⟨⟨hne, hplain⟩, hlines⟩ := h
    obtain ⟨b, bs, rfl⟩ := List.exists_cons_of_ne_nil hne
    obtain ⟨⟨hcr, hlf⟩, hbs⟩ := List.forall_mem_cons.1 hplain
    have hfirst : (chunked ⟨.trailerStart, 0, true⟩).Takes (framing [b])
        (chunked ⟨.trailer, 0, true⟩) :=
      takes_step (by simp) (by simp) (by simp [Decoder.step, hcr, hlf])
    have hmore : (chunked ⟨.trailer, 0, true⟩).Takes (framing bs) (chunked ⟨.trailer, 0, true⟩) :=
      takes_plain hbs (.inr rfl)
    have hend : (chunked ⟨.trailer, 0, true⟩).Takes (framing [0x0D])
        (chunked ⟨.trailerLf, 0, true⟩) := takes_step (by simp) (by simp) rfl
    have hnext : (chunked ⟨.trailerLf, 0, true⟩).Takes (framing [0x0A])
        (chunked ⟨.trailerStart, 0, true⟩) := takes_step (by simp) (by simp) rfl
    have hall := ((hfirst.trans hmore).trans (hend.trans hnext)).trans (ih hlines)
    simpa [crlf, framing] using hall

open BodyDecoder in
theorem takes_closing (last : SizeLine 0) {trailer : List Bytes}
    (h : ∀ line ∈ trailer, line ≠ [] ∧ IsPlain line) : (chunked ⟨.size, 0, false⟩).Takes
      (framing (Coded.closing last trailer)) (chunked ⟨.trailerStart, 0, true⟩) := by
  rw [Coded.closing, framing_append]
  exact last.takes.trans (takes_trailer h)

open BodyDecoder in
/-- A body of the grammar leads to the end of the coding. -/
theorem Coded.takes (c : Coded) :
    (chunked {}).Takes c.marked (chunked ⟨.done, 0, true⟩) := by
  have hcr : (chunked ⟨.trailerStart, 0, true⟩).Takes (framing [0x0D])
      (chunked ⟨.endLf, 0, true⟩) := takes_step (by simp) (by simp) rfl
  have hlf : (chunked ⟨.endLf, 0, true⟩).Takes (framing [0x0A]) (chunked ⟨.done, 0, true⟩) :=
    takes_step (by simp) (by simp) rfl
  rw [Coded.marked, framing_append]
  exact (takes_chunks c.chunks).trans ((takes_closing c.last c.lines).trans (hcr.trans hlf))

/-! ### Where the decoder is within a body -/

/-- What stands behind the last whole chunk when the decoder is in some state. -/
inductive Tail : Decoder → List Marked → Prop
  | start : Tail ⟨.size, 0, false⟩ []
  | digits {digits : Bytes} {n : Nat} : SpellsHex digits n → n < 2 ^ 64 →
      Tail ⟨.size, n, true⟩ (framing digits)
  | blanks {digits blanks : Bytes} {n : Nat} : SpellsHex digits n → n < 2 ^ 64 →
      (∀ b ∈ blanks, isBlank b) → Tail ⟨.sizeBlank, n, true⟩ (framing (digits ++ blanks))
  | ext {digits blanks ext : Bytes} {n : Nat} : SpellsHex digits n → n < 2 ^ 64 →
      (∀ b ∈ blanks, isBlank b) → IsPlain ext →
      Tail ⟨.ext, n, true⟩ (framing (digits ++ blanks ++ 0x3B :: ext))
  | sizeLf {n : Nat} (line : SizeLine n) :
      Tail ⟨.sizeLf, n, true⟩ (framing (line.text ++ [0x0D]))
  | data {n : Nat} (line : SizeLine n) (got : Bytes) : got.length < n →
      Tail ⟨.data, n - got.length, true⟩ (framing (line.text ++ crlf) ++ payload got)
  | dataCr (c : Chunk) :
      Tail ⟨.dataCr, 0, true⟩ (framing (c.line.text ++ crlf) ++ payload c.data)
  | dataLf (c : Chunk) : Tail ⟨.dataLf, 0, true⟩
      (framing (c.line.text ++ crlf) ++ payload c.data ++ framing [0x0D])
  | trailerStart (last : SizeLine 0) (trailer : List Bytes) :
      (∀ line ∈ trailer, line ≠ [] ∧ IsPlain line) →
      Tail ⟨.trailerStart, 0, true⟩ (framing (Coded.closing last trailer))
  | trailer (last : SizeLine 0) (trailer : List Bytes) (line : Bytes) :
      (∀ line ∈ trailer, line ≠ [] ∧ IsPlain line) → line ≠ [] → IsPlain line →
      Tail ⟨.trailer, 0, true⟩ (framing (Coded.closing last trailer ++ line))
  | trailerLf (last : SizeLine 0) (trailer : List Bytes) (line : Bytes) :
      (∀ line ∈ trailer, line ≠ [] ∧ IsPlain line) → line ≠ [] → IsPlain line →
      Tail ⟨.trailerLf, 0, true⟩ (framing (Coded.closing last trailer ++ line ++ [0x0D]))
  | endLf (last : SizeLine 0) (trailer : List Bytes) :
      (∀ line ∈ trailer, line ≠ [] ∧ IsPlain line) →
      Tail ⟨.endLf, 0, true⟩ (framing (Coded.closing last trailer ++ [0x0D]))
  | done (last : SizeLine 0) (trailer : List Bytes) :
      (∀ line ∈ trailer, line ≠ [] ∧ IsPlain line) →
      Tail ⟨.done, 0, true⟩ (framing (Coded.closing last trailer ++ crlf))

/-- Some whole chunks, and a part of what comes next. -/
def Within (d : Decoder) (ms : List Marked) : Prop :=
  ∃ chunks : List Chunk, ∃ tail, ms = chunks.flatMap Chunk.marked ++ tail ∧ Tail d tail

/-- A size line ends, or goes on behind the size. -/
theorem within_afterSize {digits blanks : Bytes} {n : Nat} {s : State} {d : Decoder} {b : UInt8}
    (hspells : SpellsHex digits n) (hfits : n < 2 ^ 64) (hblanks : ∀ b ∈ blanks, isBlank b)
    (h : Decoder.afterSize ⟨s, n, true⟩ b = .ok d) :
    Tail d (framing (digits ++ blanks) ++ [(b, false)]) := by
  have hone : framing (digits ++ blanks) ++ [(b, false)] = framing (digits ++ blanks ++ [b]) := by
    simp [framing]
  rw [hone]
  unfold Decoder.afterSize at h
  split at h
  · rename_i hb
    cases h
    rw [List.append_assoc]
    exact .blanks hspells hfits fun x hx => (List.mem_append.1 hx).elim (hblanks x) fun hx =>
      (List.mem_singleton.1 hx).symm ▸ hb
  · split at h
    · rename_i hb
      cases h
      subst hb
      exact .ext hspells hfits hblanks (by simp [IsPlain])
    · split at h
      · rename_i hb
        cases h
        subst hb
        have hline := Tail.sizeLf ⟨digits, blanks, none, hspells, hfits, hblanks, plain_none⟩
        simpa [SizeLine.text, extension] using hline
      · cases h

theorem Tail.within {d : Decoder} {tail : List Marked} (h : Tail d tail) : Within d tail :=
  ⟨[], tail, rfl, h⟩

/-- A line end byte that had to come next. -/
theorem of_expect {d next d' : Decoder} {wanted b : UInt8} (h : d.expect wanted b next = .ok d') :
    b = wanted ∧ d' = next := by
  unfold Decoder.expect at h
  split at h
  · cases h
    exact ⟨‹_›, rfl⟩
  · cases h

theorem isPlain_snoc {bs : Bytes} {b : UInt8} (h : IsPlain bs) (hcr : b ≠ 0x0D) (hlf : b ≠ 0x0A) :
    IsPlain (bs ++ [b]) := fun x hx =>
  (List.mem_append.1 hx).elim (h x) fun hx => List.mem_singleton.1 hx ▸ ⟨hcr, hlf⟩

/-- One more byte of framing is one that the grammar has there. -/
theorem Tail.step {d d' : Decoder} {tail : List Marked} {b : UInt8} (h : Tail d tail)
    (hdata : d.state ≠ .data) (hstep : d.step b = .ok d') : Within d' (tail ++ framing [b]) := by
  cases h with
  | start =>
    simp only [Decoder.step] at hstep
    cases hb : hexDigit? b with
    | none => simp [hb] at hstep
    | some value =>
      simp only [hb, Decoder.digit] at hstep
      split at hstep
      · rename_i hfits
        cases hstep
        have hspells := SpellsHex.single (hexDigit?_eq_some_iff.1 hb)
        rw [Nat.zero_mul, Nat.zero_add] at hfits ⊢
        exact (Tail.digits hspells hfits).within
      · cases hstep
  | @digits digits n hspells hfits =>
    simp only [Decoder.step] at hstep
    cases hb : hexDigit? b with
    | none =>
      simp only [hb, if_true] at hstep
      have hnext := within_afterSize hspells hfits blank_nil hstep
      rw [List.append_nil] at hnext
      exact hnext.within
    | some value =>
      simp only [hb, Decoder.digit] at hstep
      split at hstep
      · rename_i hfits'
        cases hstep
        rw [← framing_append]
        exact (Tail.digits (hspells.snoc (hexDigit?_eq_some_iff.1 hb)) hfits').within
      · cases hstep
  | blanks hspells hfits hblanks => exact (within_afterSize hspells hfits hblanks hstep).within
  | @ext digits blanks ext n hspells hfits hblanks hplain =>
    simp only [Decoder.step] at hstep
    rw [← framing_append]
    split at hstep
    · rename_i hcr
      cases hstep
      subst hcr
      exact (Tail.sizeLf ⟨digits, blanks, some ext, hspells, hfits, hblanks,
        fun bs hbs => Option.mem_some_iff.1 hbs ▸ hplain⟩).within
    · split at hstep
      · cases hstep
      · cases hstep
        rw [List.append_assoc, List.cons_append]
        exact (Tail.ext hspells hfits hblanks (isPlain_snoc hplain ‹_› ‹_›)).within
  | @sizeLf n line =>
    obtain ⟨rfl, rfl⟩ := of_expect hstep
    rw [← framing_append, List.append_assoc]
    by_cases hzero : n = 0
    · subst hzero
      have hlast := Tail.trailerStart line [] (by simp)
      rw [Coded.closing, List.flatMap_nil, List.append_nil] at hlast
      exact hlast.within
    · simp only [hzero, if_false]
      have hopen := Tail.data line [] (Nat.pos_of_ne_zero hzero)
      rw [payload, List.map_nil, List.append_nil] at hopen
      exact hopen.within
  | data => exact absurd rfl hdata
  | dataCr c =>
    obtain ⟨rfl, rfl⟩ := of_expect hstep
    exact (Tail.dataLf c).within
  | dataLf c =>
    obtain ⟨rfl, rfl⟩ := of_expect hstep
    refine ⟨[c], [], ?_, .start⟩
    simp [Chunk.marked, crlf, framing]
  | trailerStart last trailer hlines =>
    simp only [Decoder.step] at hstep
    rw [← framing_append]
    split at hstep
    · rename_i hcr
      cases hstep
      subst hcr
      exact (Tail.endLf last trailer hlines).within
    · split at hstep
      · cases hstep
      · cases hstep
        exact (Tail.trailer last trailer [b] hlines (by simp)
          (isPlain_snoc (show IsPlain [] by simp [IsPlain]) ‹_› ‹_›)).within
  | trailer last trailer line hlines hne hplain =>
    simp only [Decoder.step] at hstep
    rw [← framing_append]
    split at hstep
    · rename_i hcr
      cases hstep
      subst hcr
      exact (Tail.trailerLf last trailer line hlines hne hplain).within
    · split at hstep
      · cases hstep
      · cases hstep
        rw [List.append_assoc]
        exact (Tail.trailer last trailer _ hlines (by simp) (isPlain_snoc hplain ‹_› ‹_›)).within
  | trailerLf last trailer line hlines hne hplain =>
    obtain ⟨rfl, rfl⟩ := of_expect hstep
    have hlines' : ∀ l ∈ trailer ++ [line], l ≠ [] ∧ IsPlain l := fun l hl =>
      (List.mem_append.1 hl).elim (hlines l) fun hl => List.mem_singleton.1 hl ▸ ⟨hne, hplain⟩
    have hnext := Tail.trailerStart last (trailer ++ [line]) hlines'
    have hsame : Coded.closing last trailer ++ line ++ [0x0D] ++ [0x0A] =
        Coded.closing last (trailer ++ [line]) := by
      simp [Coded.closing, crlf]
    rw [← framing_append, hsame]
    exact hnext.within
  | endLf last trailer hlines =>
    obtain ⟨rfl, rfl⟩ := of_expect hstep
    rw [← framing_append, List.append_assoc]
    exact (Tail.done last trailer hlines).within
  | done => cases hstep

/-- One more byte of data. -/
theorem Tail.count {d : Decoder} {tail : List Marked} {b : UInt8} (h : Tail d tail)
    (hdata : d.state = .data) : Within (d.count 1) (tail ++ payload [b]) := by
  cases h with
  | @data n line got hgot =>
    rw [List.append_assoc, ← payload_append]
    by_cases hlast : n - got.length = 1
    · have hn : n = (got ++ [b]).length := by
        rw [List.length_append, List.length_singleton]
        omega
      subst hn
      simp only [Decoder.count, hlast, if_true, Nat.sub_self]
      exact (Tail.dataCr ⟨got ++ [b], line, by simp⟩).within
    · simp only [Decoder.count, hlast, if_false, Nat.sub_sub]
      have hmore := Tail.data line (got ++ [b]) (by
        rw [List.length_append, List.length_singleton]
        omega)
      rw [List.length_append] at hmore
      exact hmore.within
  | _ => cases hdata

open BodyDecoder in
/-- However far the decoder comes, it is at some place of the grammar. -/
theorem Within.takes {d : Decoder} {front ms : List Marked} {c : BodyDecoder}
    (h : Within d front) (htakes : (chunked d).Takes ms c) :
    ∃ d', c = chunked d' ∧ Within d' (front ++ ms) := by
  induction ms generalizing d front with
  | nil =>
    cases htakes
    exact ⟨d, rfl, by rwa [List.append_nil]⟩
  | cons m ms ih =>
    cases htakes with
    | @cons _ next _ x isData _ hopen hadvance hrest =>
      have hsplit : front ++ (x, isData) :: ms = front ++ [(x, isData)] ++ ms := by simp
      rw [hsplit]
      obtain ⟨chunks, tail, rfl, htail⟩ := h
      have hwithin {d' : Decoder} {more : List Marked} (hnext : Within d' (tail ++ more)) :
          Within d' (chunks.flatMap Chunk.marked ++ tail ++ more) := by
        obtain ⟨chunks', tail', hsame, htail'⟩ := hnext
        exact ⟨chunks ++ chunks', tail', by simp [hsame], htail'⟩
      simp only [advance] at hadvance
      by_cases hdata : d.state = .data
      · rw [if_pos hdata] at hadvance
        cases hadvance
        exact ih (hwithin (htail.count hdata)) hrest
      · rw [if_neg hdata] at hadvance
        cases hstep : d.step x with
        | error fault =>
          rw [hstep] at hadvance
          cases hadvance
        | ok d' =>
          rw [hstep] at hadvance
          cases hadvance
          exact ih (hwithin (htail.step hdata hstep)) hrest

/-! ### Every place can be completed -/

/-- The line `0`. -/
def zeroLine : SizeLine 0 where
  digits := [0x30]
  blanks := []
  ext := none
  spells := .single (hexDigit?_eq_some_iff.1 rfl)
  fits := by decide
  blank := blank_nil
  plain := plain_none

/-- The body of these chunks, with the shortest end. -/
def Coded.ofChunks (chunks : List Chunk) : Coded := ⟨chunks, zeroLine, [], by simp⟩

theorem SizeLine.completes {n : Nat} (line : SizeLine n) :
    ∃ c : Coded, framing (line.text ++ crlf) <+: c.marked := by
  obtain ⟨data, rfl⟩ : ∃ data : Bytes, data.length = n := ⟨.replicate n 0, by simp⟩
  by_cases hnone : data = []
  · subst hnone
    refine ⟨⟨[], line, [], by simp⟩, framing crlf, ?_⟩
    simp [Coded.marked, Coded.closing]
  · refine ⟨.ofChunks [⟨data, line, hnone⟩], ?_⟩
    simp only [Coded.ofChunks, Coded.marked, Chunk.marked, List.flatMap_cons, List.append_assoc]
    exact List.prefix_append _ _

/-- A chunk that is there in part can be completed. -/
theorem Chunk.completes (c : Chunk) {ms : List Marked} (h : ms <+: c.marked) :
    ∃ body : Coded, ms <+: body.marked := by
  refine ⟨.ofChunks [c], h.trans ?_⟩
  simp only [Coded.ofChunks, Coded.marked, List.flatMap_cons, List.append_assoc]
  exact List.prefix_append _ _

theorem prefix_framing {xs ys : Bytes} (h : xs <+: ys) : framing xs <+: framing ys := h.map _

/-- So can the trailer. -/
theorem completes_closing (last : SizeLine 0) (trailer : List Bytes)
    (hlines : ∀ line ∈ trailer, line ≠ [] ∧ IsPlain line) {bs : Bytes}
    (h : bs <+: Coded.closing last trailer ++ crlf) :
    ∃ body : Coded, framing bs <+: body.marked :=
  ⟨⟨[], last, trailer, hlines⟩, prefix_framing h⟩

theorem Tail.completes {d : Decoder} {tail : List Marked} (h : Tail d tail) :
    ∃ body : Coded, tail <+: body.marked := by
  cases h with
  | start => exact ⟨.ofChunks [], List.nil_prefix⟩
  | @digits digits n hspells hfits =>
    obtain ⟨body, hbody⟩ :=
      (SizeLine.mk digits [] none hspells hfits blank_nil plain_none).completes
    refine ⟨body, (prefix_framing ?_).trans hbody⟩
    simp [SizeLine.text]
  | @blanks digits blanks n hspells hfits hblanks =>
    obtain ⟨body, hbody⟩ :=
      (SizeLine.mk digits blanks none hspells hfits hblanks plain_none).completes
    refine ⟨body, (prefix_framing ?_).trans hbody⟩
    simp [SizeLine.text]
  | @ext digits blanks ext n hspells hfits hblanks hplain =>
    obtain ⟨body, hbody⟩ := (SizeLine.mk digits blanks (some ext) hspells hfits hblanks
      fun bs hbs => Option.mem_some_iff.1 hbs ▸ hplain).completes
    refine ⟨body, (prefix_framing ?_).trans hbody⟩
    exact List.prefix_append _ _
  | @sizeLf n line =>
    obtain ⟨body, hbody⟩ := line.completes
    exact ⟨body, (prefix_framing ⟨[0x0A], by simp [crlf]⟩).trans hbody⟩
  | @data n line got hgot =>
    -- any bytes will do for the data that is missing
    obtain ⟨more, hn⟩ : ∃ more : Bytes, n = (got ++ more).length :=
      ⟨.replicate (n - got.length) 0, by rw [List.length_append, List.length_replicate]; omega⟩
    subst hn
    refine Chunk.completes ⟨got ++ more, line, ?_⟩ ?_
    · rintro hnone
      simp [hnone] at hgot
    · simp only [Chunk.marked, payload_append, ← List.append_assoc]
      rw [List.append_assoc]
      exact List.prefix_append _ _
  | dataCr c => exact c.completes (List.prefix_append _ _)
  | dataLf c =>
    refine c.completes ⟨framing [0x0A], ?_⟩
    simp [Chunk.marked, framing, crlf]
  | trailerStart last trailer hlines =>
    exact completes_closing last trailer hlines (List.prefix_append _ _)
  | trailer last trailer line hlines hne hplain =>
    refine completes_closing last (trailer ++ [line])
      (List.forall_mem_append.2 ⟨hlines, by simp [hne, hplain]⟩) ⟨crlf ++ crlf, ?_⟩
    simp [Coded.closing]
  | trailerLf last trailer line hlines hne hplain =>
    refine completes_closing last (trailer ++ [line])
      (List.forall_mem_append.2 ⟨hlines, by simp [hne, hplain]⟩) ⟨0x0A :: crlf, ?_⟩
    simp [Coded.closing, crlf]
  | endLf last trailer hlines =>
    exact completes_closing last trailer hlines ⟨[0x0A], by simp [crlf]⟩
  | done last trailer hlines =>
    exact completes_closing last trailer hlines (List.prefix_refl _)

theorem Within.completes {d : Decoder} {ms : List Marked} (h : Within d ms) :
    ∃ body : Coded, ms <+: body.marked := by
  obtain ⟨chunks, tail, rfl, htail⟩ := h
  obtain ⟨body, more, hmore⟩ := htail.completes
  refine ⟨⟨chunks ++ body.chunks, body.last, body.trailer, body.lines⟩, more, ?_⟩
  have hsame : Coded.marked ⟨chunks ++ body.chunks, body.last, body.trailer, body.lines⟩ =
      chunks.flatMap Chunk.marked ++ body.marked := by
    simp [Coded.marked]
  rw [hsame, ← hmore, List.append_assoc]

/-- At the end of the coding, a body of the grammar is there. -/
theorem Within.whole {d : Decoder} {ms : List Marked} (h : Within d ms) (hdone : d.state = .done) :
    ∃ body : Coded, ms = body.marked := by
  obtain ⟨chunks, tail, rfl, htail⟩ := h
  cases htail with
  | done last trailer hlines => exact ⟨⟨chunks, last, trailer, hlines⟩, rfl⟩
  | _ => cases hdone

open BodyDecoder in
theorem within_of_takes {ms : List Marked} {c : BodyDecoder} (h : (chunked {}).Takes ms c) :
    ∃ d, c = chunked d ∧ Within d ms :=
  (Tail.start.within).takes h

/-! ### What is made of any input -/

/-- The pieces come to `data` together. -/
def Gives (items : List BodyItem) (data : Bytes) : Prop :=
  ∃ chunks : List Bytes, items = chunks.map .chunk ∧ chunks.flatten = data

section Reads

open BodyDecoder

variable {src left : Bytes} {d : BodyDecoder} {items : List BodyItem} {error : Option RequestError}

theorem whole_iff (h : (chunked {}).Reads src (d, left, items, error)) (data rest : Bytes) :
    (error = none ∧ left = rest ∧ ∃ front, items = front ++ [.eof] ∧ Gives front data) ↔
      ∃ body : Coded, src = body.wire ++ rest ∧ body.data = data := by
  constructor
  · rintro ⟨rfl, rfl, front, rfl, chunks, rfl, rfl⟩
    generalize hitems : chunks.map BodyItem.chunk ++ [.eof] = items at h
    cases h with
    | whole ms _ _ chunks' htakes hended hchunks hsrc =>
      obtain ⟨d', rfl, hwithin⟩ := within_of_takes htakes
      obtain ⟨body, rfl⟩ := hwithin.whole (of_decide_eq_true hended)
      have hsame : chunks = chunks' := List.map_injective_iff.2
        (fun _ _ => BodyItem.chunk.inj) (List.append_cancel_right hitems)
      exact ⟨body, by rw [hsrc, body.bytes_marked], by rw [hsame, hchunks, body.data_marked]⟩
    | part ms _ chunks' =>
      have heof : BodyItem.eof ∈ chunks'.map BodyItem.chunk := hitems ▸ by simp
      simp at heof
  · rintro ⟨body, hsrc, rfl⟩
    obtain ⟨chunks, hr, hchunks⟩ := h.whole_of_takes body.takes rfl
      (show src = bytes body.marked ++ rest by rw [hsrc, body.bytes_marked])
    cases hr
    exact ⟨rfl, rfl, _, rfl, chunks, rfl, by rw [hchunks, body.data_marked]⟩

theorem part_iff (h : (chunked {}).Reads src (d, left, items, error)) :
    (error = none ∧ .eof ∉ items) ↔ ∃ body : Coded, src <+: body.wire ∧ src ≠ body.wire := by
  constructor
  · rintro ⟨rfl, heof⟩
    have hread := h
    cases h with
    | whole => simp at heof
    | part ms _ chunks htakes hopen hchunks hsrc =>
      obtain ⟨d', rfl, hwithin⟩ := within_of_takes htakes
      obtain ⟨body, more, hmore⟩ := hwithin.completes
      refine ⟨body, ?_, fun hwhole => ?_⟩
      · rw [hsrc, ← body.bytes_marked, ← hmore, bytes_append]
        exact List.prefix_append _ _
      · -- a body that is there in full would have been read to its end
        obtain ⟨_, hr, -⟩ := hread.whole_of_takes body.takes rfl
          (show src = bytes body.marked ++ [] by rw [hwhole, body.bytes_marked, List.append_nil])
        simp only [Prod.mk.injEq] at hr
        exact heof (hr.2.2.1 ▸ by simp)
  · rintro ⟨body, ⟨more, hmore⟩, hproper⟩
    obtain ⟨d', chunks, hr⟩ := h.part_of_takes body.takes (body.bytes_marked.trans hmore.symm)
      (fun hnone => hproper (by rw [← hmore, hnone, List.append_nil]))
    cases hr
    exact ⟨rfl, by simp⟩

/-- A fault is found at the first byte with which no body goes on. -/
theorem of_broken (h : (chunked {}).Reads src (d, left, items, error)) (herror : error ≠ none) :
    ∃ body : Coded, ∃ n x more, src = bytes (body.marked.take n) ++ x :: more ∧
      Gives items (Marked.data (body.marked.take n)) ∧
      ∀ other : Coded, ¬ bytes (body.marked.take n) ++ [x] <+: other.wire := by
  cases h with
  | whole => exact absurd rfl herror
  | part => exact absurd rfl herror
  | broken ms _ x _ e chunks htakes hopen hfault hchunks hsrc =>
    obtain ⟨d', rfl, hwithin⟩ := within_of_takes htakes
    obtain ⟨body, hbody⟩ := hwithin.completes
    have htake : body.marked.take ms.length = ms := (List.prefix_iff_eq_take.1 hbody).symm
    refine ⟨body, ms.length, x, left, ?_, ?_, ?_⟩ <;> rw [htake]
    · exact hsrc
    · exact ⟨chunks, rfl, hchunks⟩
    · rintro other ⟨more, hmore⟩
      rw [List.append_assoc, List.singleton_append] at hmore
      obtain ⟨-, _, hok⟩ := htakes.next other.takes x more []
        (by rw [hmore, List.append_nil, other.bytes_marked]) (Nat.zero_le _)
      rw [hfault] at hok
      cases hok

/-- Nothing else is refused. -/
theorem broken_iff (h : (chunked {}).Reads src (d, left, items, error)) : error ≠ none ↔
    (¬ ∃ body : Coded, ∃ rest, src = body.wire ++ rest) ∧ ¬ ∃ body : Coded, src <+: body.wire := by
  constructor
  · refine fun herror => ⟨?_, ?_⟩
    · rintro ⟨body, rest, hsrc⟩
      exact herror ((whole_iff h body.data rest).2 ⟨body, hsrc, rfl⟩).1
    · rintro ⟨body, hprefix⟩
      by_cases hwhole : src = body.wire
      · exact herror ((whole_iff h body.data []).2
          ⟨body, by rw [hwhole, List.append_nil], rfl⟩).1
      · exact herror ((part_iff h).2 ⟨body, hprefix, hwhole⟩).1
  · rintro ⟨hwhole, hpart⟩ rfl
    by_cases heof : BodyItem.eof ∈ items
    · cases h with
      | whole ms _ _ chunks htakes hended hchunks hsrc =>
        obtain ⟨body, hbody, -⟩ := (whole_iff (.whole ms d left chunks htakes hended hchunks hsrc)
          chunks.flatten left).1 ⟨rfl, rfl, _, rfl, chunks, rfl, rfl⟩
        exact hwhole ⟨body, left, hbody⟩
      | part => simp at heof
    · obtain ⟨body, hprefix, -⟩ := (part_iff h).1 ⟨rfl, heof⟩
      exact hpart ⟨body, hprefix⟩

end Reads

open BodyDecoder in
/-- A body of the grammar is read back, however it is cut, and no byte behind it is taken. -/
theorem Coded.read_back (body : Coded) {pieces : List Bytes} {rest : Bytes}
    (h : pieces.flatten = body.wire ++ rest) : ∃ d, ∃ chunks : List Bytes,
      readPieces (.chunked {}) [] pieces = (d, rest, chunks.map .chunk ++ [.eof], none) ∧
      chunks.flatten = body.data := by
  have hreads := reads_readPieces (fed_ofSize .chunked) rfl pieces
  obtain ⟨chunks, hr, hchunks⟩ := hreads.whole_of_takes body.takes rfl
    (show pieces.flatten = bytes body.marked ++ rest by rw [h, body.bytes_marked])
  exact ⟨_, chunks, hr, by rw [hchunks, body.data_marked]⟩

open BodyDecoder in
/-- However its input is cut, the decoder reads the bodies of the grammar and nothing else. It hands
out the data of a body and its end if the input starts with one, and takes no byte behind it; it
waits for more if the input is the start of one; and it refuses all other input, at the first byte
with which no body goes on, when it has handed out the data in front of that byte. -/
theorem decoder_reads_grammar (pieces : List Bytes) :
    ∃ d left items error, readPieces (.chunked {}) [] pieces = (d, left, items, error) ∧
      (∀ data rest,
        (error = none ∧ left = rest ∧ ∃ front, items = front ++ [.eof] ∧ Gives front data) ↔
          ∃ body : Coded, pieces.flatten = body.wire ++ rest ∧ body.data = data) ∧
      ((error = none ∧ .eof ∉ items) ↔
        ∃ body : Coded, pieces.flatten <+: body.wire ∧ pieces.flatten ≠ body.wire) ∧
      (error ≠ none ↔ (¬ ∃ body : Coded, ∃ rest, pieces.flatten = body.wire ++ rest) ∧
        ¬ ∃ body : Coded, pieces.flatten <+: body.wire) ∧
      (error ≠ none → ∃ body : Coded, ∃ n x more,
        pieces.flatten = bytes (body.marked.take n) ++ x :: more ∧
        Gives items (Marked.data (body.marked.take n)) ∧
        ∀ other : Coded, ¬ bytes (body.marked.take n) ++ [x] <+: other.wire) := by
  have hreads := reads_readPieces (fed_ofSize .chunked) rfl pieces
  rcases hr : readPieces (.chunked {}) [] pieces with ⟨d, left, items, error⟩
  rw [ofSize, hr] at hreads
  exact ⟨d, left, items, error, rfl, whole_iff hreads, part_iff hreads, broken_iff hreads,
    of_broken hreads⟩

end WireServer.Http.Chunked
