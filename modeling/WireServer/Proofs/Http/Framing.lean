import Mathlib.Data.Nat.Digits.Defs
import WireServer.Proofs.Http.HeadLines

/-! What decides the framing of a body. The decoder looks at one line of each kind only: the first
`Content-Length` line, of which it takes a plus sign too, and the first `Transfer-Encoding` line.
Later lines are not read, so a head whose lines disagree is framed by the first of them. -/

namespace WireServer.Http

open HeadDecoder

def contentLength : Bytes := fieldName "content-length"

def transferEncoding : Bytes := fieldName "transfer-encoding"

/-! ### Lengths -/

/-- One or more decimal digits, which spell the number. -/
def Spells (digits : Bytes) (n : Nat) : Prop :=
  digits ≠ [] ∧ (∀ b ∈ digits, isDigit b) ∧
    Nat.ofDigits 10 (digits.reverse.map fun b => b.toNat - 48) = n

/-- The same with a plus sign in front, perhaps. -/
def SpellsSigned (text : Bytes) (n : Nat) : Prop :=
  ∃ digits, Spells digits n ∧ (text = digits ∨ text = 0x2B :: digits)

theorem Spells.unique {digits : Bytes} {n m : Nat} (hn : Spells digits n) (hm : Spells digits m) :
    n = m :=
  hn.2.2.symm.trans hm.2.2

theorem Spells.signed {digits : Bytes} {n : Nat} (h : Spells digits n) : SpellsSigned digits n :=
  ⟨digits, h, .inl rfl⟩

/-- A plus sign is no digit. -/
theorem SpellsSigned.of_spells {text : Bytes} {n m : Nat} (h : SpellsSigned text n)
    (hm : Spells text m) : n = m := by
  obtain ⟨digits, hn, rfl | rfl⟩ := h
  · exact hn.unique hm
  · have := hm.2.1 0x2B (by simp)
    simp [isDigit] at this

theorem SpellsSigned.unique {text : Bytes} {n m : Nat} (hn : SpellsSigned text n)
    (hm : SpellsSigned text m) : n = m := by
  obtain ⟨digits, hm, rfl | rfl⟩ := hm
  · exact hn.of_spells hm
  obtain ⟨others, hn, rfl | heq⟩ := hn
  · exact (SpellsSigned.of_spells ⟨digits, hm, .inr rfl⟩ hn).symm
  · cases heq
    exact hn.unique hm

theorem foldl_digits (digits : Bytes) :
    digits.foldl (fun n b => n * 10 + (b.toNat - 48)) 0 =
      Nat.ofDigits 10 (digits.reverse.map fun b => b.toNat - 48) := by
  rw [Nat.ofDigits_eq_foldr, List.foldr_map, List.foldr_reverse]
  congr 1
  funext n b
  rw [Nat.mul_comm, Nat.add_comm]
  rfl

theorem BodySize.decimal?_eq_some_iff {text : Bytes} {n : Nat} :
    decimal? text = some n ↔ n < 2 ^ 64 ∧ SpellsSigned text n := by
  have hdigits (digits : Bytes) :
      (if digits.isEmpty || !digits.all isDigit then none
        else if digits.foldl (fun n b => n * 10 + (b.toNat - 48)) 0 < UInt64.size then
          some (digits.foldl (fun n b => n * 10 + (b.toNat - 48)) 0) else none) = some n ↔
        n < 2 ^ 64 ∧ Spells digits n := by
    rw [foldl_digits]
    by_cases hbad : digits.isEmpty || !digits.all isDigit
    · rw [if_pos hbad]
      simp only [reduceCtorEq, false_iff, not_and]
      intro _ hspells
      simp [hspells.1] at hbad
      obtain ⟨b, hb, hno⟩ := hbad
      simp [hspells.2.1 b hb] at hno
    · rw [if_neg hbad]
      simp only [Bool.or_eq_true, List.isEmpty_iff, Bool.not_eq_true', not_or,
        Bool.not_eq_false, List.all_eq_true] at hbad
      rw [Option.ite_none_right_eq_some, Option.some.injEq]
      constructor
      · rintro ⟨hlt, rfl⟩
        exact ⟨hlt, hbad.1, hbad.2, rfl⟩
      · rintro ⟨hlt, -, -, rfl⟩
        exact ⟨hlt, rfl⟩
  unfold decimal?
  simp only
  split
  · rename_i digits
    rw [hdigits]
    refine and_congr_right fun _ => ⟨fun h => ⟨digits, h, .inr rfl⟩, ?_⟩
    rintro ⟨other, hother, rfl | heq⟩
    · have := hother.2.1 0x2B (by simp)
      simp [isDigit] at this
    · cases heq
      exact hother
  · rename_i hplus
    rw [hdigits]
    refine and_congr_right fun _ => ⟨Spells.signed, ?_⟩
    rintro ⟨digits, h, rfl | rfl⟩
    · exact h
    · exact absurd rfl (hplus digits)

theorem mem_trim_or (cls : UInt8 → Bool) {bs : Bytes} {b : UInt8} (h : b ∈ bs) :
    cls b ∨ b ∈ trim cls bs := by
  have hfront (l : Bytes) (hl : b ∈ l) : cls b ∨ b ∈ l.dropWhile cls := by
    rw [← List.takeWhile_append_dropWhile (p := cls) (l := l), List.mem_append] at hl
    exact hl.imp_left fun hb => List.all_eq_true.1 List.all_takeWhile b hb
  rw [trim, List.mem_reverse]
  rcases hfront bs h with hcls | hmem
  · exact .inl hcls
  · exact hfront _ (List.mem_reverse.2 hmem)

/-- A value that spells a number shows all of its bytes. -/
theorem SpellsSigned.visible {value : Bytes} {n : Nat} (h : SpellsSigned (trim isBlank value) n) :
    value.all isVisible := by
  have hblank (b : UInt8) (hb : isBlank b) : isVisible b := by
    simp only [isBlank, Bool.or_eq_true, decide_eq_true_eq] at hb
    rcases hb with rfl | rfl <;> rfl
  have hdigit (b : UInt8) (hb : isDigit b) : isVisible b := by
    simp only [isDigit, isVisible, Bool.or_eq_true, Bool.and_eq_true, decide_eq_true_eq,
      UInt8.le_iff_toNat_le] at hb ⊢
    simp only [UInt8.reduceToNat] at hb ⊢
    omega
  obtain ⟨digits, hspells, htext⟩ := h
  rw [List.all_eq_true]
  intro b hb
  rcases mem_trim_or isBlank hb with hcls | hmem
  · exact hblank b hcls
  · rcases htext with htext | htext <;> rw [htext] at hmem
    · exact hdigit b (hspells.2.1 b hmem)
    · rcases List.mem_cons.1 hmem with rfl | hmem
      · rfl
      · exact hdigit b (hspells.2.1 b hmem)

namespace HeadDecoder

variable {src rest value : Bytes} {parts : HeadGrammar.Parts} {others : List Bytes}

/-- A length and a coding together are refused. -/
theorem Reads.both (h : Reads src parts rest) (hlength : parts.values contentLength ≠ [])
    (hcoding : parts.values transferEncoding ≠ []) :
    decode src = (rest, .error (.invalidContentLength
      "transfer_encoding and content_length both present in headers")) := by
  obtain ⟨value, others, hlength⟩ := List.exists_cons_of_ne_nil hlength
  obtain ⟨coding, codings, hcoding⟩ := List.exists_cons_of_ne_nil hcoding
  refine h.refused ?_
  unfold BodySize.ofFields
  rw [Fields.get?_ofList, Fields.get?_ofList, ← transferEncoding, ← contentLength, hlength, hcoding]
  rfl

/-- Without a coding the first length counts. -/
theorem Reads.length (h : Reads src parts rest) (hcoding : parts.values transferEncoding = [])
    (hlength : parts.values contentLength = value :: others) :
    (∀ size, Frames src rest size ↔
      ∃ n < 2 ^ 64, SpellsSigned (trim isBlank value) n ∧ size = .ofLength n) ∧
    ((∀ size, ¬ Frames src rest size) →
      ∃ reason, decode src = (rest, .error (.invalidContentLength reason))) := by
  have hframing : BodySize.ofFields (.ofList parts.fields) =
      if !value.all isVisible then .error (.invalidContentLength "value can't to_str")
      else (BodySize.decimal? (trim isBlank value)).elim
        (.error (.invalidContentLength ("value " ++ Utf8.ofWellFormed value ++ " is not u64")))
        fun n => .ok (.ofLength n) := by
    unfold BodySize.ofFields
    rw [Fields.get?_ofList, Fields.get?_ofList, ← transferEncoding, ← contentLength, hlength,
      hcoding]
    dsimp only [List.head?_nil, List.head?_cons]
    cases BodySize.decimal? (trim isBlank value) <;> rfl
  refine ⟨fun size => ?_, fun hnone => ?_⟩
  · rw [h.frames_iff, hframing]
    constructor
    · intro hok
      split at hok
      · cases hok
      cases hn : BodySize.decimal? (trim isBlank value) with
      | none => simp [hn] at hok
      | some n =>
        obtain ⟨hlt, hspells⟩ := BodySize.decimal?_eq_some_iff.1 hn
        rw [hn, Option.elim_some, Except.ok.injEq] at hok
        exact ⟨n, hlt, hspells, hok.symm⟩
    · rintro ⟨n, hlt, hspells, rfl⟩
      rw [if_neg (by simp [hspells.visible]), BodySize.decimal?_eq_some_iff.2 ⟨hlt, hspells⟩,
        Option.elim_some]
  · simp only [h.frames_iff, hframing] at hnone
    split at hframing
    · exact ⟨_, h.refused hframing⟩
    rename_i hvisible
    cases hn : BodySize.decimal? (trim isBlank value) with
    | none => exact ⟨_, h.refused (hframing.trans (by rw [hn, Option.elim_none]))⟩
    | some n => exact absurd (by rw [if_neg hvisible, hn, Option.elim_some]) (hnone (.ofLength n))

/-- The first `Content-Length` line decides, whatever the others say, and it may have a plus sign.
So a head is decoded although its lines do not all spell one number in digits alone exactly if the
first of them spells a number below 2^64, perhaps with a plus sign, and one of them does not spell
that number in digits alone. -/
theorem length_of_first_line (src : Bytes) :
    (∀ rest size, Frames src rest size → ∃ parts, Reads src parts rest) ∧
    ∀ parts rest value others, Reads src parts rest →
      parts.values contentLength = value :: others →
      (∀ size, Frames src rest size ↔ parts.values transferEncoding = [] ∧
        ∃ n < 2 ^ 64, SpellsSigned (trim isBlank value) n ∧ size = .ofLength n) ∧
      ((∀ size, ¬ Frames src rest size) →
        ∃ reason, decode src = (rest, .error (.invalidContentLength reason))) ∧
      ((∃ size, Frames src rest size) ∧
          (¬ ∃ n, ∀ line ∈ value :: others, Spells (trim isBlank line) n) ↔
        parts.values transferEncoding = [] ∧
          ∃ n < 2 ^ 64, SpellsSigned (trim isBlank value) n ∧
            ∃ line ∈ value :: others, ¬ Spells (trim isBlank line) n) := by
  refine ⟨fun rest size => exists_reads, fun parts rest value others hreads hvalues => ?_⟩
  by_cases hcoding : parts.values transferEncoding = []
  · obtain ⟨hframes, hrefused⟩ := hreads.length hcoding hvalues
    refine ⟨fun size => by rw [hframes]; simp [hcoding], hrefused, ?_⟩
    constructor
    · rintro ⟨⟨size, hsize⟩, hmixed⟩
      obtain ⟨n, hn, hspells, -⟩ := (hframes size).1 hsize
      refine ⟨hcoding, n, hn, hspells, ?_⟩
      by_contra hall
      exact hmixed ⟨n, by simpa using hall⟩
    · rintro ⟨-, n, hn, hspells, line, hline, hother⟩
      refine ⟨⟨_, (hframes _).2 ⟨n, hn, hspells, rfl⟩⟩, ?_⟩
      rintro ⟨m, hall⟩
      have hsame : n = m := hspells.of_spells (hall value (by simp))
      exact hother (hsame ▸ hall line hline)
  · have hrefused := hreads.both (by simp [hvalues]) hcoding
    have hnone (size : BodySize) : ¬ Frames src rest size := by
      rintro ⟨head, hhead⟩
      cases hrefused.symm.trans hhead
    refine ⟨fun size => by simp [hnone, hcoding], fun _ => ⟨_, hrefused⟩, ?_⟩
    simp [hnone, hcoding]

/-- Two lines that disagree. -/
def twoLengths : Bytes :=
  Bytes.ofString "POST / HTTP/1.1\r\nContent-Length: 5\r\nContent-Length: 6\r\n\r\n"

def twoLengthsParts : HeadGrammar.Parts where
  method := Bytes.ofString "POST"
  target := Bytes.ofString "/"
  version := .v11
  fields := [(Bytes.ofString "Content-Length", [0x35]), (Bytes.ofString "Content-Length", [0x36])]

theorem length_of_first_line_two_lengths :
    Reads twoLengths twoLengthsParts [] ∧
      twoLengthsParts.values contentLength = [[0x35], [0x36]] ∧
      Frames twoLengths [] (.length 5) ∧
      ¬ ∃ n, ∀ line ∈ [[0x35], [0x36]], Spells (trim isBlank line) n := by
  have hreads : Reads twoLengths twoLengthsParts [] :=
    ⟨by decide +kernel, by decide +kernel, by decide +kernel⟩
  have hvalues : twoLengthsParts.values contentLength = [[0x35], [0x36]] := by decide +kernel
  have hcoding : twoLengthsParts.values transferEncoding = [] := by decide +kernel
  have hfive : Spells (trim isBlank [0x35]) 5 :=
    ⟨by decide +kernel, by decide +kernel, by decide +kernel⟩
  have hsix : Spells (trim isBlank [0x36]) 6 :=
    ⟨by decide +kernel, by decide +kernel, by decide +kernel⟩
  obtain ⟨hframes, -, hmixed⟩ := (length_of_first_line twoLengths).2 _ _ _ _ hreads hvalues
  refine ⟨hreads, hvalues, (hframes _).2 ⟨hcoding, 5, by decide, hfive.signed, rfl⟩, ?_⟩
  refine (hmixed.2 ⟨hcoding, 5, by decide, hfive.signed, [0x36], by simp, fun hother => ?_⟩).2
  cases hsix.unique hother

end HeadDecoder

/-! ### Codings -/

/-- The codings that field lines list: the lines in their order, joined by commas, and taken apart
at the commas. -/
def codings (lines : List Bytes) : List Bytes := (List.intercalate [0x2C] lines).splitOn 0x2C

/-- The last of the codings is `chunked`, in any case and with any blanks around it. -/
def FinallyChunked (lines : List Bytes) : Prop :=
  ∃ coding, (codings lines).getLast? = some coding ∧
    lowercase (trim isBlank coding) = Bytes.ofString "chunked"

theorem pieces_eq_splitOnP (sep : UInt8 → Bool) (bs : Bytes) : pieces sep bs = bs.splitOnP sep := by
  induction bs with
  | nil => rfl
  | cons b bs ih =>
    rw [List.splitOnP_cons_eq_if_modifyHead, ← ih, pieces]
    rcases hbs : pieces sep bs with _ | ⟨w, ws⟩
    · exact absurd (ih.symm.trans hbs) (List.splitOnP_ne_nil sep bs)
    · rfl

/-- The last coding of several lines is the last one of the last line. -/
theorem getLast?_codings (line : Bytes) (others : List Bytes) :
    (codings (line :: others)).getLast? =
      (codings [(line :: others).getLast (List.cons_ne_nil _ _)]).getLast? := by
  induction others generalizing line with
  | nil => rfl
  | cons other others ih =>
    have hjoin : codings (line :: other :: others) =
        line.splitOn 0x2C ++ codings (other :: others) := by
      rw [codings, List.intercalate_cons_cons, List.append_assoc]
      exact List.splitOn_append_cons_self _ _
    rw [hjoin, List.getLast?_append, ih, List.getLast_cons_cons]
    exact Option.or_of_isSome (List.getLast?_isSome.2 (List.splitOnP_ne_nil _ _))

theorem finallyChunked_iff_last (line : Bytes) (others : List Bytes) :
    FinallyChunked (line :: others) ↔
      FinallyChunked [(line :: others).getLast (List.cons_ne_nil _ _)] := by
  rw [FinallyChunked, getLast?_codings, FinallyChunked]

theorem BodySize.endsChunked_iff (line : Bytes) : endsChunked line ↔ FinallyChunked [line] := by
  have hcodings : codings [line] = pieces (· = 0x2C) line := by
    rw [pieces_eq_splitOnP, codings, List.intercalate_singleton, List.splitOn]
    congr 1
  have hlower : lowercase (Bytes.ofString "chunked") = Bytes.ofString "chunked" := by
    decide +kernel
  rw [FinallyChunked, hcodings, endsChunked, sameIgnoringCase, hlower, decide_eq_true_eq]
  rcases hlast : (pieces (· = 0x2C) line).getLast? with _ | coding
  · rw [List.getLast?_eq_none_iff, pieces_eq_splitOnP] at hlast
    exact absurd hlast (List.splitOnP_ne_nil _ _)
  · simp

namespace HeadDecoder

variable {src rest line : Bytes} {parts : HeadGrammar.Parts} {others : List Bytes}

/-- Without a length the first line of codings counts. -/
theorem Reads.coding (h : Reads src parts rest) (hlength : parts.values contentLength = [])
    (hcoding : parts.values transferEncoding = line :: others) :
    (Frames src rest .chunked ↔ FinallyChunked [line]) ∧
      (¬ FinallyChunked [line] →
        decode src = (rest, .error (.unsupportedCoding (Utf8.decodeLossy line)))) := by
  have hframing : BodySize.ofFields (.ofList parts.fields) =
      if BodySize.endsChunked line then .ok .chunked
      else .error (.unsupportedCoding (Utf8.decodeLossy line)) := by
    unfold BodySize.ofFields
    rw [Fields.get?_ofList, Fields.get?_ofList, ← transferEncoding, ← contentLength, hlength,
      hcoding]
    rfl
  rw [← BodySize.endsChunked_iff, h.frames_iff]
  by_cases hends : BodySize.endsChunked line
  · rw [if_pos hends] at hframing
    exact ⟨by simp [hframing, hends], fun hno => absurd hends hno⟩
  · rw [if_neg hends] at hframing
    exact ⟨by simp [hframing, hends], fun _ => h.refused hframing⟩

/-- Without a length the first `Transfer-Encoding` line decides by its own last coding, whatever
the lines behind it list. So the answer goes by the last coding of all lines exactly if the first
and the last line either both end in `chunked` or both do not. With a length every coding is
refused. -/
theorem coding_of_first_line (h : Reads src parts rest)
    (hcoding : parts.values transferEncoding = line :: others) :
    (parts.values contentLength ≠ [] →
      decode src = (rest, .error (.invalidContentLength
        "transfer_encoding and content_length both present in headers"))) ∧
    (parts.values contentLength = [] →
      (Frames src rest .chunked ↔ FinallyChunked [line]) ∧
      (¬ FinallyChunked [line] →
        decode src = (rest, .error (.unsupportedCoding (Utf8.decodeLossy line)))) ∧
      ((Frames src rest .chunked ↔ FinallyChunked (line :: others)) ↔
        (FinallyChunked [line] ↔
          FinallyChunked [(line :: others).getLast (List.cons_ne_nil _ _)]))) := by
  refine ⟨fun hlength => h.both hlength (by simp [hcoding]), fun hlength => ?_⟩
  obtain ⟨hframes, hrefused⟩ := h.coding hlength hcoding
  refine ⟨hframes, hrefused, ?_⟩
  rw [hframes, finallyChunked_iff_last line others]

/-- `chunked` stands on the last line, behind another coding on the first. -/
def twoCodings : Bytes :=
  Bytes.ofString "POST / HTTP/1.1\r\nTransfer-Encoding: gzip\r\nTransfer-Encoding: chunked\r\n\r\n"

def twoCodingsParts : HeadGrammar.Parts where
  method := Bytes.ofString "POST"
  target := Bytes.ofString "/"
  version := .v11
  fields := [(Bytes.ofString "Transfer-Encoding", Bytes.ofString "gzip"),
    (Bytes.ofString "Transfer-Encoding", Bytes.ofString "chunked")]

theorem coding_of_first_line_two_codings :
    Reads twoCodings twoCodingsParts [] ∧
      twoCodingsParts.values transferEncoding =
        [Bytes.ofString "gzip", Bytes.ofString "chunked"] ∧
      FinallyChunked [Bytes.ofString "gzip", Bytes.ofString "chunked"] ∧
      decode twoCodings = ([], .error (.unsupportedCoding "gzip")) := by
  have hreads : Reads twoCodings twoCodingsParts [] :=
    ⟨by decide +kernel, by decide +kernel, by decide +kernel⟩
  have hvalues : twoCodingsParts.values transferEncoding =
      [Bytes.ofString "gzip", Bytes.ofString "chunked"] := by
    decide +kernel
  have hlength : twoCodingsParts.values contentLength = [] := by decide +kernel
  have hfirst : ¬ FinallyChunked [Bytes.ofString "gzip"] := by
    rw [← BodySize.endsChunked_iff]
    decide +kernel
  have hlast : FinallyChunked [Bytes.ofString "chunked"] := by
    rw [← BodySize.endsChunked_iff]
    decide +kernel
  have htext : Utf8.decodeLossy (Bytes.ofString "gzip") = "gzip" := by decide +kernel
  obtain ⟨-, hrefused, -⟩ := (coding_of_first_line hreads hvalues).2 hlength
  refine ⟨hreads, hvalues, (finallyChunked_iff_last _ _).2 hlast, ?_⟩
  rw [hrefused hfirst, htext]

end HeadDecoder

end WireServer.Http
