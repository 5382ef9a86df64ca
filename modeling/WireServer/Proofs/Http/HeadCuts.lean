import WireServer.Proofs.Http.RequestPieces

/-! Request heads that come in pieces. A decoder that is asked again with each piece, until it says
something other than that it needs more, finds the head that it would have found in all of the
input at once, and fails if it would have failed there. -/

namespace WireServer.Http.HeadDecoder

variable {src left rest p more buffer : Bytes} {found : RequestHead × BodySize} {e : RequestError}

/-! ### One call -/

/-- The bytes are one complete head: it is whole with the last of them, and not before. -/
structure Whole (front : Bytes) : Prop where
  parsed : ∃ parts, HeadGrammar.head maxFields front = .done parts []
  first : ∀ shorter, shorter <+: front → shorter ≠ front →
    HeadGrammar.head maxFields shorter = .more

theorem whole_of_done {parts : HeadGrammar.Parts}
    (h : HeadGrammar.head maxFields src = .done parts left) :
    ∃ front, src = front ++ left ∧ Whole front := by
  have hsure := HeadGrammar.sure_head maxFields
  have htaken := HeadGrammar.takes_head maxFields src parts left h
  obtain ⟨front, rfl, hfront⟩ := hsure.cut h (by omega)
  refine ⟨front, rfl, ⟨parts, hfront⟩, fun shorter hshorter hne => ?_⟩
  obtain ⟨missing, rfl⟩ := hshorter
  refine hsure.waits hfront (List.length_pos_iff.2 ?_)
  rintro rfl
  exact hne (List.append_nil _).symm

/-- What a call may say of its input: that it is short, or the start of a head; that something is
wrong, with the input as it was or with a complete head taken out; or which head it has. -/
inductive Says (src : Bytes) : Outcome → Prop
  | short : src.length < minBytes → Says src (src, .ok none)
  | start : HeadGrammar.head maxFields src = .more → src.length ≤ maxBytes →
      Says src (src, .ok none)
  | refused (e : RequestError) : Says src (src, .error e)
  | misframed {parts : HeadGrammar.Parts} {rest : Bytes} (e : RequestError) :
      HeadGrammar.head maxFields src = .done parts rest → Says src (rest, .error e)
  | found (rest : Bytes) (head : RequestHead × BodySize) : Says src (rest, .ok (some head))

theorem says_decode (src : Bytes) : Says src (decode src) := by
  unfold decode
  split
  · exact .short ‹_›
  split
  · rename_i hmore
    split
    · exact .refused _
    · exact .start hmore (Nat.not_lt.1 ‹_›)
  · exact .refused _
  · exact .refused _
  · exact .refused _
  · rename_i parts rest hdone
    dsimp only
    split
    · exact .refused _
    unfold assemble
    split
    · exact .refused _
    · dsimp only
      split
      · exact .misframed _ hdone
      · exact .found _ _

/-- A call that fails leaves the input alone, or takes a complete head out of it. -/
theorem left_of_error (h : decode src = (left, .error e)) :
    left = src ∨ ∃ front, src = front ++ left ∧ Whole front := by
  have hsays := says_decode src
  rw [h] at hsays
  cases hsays with
  | refused => exact .inl rfl
  | misframed _ hdone => exact .inr (whole_of_done hdone)

/-- Input that is not enough was not enough before. -/
theorem waits_before (h : decode (p ++ more) = (rest, .ok none)) : decode p = (p, .ok none) := by
  have hlen : p.length ≤ (p ++ more).length := by simp
  have hsays := says_decode (p ++ more)
  rw [h] at hsays
  unfold decode
  cases hsays with
  | short hshort => exact if_pos (by omega)
  | start hmore hsmall =>
    have hsure := HeadGrammar.sure_head maxFields
    have hwaits : HeadGrammar.head maxFields p = .more := by
      cases hp : HeadGrammar.head maxFields p with
      | more => rfl
      | done parts behind => cases (hsure.done hp more).symm.trans hmore
      | bad fault => cases (hsure.bad hp more).symm.trans hmore
    split
    · rfl
    · rw [hwaits]
      exact if_neg (by omega)

/-- A head that was found is found in longer input too. -/
theorem found_behind (h : decode p = (rest, .ok (some found))) (more : Bytes) :
    decode (p ++ more) = (rest ++ more, .ok (some found)) := by
  obtain ⟨front, rfl, hfront⟩ := exists_decode_append h
  rw [List.append_assoc]
  exact hfront _

/-- In a part of the input the same head is found, or it is waited for. -/
theorem found_before (h : decode (p ++ more) = (rest, .ok (some found))) :
    decode p = (p, .ok none) ∨
      ∃ left, decode p = (left, .ok (some found)) ∧ left ++ more = rest := by
  obtain ⟨front, hsplit, hfront⟩ := exists_decode_append h
  rcases Nat.lt_or_ge rest.length more.length with hshort | hlong
  · exact .inl (decode_of_shorter h hshort)
  · obtain ⟨left, rfl⟩ : front <+: p := by
      refine List.prefix_of_prefix_length_le ⟨rest, hsplit.symm⟩ (List.prefix_append p more) ?_
      have := congrArg List.length hsplit
      simp only [List.length_append] at this
      omega
    rw [List.append_assoc] at hsplit
    exact .inr ⟨left, hfront left, List.append_cancel_left hsplit⟩

/-! ### Calls with each piece -/

/-- The first answer other than that more is needed, with the pieces that did not come in by then.
Each piece is put behind what the last call left. -/
def firstAnswer (buffer : Bytes) : List Bytes → Outcome × List Bytes
  | [] => ((buffer, .ok none), [])
  | piece :: later =>
    match decode (buffer ++ piece) with
    | (left, .ok none) => firstAnswer left later
    | answer => (answer, later)

variable {piece : Bytes} {later pieces : List Bytes}

theorem firstAnswer_waits (h : decode (buffer ++ piece) = (left, .ok none)) :
    firstAnswer buffer (piece :: later) = firstAnswer (buffer ++ piece) later := by
  obtain rfl := RequestDecoder.rest_of_waiting h
  rw [firstAnswer, h]

theorem firstAnswer_found (h : decode (buffer ++ piece) = (left, .ok (some found))) :
    firstAnswer buffer (piece :: later) = ((left, .ok (some found)), later) := by
  rw [firstAnswer, h]

theorem firstAnswer_error (h : decode (buffer ++ piece) = (left, .error e)) :
    firstAnswer buffer (piece :: later) = ((left, .error e), later) := by
  rw [firstAnswer, h]

theorem firstAnswer_of_found (hbuffer : decode buffer = (buffer, .ok none))
    (h : decode (buffer ++ pieces.flatten) = (rest, .ok (some found))) :
    ∃ left later, firstAnswer buffer pieces = ((left, .ok (some found)), later) ∧
      left ++ later.flatten = rest := by
  induction pieces generalizing buffer with
  | nil =>
    rw [List.flatten_nil, List.append_nil, hbuffer] at h
    cases h
  | cons piece pieces ih =>
    rw [List.flatten_cons, ← List.append_assoc] at h
    rcases found_before h with hwaits | ⟨left, hfound, hrest⟩
    · rw [firstAnswer_waits hwaits]
      exact ih hwaits h
    · exact ⟨left, pieces, firstAnswer_found hfound, hrest⟩

theorem firstAnswer_of_waiting
    (h : decode (buffer ++ pieces.flatten) = (rest, .ok none)) :
    firstAnswer buffer pieces = ((buffer ++ pieces.flatten, .ok none), []) := by
  induction pieces generalizing buffer with
  | nil => rw [firstAnswer, List.flatten_nil, List.append_nil]
  | cons piece pieces ih =>
    rw [List.flatten_cons, ← List.append_assoc] at h ⊢
    rw [firstAnswer_waits (waits_before h)]
    exact ih h

theorem firstAnswer_of_error (hbuffer : decode buffer = (buffer, .ok none))
    (h : decode (buffer ++ pieces.flatten) = (rest, .error e)) :
    ∃ left e' later, firstAnswer buffer pieces = ((left, .error e'), later) := by
  induction pieces generalizing buffer with
  | nil =>
    rw [List.flatten_nil, List.append_nil, hbuffer] at h
    cases h
  | cons piece pieces ih =>
    rw [List.flatten_cons, ← List.append_assoc] at h
    rcases hcall : decode (buffer ++ piece) with ⟨left, e' | _ | found⟩
    · exact ⟨left, e', pieces, firstAnswer_error hcall⟩
    · obtain rfl := RequestDecoder.rest_of_waiting hcall
      rw [firstAnswer_waits hcall]
      exact ih hcall h
    · cases (found_behind hcall _).symm.trans h

/-- Input that comes in any pieces is decoded as if it came at once. If there is a head in it, that
head is the first answer, and what is left with what did not come in yet is what the one call
leaves. If more is needed in the end, more is needed all the time. If the one call fails, so does
the first call that does not ask for more, and no beginning of the input has a head. A call that
asks for more leaves the input alone; one that fails does too, or takes out just the head. -/
theorem firstAnswer_of_any_cut (pieces : List Bytes) :
    (∀ rest found, decode pieces.flatten = (rest, .ok (some found)) →
      ∃ left later, firstAnswer [] pieces = ((left, .ok (some found)), later) ∧
        left ++ later.flatten = rest) ∧
    (∀ rest, decode pieces.flatten = (rest, .ok none) →
      firstAnswer [] pieces = ((pieces.flatten, .ok none), []) ∧
        ∀ p, p <+: pieces.flatten → decode p = (p, .ok none)) ∧
    (∀ rest e, decode pieces.flatten = (rest, .error e) →
      (∃ left e' later, firstAnswer [] pieces = ((left, .error e'), later)) ∧
        ∀ p, p <+: pieces.flatten → ∀ left found, decode p ≠ (left, .ok (some found))) ∧
    (∀ src left, decode src = (left, .ok none) → left = src) ∧
    ∀ src left e, decode src = (left, .error e) →
      left = src ∨ ∃ front, src = front ++ left ∧ Whole front := by
  have hnil : decode [] = ([], .ok none) := rfl
  refine ⟨fun rest found h => firstAnswer_of_found hnil h, fun rest h => ⟨?_, ?_⟩,
    fun rest e h => ⟨firstAnswer_of_error hnil h, ?_⟩,
    fun src left h => RequestDecoder.rest_of_waiting h, fun src left e h => left_of_error h⟩
  · exact firstAnswer_of_waiting h
  · rintro p ⟨more, hmore⟩
    rw [← hmore] at h
    exact waits_before h
  · rintro p ⟨more, hmore⟩ left found hfound
    rw [← hmore, found_behind hfound] at h
    cases h

/-- A head behind an empty line, cut inside its line ends, and the start of what follows it. -/
def cutHead : List Bytes :=
  [Bytes.ofString "\nGET / HT", Bytes.ofString "TP/1.1\r\nA: b\n\r", Bytes.ofString "\nPOS",
    Bytes.ofString "T"]

def headInCuts : RequestHead × BodySize :=
  (⟨Bytes.ofString "GET", { pathPart := [0x2F] }, .v11, .ofList [([0x41], [0x62])]⟩, .empty)

/-- A head whose framing is refused. -/
def cutCoding : List Bytes :=
  [Bytes.ofString "POST / HTTP/1.1\nTransfer-Encoding: gzip\n", [0x0A, 0x61]]

theorem firstAnswer_of_any_cut_in_line_end :
    (decode cutHead.flatten = (Bytes.ofString "POST", .ok (some headInCuts)) ∧
      ∃ left later, firstAnswer [] cutHead = ((left, .ok (some headInCuts)), later) ∧
        left ++ later.flatten = Bytes.ofString "POST") ∧
    decode cutCoding.flatten = ([0x61], .error (.unsupportedCoding "gzip")) ∧
      ∃ front, cutCoding.flatten = front ++ [0x61] ∧ Whole front := by
  have hfound : decode cutHead.flatten = (Bytes.ofString "POST", .ok (some headInCuts)) := rfl
  have hrefused : decode cutCoding.flatten = ([0x61], .error (.unsupportedCoding "gzip")) := rfl
  obtain ⟨hfinds, -⟩ := firstAnswer_of_any_cut cutHead
  obtain ⟨-, -, -, -, hleft⟩ := firstAnswer_of_any_cut cutCoding
  refine ⟨⟨hfound, hfinds _ _ hfound⟩, hrefused, ?_⟩
  exact (hleft _ _ _ hrefused).resolve_left (by decide +kernel)

end WireServer.Http.HeadDecoder
