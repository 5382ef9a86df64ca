import WireServer.Proofs.Http.RequestPieces

/-! Bodies byte by byte. Every byte of a body is framing or data, and the decoder tells which as it
takes the byte. A call takes some bytes at once and hands out the data among them, so what is made
of a body does not depend on how its bytes were cut. -/

namespace WireServer.Http

/-- A byte of a body, and whether it is data. -/
abbrev Marked := UInt8 × Bool

namespace Marked

def framing (bs : Bytes) : List Marked := bs.map fun b => (b, false)

def payload (bs : Bytes) : List Marked := bs.map fun b => (b, true)

def bytes (ms : List Marked) : Bytes := ms.map Prod.fst

/-- The data among the bytes. -/
def data (ms : List Marked) : Bytes := bytes (ms.filter Prod.snd)

@[simp] theorem bytes_nil : bytes [] = [] := rfl

@[simp] theorem bytes_cons (m : Marked) (ms : List Marked) :
    bytes (m :: ms) = m.1 :: bytes ms := rfl

@[simp] theorem bytes_append (ms ns : List Marked) : bytes (ms ++ ns) = bytes ms ++ bytes ns := by
  simp [bytes]

@[simp] theorem length_bytes (ms : List Marked) : (bytes ms).length = ms.length := by simp [bytes]

@[simp] theorem data_nil : data [] = [] := rfl

@[simp] theorem data_append (ms ns : List Marked) : data (ms ++ ns) = data ms ++ data ns := by
  simp [data]

theorem data_cons (b : UInt8) (isData : Bool) (ms : List Marked) :
    data ((b, isData) :: ms) = if isData then b :: data ms else data ms := by
  cases isData <;> simp [data]

@[simp] theorem bytes_framing (bs : Bytes) : bytes (framing bs) = bs := by
  simp [bytes, framing, Function.comp_def]

@[simp] theorem data_framing (bs : Bytes) : data (framing bs) = [] := by
  rw [data, framing, List.filter_eq_nil_iff.2 (by simp)]
  rfl

@[simp] theorem bytes_payload (bs : Bytes) : bytes (payload bs) = bs := by
  simp [bytes, payload, Function.comp_def]

@[simp] theorem data_payload (bs : Bytes) : data (payload bs) = bs := by
  rw [data, List.filter_eq_self.2 (by simp [payload]), bytes_payload]

@[simp] theorem framing_nil : framing [] = [] := rfl

@[simp] theorem framing_append (xs ys : Bytes) : framing (xs ++ ys) = framing xs ++ framing ys := by
  simp [framing]

@[simp] theorem payload_append (xs ys : Bytes) : payload (xs ++ ys) = payload xs ++ payload ys := by
  simp [payload]

end Marked

open Marked

namespace BodyDecoder

/-- Nothing of the body is missing. -/
def isEnded : BodyDecoder → Bool
  | .empty => true
  | .length left => left = 0
  | .chunked d => d.state = .done

/-- One more byte of the body, and whether it is data. -/
def advance : BodyDecoder → UInt8 → Except Chunked.Fault (BodyDecoder × Bool)
  | .empty, _ => .ok (.empty, false)
  | .length left, _ => .ok (.length (left - 1), true)
  | .chunked d, b =>
    if d.state = .data then .ok (.chunked (d.count 1), true)
    else (d.step b).map fun d => (.chunked d, false)

/-- The bytes that lead from one state of the decoder to another. -/
inductive Takes : BodyDecoder → List Marked → BodyDecoder → Prop
  | nil (b : BodyDecoder) : Takes b [] b
  | cons {b b' c : BodyDecoder} {x : UInt8} {isData : Bool} {ms : List Marked} :
      b.isEnded = false → b.advance x = .ok (b', isData) → Takes b' ms c →
      Takes b ((x, isData) :: ms) c

namespace Takes

variable {b b' c d : BodyDecoder} {ms ns : List Marked}

theorem trans (h : b.Takes ms c) (h' : c.Takes ns d) : b.Takes (ms ++ ns) d := by
  induction h with
  | nil => exact h'
  | cons hopen hadvance _ ih => exact .cons hopen hadvance (ih h')

theorem single {x : UInt8} {isData : Bool} (hopen : b.isEnded = false)
    (h : b.advance x = .ok (b', isData)) : b.Takes [(x, isData)] b' :=
  .cons hopen h (.nil _)

/-- No byte is taken behind the end. -/
theorem of_isEnded (h : b.Takes ms c) (hended : b.isEnded) : ms = [] ∧ c = b := by
  cases h with
  | nil => exact ⟨rfl, rfl⟩
  | cons hopen => simp [hopen] at hended

/-- Of the same input the same is made: where one reading stops, the other goes on from there. -/
theorem comparable (h : b.Takes ms c) (h' : b.Takes ns d) {xs ys : Bytes}
    (hsame : bytes ms ++ xs = bytes ns ++ ys) :
    (∃ more, ns = ms ++ more ∧ c.Takes more d) ∨ ∃ more, ms = ns ++ more ∧ d.Takes more c := by
  induction h generalizing ns with
  | nil b => exact .inl ⟨ns, rfl, h'⟩
  | @cons b b' c x isData ms hopen hadvance hms ih =>
    cases h' with
    | nil => exact .inr ⟨_, rfl, .cons hopen hadvance hms⟩
    | @cons _ e _ y isData' ns _ hadvance' hns =>
      simp only [bytes_cons, List.cons_append, List.cons.injEq] at hsame
      obtain ⟨rfl, hsame⟩ := hsame
      obtain ⟨rfl, rfl⟩ := Prod.mk.inj (Except.ok.inj (hadvance.symm.trans hadvance'))
      rcases ih hns hsame with ⟨more, rfl, hmore⟩ | ⟨more, rfl, hmore⟩
      · exact .inl ⟨more, rfl, hmore⟩
      · exact .inr ⟨more, rfl, hmore⟩

/-- Where the input goes on, one more byte can be taken. -/
theorem next (h : b.Takes ms c) (h' : b.Takes ns d) (x : UInt8) (xs ys : Bytes)
    (hsame : bytes ms ++ x :: xs = bytes ns ++ ys) (hlong : ys.length ≤ xs.length) :
    c.isEnded = false ∧ ∃ r, c.advance x = .ok r := by
  rcases h.comparable h' hsame with ⟨more, rfl, hmore⟩ | ⟨more, rfl, -⟩
  · cases hmore with
    | nil =>
      have hlen := congrArg List.length hsame
      simp only [List.length_append, List.length_cons, length_bytes, List.length_nil] at hlen
      omega
    | @cons _ _ _ y _ _ hopen hadvance =>
      rw [bytes_append, List.append_assoc, List.append_cancel_left_eq, bytes_cons,
        List.cons_append, List.cons.injEq] at hsame
      exact ⟨hopen, _, by rw [hsame.1, hadvance]⟩
  · have hlen := congrArg List.length hsame
    simp only [List.length_append, List.length_cons, length_bytes] at hlen
    omega

theorem fed (h : b.Takes ms c) (hb : b.Fed) : c.Fed := by
  induction h with
  | nil => exact hb
  | @cons b b' c x isData ms hopen hadvance _ ih =>
    refine ih ?_
    cases b with
    | empty => cases hopen
    | length left =>
      cases hadvance
      trivial
    | chunked d =>
      simp only [advance] at hadvance
      by_cases hdata : d.state = .data
      · rw [if_pos hdata] at hadvance
        cases hadvance
        exact Chunked.Decoder.fed_count (Nat.one_le_iff_ne_zero.2 (hb hdata))
      · rw [if_neg hdata] at hadvance
        cases hstep : d.step x with
        | error fault =>
          rw [hstep] at hadvance
          cases hadvance
        | ok next =>
          rw [hstep] at hadvance
          cases hadvance
          exact Chunked.Decoder.fed_step hstep

end Takes

theorem takes_length {taken : Bytes} {left : Nat} (hle : taken.length ≤ left) :
    (length left).Takes (payload taken) (length (left - taken.length)) := by
  induction taken generalizing left with
  | nil => exact .nil _
  | cons b taken ih =>
    rw [List.length_cons] at hle ⊢
    have hrest := ih (show taken.length ≤ left - 1 by omega)
    rw [Nat.sub_sub, Nat.add_comm 1] at hrest
    exact .cons (decide_eq_false (by omega)) rfl hrest

theorem takes_data {taken : Bytes} {d : Chunked.Decoder} (hdata : d.state = .data)
    (hne : taken ≠ []) (hle : taken.length ≤ d.size) :
    (chunked d).Takes (payload taken) (chunked (d.count taken.length)) := by
  have hopen : (chunked d).isEnded = false := by simp [isEnded, hdata]
  have hadvance (b : UInt8) : (chunked d).advance b = .ok (chunked (d.count 1), true) :=
    if_pos hdata
  induction taken generalizing d with
  | nil => exact absurd rfl hne
  | cons b taken ih =>
    refine .cons hopen (hadvance b) ?_
    rcases taken with _ | ⟨b', taken⟩
    · exact .nil _
    · simp only [List.length_cons] at hle
      have hmore : (d.count 1).state = .data := if_neg (by omega)
      have hrest := ih hmore (List.cons_ne_nil b' taken)
        (show taken.length + 1 ≤ d.size - 1 by omega) (by simp [isEnded, hmore])
        fun _ => if_pos hmore
      rw [List.length_cons, Chunked.Decoder.count_count] at hrest
      exact hrest

theorem takes_step {d d' : Chunked.Decoder} {b : UInt8} (hdata : d.state ≠ .data)
    (hdone : d.state ≠ .done) (h : d.step b = .ok d') :
    (chunked d).Takes (framing [b]) (chunked d') :=
  .single (decide_eq_false hdone) (by rw [advance, if_neg hdata, h]; rfl)

/-! ### Calls -/

/-- What one call makes of `src`: it takes framing up to the end of the body, up to and through some
data, or up to the end of the input, or it meets a byte that breaks the coding. -/
inductive Yields (b : BodyDecoder) (src : Bytes) :
    BodyDecoder × Bytes × Except RequestError (Option BodyItem) → Prop
  | eof (ms : List Marked) (c : BodyDecoder) (rest : Bytes) : b.Takes ms c → c.isEnded →
      data ms = [] → src = bytes ms ++ rest → Yields b src (c, rest, .ok (some .eof))
  | chunk (ms : List Marked) (c : BodyDecoder) (rest : Bytes) : b.Takes ms c → data ms ≠ [] →
      src = bytes ms ++ rest → Yields b src (c, rest, .ok (some (.chunk (data ms))))
  | wait (ms : List Marked) (c : BodyDecoder) : b.Takes ms c → c.isEnded = false → data ms = [] →
      src = bytes ms → Yields b src (c, [], .ok none)
  | fault (ms : List Marked) (c : BodyDecoder) (x : UInt8) (rest : Bytes) (e : Chunked.Fault) :
      b.Takes ms c → c.isEnded = false → c.advance x = .error e → data ms = [] →
      src = bytes ms ++ x :: rest → Yields b src (c, rest, .error (.invalidBody e.text))

theorem Yields.cons {b c : BodyDecoder} {x : UInt8} {src : Bytes}
    {r : BodyDecoder × Bytes × Except RequestError (Option BodyItem)} (hopen : b.isEnded = false)
    (hadvance : b.advance x = .ok (c, false)) (h : c.Yields src r) : b.Yields (x :: src) r := by
  cases h with
  | eof ms d rest htakes hended hdata hsrc =>
    exact .eof ((x, false) :: ms) d rest (.cons hopen hadvance htakes) hended
      (by rwa [data_cons]) (by rw [hsrc]; rfl)
  | chunk ms d rest htakes hdata hsrc =>
    have hsame : data ((x, false) :: ms) = data ms := data_cons x false ms
    rw [← hsame]
    exact .chunk ((x, false) :: ms) d rest (.cons hopen hadvance htakes) (by rwa [hsame])
      (by rw [hsrc]; rfl)
  | wait ms d htakes hended hdata hsrc =>
    exact .wait ((x, false) :: ms) d (.cons hopen hadvance htakes) hended
      (by rwa [data_cons]) (by rw [hsrc]; rfl)
  | fault ms d y rest e htakes hended herror hdata hsrc =>
    exact .fault ((x, false) :: ms) d y rest e (.cons hopen hadvance htakes) hended herror
      (by rwa [data_cons]) (by rw [hsrc]; rfl)

theorem yields_length (left : Nat) (src : Bytes) :
    (length left).Yields src ((length left).decode src) := by
  unfold decode
  by_cases hleft : left = 0
  · simp only [hleft, if_true]
    exact .eof [] _ src (.nil _) rfl rfl rfl
  by_cases hnone : src = []
  · subst hnone
    simp only [hleft, if_false, List.isEmpty_nil, if_true]
    exact .wait [] _ (.nil _) (decide_eq_false hleft) rfl rfl
  · simp only [hleft, if_false, List.isEmpty_iff, hnone]
    have htakes := takes_length (List.length_take_le left src)
    have hsome : src.take left ≠ [] := by
      rw [ne_eq, List.take_eq_nil_iff]
      exact fun h => h.elim hleft hnone
    have hyields := Yields.chunk (payload (src.take left)) _ (src.drop left) htakes
      (by rwa [data_payload]) (by rw [bytes_payload, List.take_append_drop])
    rwa [data_payload] at hyields

theorem yields_chunked {d : Chunked.Decoder} (hd : d.Fed) (src : Bytes) :
    (chunked d).Yields src ((chunked d).decode src) := by
  induction src generalizing d with
  | nil =>
    by_cases hdone : d.state = .done
    · simp only [decode, Chunked.Decoder.decode_done hdone]
      exact .eof [] _ [] (.nil _) (decide_eq_true hdone) rfl rfl
    · simp only [decode, Chunked.Decoder.decode_nil hdone]
      exact .wait [] _ (.nil _) (decide_eq_false hdone) rfl rfl
  | cons b src ih =>
    by_cases hdone : d.state = .done
    · simp only [decode, Chunked.Decoder.decode_done hdone]
      exact .eof [] _ _ (.nil _) (decide_eq_true hdone) rfl rfl
    by_cases hdata : d.state = .data
    · simp only [decode, Chunked.Decoder.decode_data hdata, Chunked.Decoder.takeData_eq]
      have hsome : (b :: src).take d.size ≠ [] := by simp [hd hdata]
      have htakes := takes_data hdata hsome (List.length_take_le d.size (b :: src))
      have hyields := Yields.chunk _ _ ((b :: src).drop d.size) htakes (by rwa [data_payload])
        (by rw [bytes_payload, List.take_append_drop])
      rwa [data_payload] at hyields
    have hopen : (chunked d).isEnded = false := decide_eq_false hdone
    cases hstep : d.step b with
    | error fault =>
      simp only [decode, Chunked.Decoder.decode_step hdata hdone, hstep]
      exact .fault [] _ b src fault (.nil _) hopen (by rw [advance, if_neg hdata, hstep]; rfl)
        rfl rfl
    | ok next =>
      have hsame : (chunked d).decode (b :: src) = (chunked next).decode src := by
        simp only [decode, Chunked.Decoder.decode_step hdata hdone, hstep]
      rw [hsame]
      exact (ih (Chunked.Decoder.fed_step hstep)).cons hopen
        (by rw [advance, if_neg hdata, hstep]; rfl)

theorem yields_decode {b : BodyDecoder} (hb : b.Fed) (src : Bytes) :
    b.Yields src (b.decode src) := by
  cases b with
  | empty => exact .eof [] _ src (.nil _) rfl rfl rfl
  | length left => exact yields_length left src
  | chunked d => exact yields_chunked hb src

/-! ### All calls on some input -/

/-- What is left of some input behind all calls, and what they handed out. -/
inductive Reads (b : BodyDecoder) (src : Bytes) :
    BodyDecoder × Bytes × List BodyItem × Option RequestError → Prop
  | whole (ms : List Marked) (c : BodyDecoder) (rest : Bytes) (chunks : List Bytes) :
      b.Takes ms c → c.isEnded → chunks.flatten = data ms → src = bytes ms ++ rest →
      Reads b src (c, rest, chunks.map .chunk ++ [.eof], none)
  | part (ms : List Marked) (c : BodyDecoder) (chunks : List Bytes) :
      b.Takes ms c → c.isEnded = false → chunks.flatten = data ms → src = bytes ms →
      Reads b src (c, [], chunks.map .chunk, none)
  | broken (ms : List Marked) (c : BodyDecoder) (x : UInt8) (rest : Bytes) (e : Chunked.Fault)
      (chunks : List Bytes) : b.Takes ms c → c.isEnded = false → c.advance x = .error e →
      chunks.flatten = data ms → src = bytes ms ++ x :: rest →
      Reads b src (c, rest, chunks.map .chunk, some (.invalidBody e.text))

/-- Some bytes go in front, with the data among them in one piece or more. -/
theorem Reads.after {b c : BodyDecoder} {src : Bytes} {ms : List Marked} {chunks : List Bytes}
    {d : BodyDecoder} {rest : Bytes} {items : List BodyItem} {error : Option RequestError}
    (htakes : b.Takes ms c) (hchunks : chunks.flatten = data ms)
    (h : c.Reads src (d, rest, items, error)) :
    b.Reads (bytes ms ++ src) (d, rest, chunks.map .chunk ++ items, error) := by
  cases h with
  | whole ns _ _ more hns hended hmore hsrc =>
    rw [← List.append_assoc, ← List.map_append]
    exact .whole (ms ++ ns) d rest (chunks ++ more) (htakes.trans hns) hended
      (by simp [hchunks, hmore]) (by simp [hsrc])
  | part ns _ more hns hended hmore hsrc =>
    rw [← List.map_append]
    exact .part (ms ++ ns) d (chunks ++ more) (htakes.trans hns) hended
      (by simp [hchunks, hmore]) (by simp [hsrc])
  | broken ns _ x _ e more hns hended herror hmore hsrc =>
    rw [← List.map_append]
    exact .broken (ms ++ ns) d x rest e (chunks ++ more) (htakes.trans hns) hended herror
      (by simp [hchunks, hmore]) (by simp [hsrc])

/-- A body that is there in full is read in full. -/
theorem Reads.whole_of_takes {b c : BodyDecoder} {src rest : Bytes} {ms : List Marked}
    {r : BodyDecoder × Bytes × List BodyItem × Option RequestError} (h : b.Reads src r)
    (htakes : b.Takes ms c) (hended : c.isEnded) (hsrc : src = bytes ms ++ rest) :
    ∃ chunks : List Bytes,
      r = (c, rest, chunks.map .chunk ++ [.eof], none) ∧ chunks.flatten = data ms := by
  cases h with
  | whole ns d left chunks hns hdone hchunks hleft =>
    have hsame := hleft.symm.trans hsrc
    rcases hns.comparable htakes hsame with ⟨more, rfl, hmore⟩ | ⟨more, rfl, hmore⟩
    · obtain ⟨rfl, rfl⟩ := hmore.of_isEnded hdone
      rw [List.append_nil, List.append_cancel_left_eq] at hsame
      exact ⟨chunks, by rw [hsame], by rw [hchunks, List.append_nil]⟩
    · obtain ⟨rfl, rfl⟩ := hmore.of_isEnded hended
      rw [List.append_nil, List.append_cancel_left_eq] at hsame
      exact ⟨chunks, by rw [hsame], by rw [hchunks, List.append_nil]⟩
  | part ns d chunks hns hopen hchunks hleft =>
    have hsame : bytes ns ++ [] = bytes ms ++ rest := by rw [List.append_nil, ← hleft, hsrc]
    rcases hns.comparable htakes hsame with ⟨more, rfl, hmore⟩ | ⟨more, rfl, hmore⟩
    · rw [bytes_append, List.append_assoc, List.append_cancel_left_eq] at hsame
      cases hmore with
      | nil => simp [hended] at hopen
      | cons => cases hsame
    · obtain ⟨rfl, rfl⟩ := hmore.of_isEnded hended
      simp [hended] at hopen
  | broken ns d x left e chunks hns hopen herror hchunks hleft =>
    have hsame := hleft.symm.trans hsrc
    rcases hns.comparable htakes hsame with ⟨more, rfl, hmore⟩ | ⟨more, rfl, hmore⟩
    · cases hmore with
      | nil => simp [hended] at hopen
      | @cons _ _ _ y _ _ _ hadvance =>
        rw [bytes_append, List.append_assoc, List.append_cancel_left_eq, bytes_cons,
          List.cons_append, List.cons.injEq] at hsame
        rw [hsame.1, hadvance] at herror
        cases herror
    · obtain ⟨rfl, rfl⟩ := hmore.of_isEnded hended
      simp [hended] at hopen

/-- Of a body that is not there in full, the end is not read, and no fault is found. -/
theorem Reads.part_of_takes {b c : BodyDecoder} {src more : Bytes} {ms : List Marked}
    {r : BodyDecoder × Bytes × List BodyItem × Option RequestError} (h : b.Reads src r)
    (htakes : b.Takes ms c) (hms : bytes ms = src ++ more) (hne : more ≠ []) :
    ∃ d, ∃ chunks : List Bytes, r = (d, [], chunks.map .chunk, none) := by
  obtain ⟨y, more, rfl⟩ := List.exists_cons_of_ne_nil hne
  cases h with
  | whole ns d left chunks hns hended hchunks hsrc =>
    rcases left with _ | ⟨x, left⟩
    · obtain ⟨hopen, -⟩ := hns.next htakes y more []
        (by rw [List.append_nil, hms, hsrc, List.append_nil]) (Nat.zero_le _)
      simp [hended] at hopen
    · obtain ⟨hopen, -⟩ := hns.next htakes x (left ++ y :: more) []
        (by rw [List.append_nil, hms, hsrc, List.append_assoc, List.cons_append]) (Nat.zero_le _)
      simp [hended] at hopen
  | part ns d chunks => exact ⟨d, chunks, rfl⟩
  | broken ns d x left e chunks hns hopen herror hchunks hsrc =>
    obtain ⟨-, _, hok⟩ := hns.next htakes x (left ++ y :: more) []
      (by rw [List.append_nil, hms, hsrc, List.append_assoc, List.cons_append]) (Nat.zero_le _)
    rw [herror] at hok
    cases hok

theorem decodeItems_acc (n : Nat) (b : BodyDecoder) (src : Bytes) (items : List BodyItem) :
    decodeItems n b src items =
      ((decodeItems n b src []).1, (decodeItems n b src []).2.1,
        items.reverse ++ (decodeItems n b src []).2.2.1, (decodeItems n b src []).2.2.2) := by
  induction n generalizing b src items with
  | zero => simp [decodeItems]
  | succ n ih =>
    rcases hb : b.decode src with ⟨c, rest, e | _ | data | _⟩
    · simp [decodeItems, hb]
    · simp [decodeItems, hb]
    · simp only [decodeItems, hb]
      rw [ih c rest (.chunk data :: items), ih c rest [.chunk data]]
      simp
    · simp [decodeItems, hb]

theorem reads_decodeItems {n : Nat} {b : BodyDecoder} {src : Bytes} (hb : b.Fed)
    (hn : src.length < n) : b.Reads src (decodeItems n b src []) := by
  induction n generalizing b src with
  | zero => exact absurd hn (Nat.not_lt_zero _)
  | succ n ih =>
    have hyields := yields_decode hb src
    rcases hcall : b.decode src with ⟨c, rest, e | _ | item⟩
    all_goals rw [hcall] at hyields
    · cases hyields with
      | fault ms _ x _ f htakes hopen herror hdata hsrc =>
        simp only [decodeItems, hcall, List.reverse_nil]
        exact .broken ms c x rest f [] htakes hopen herror (by simp [hdata]) hsrc
    · cases hyields with
      | wait ms _ htakes hopen hdata hsrc =>
        simp only [decodeItems, hcall, List.reverse_nil]
        exact .part ms c [] htakes hopen (by simp [hdata]) hsrc
    · cases hyields with
      | eof ms _ _ htakes hended hdata hsrc =>
        simp only [decodeItems, hcall]
        exact .whole ms c rest [] htakes hended (by simp [hdata]) hsrc
      | chunk ms _ _ htakes hdata hsrc =>
        -- a piece of data takes one byte or more, so there are calls enough
        have hpos : 0 < ms.length := by
          refine List.length_pos_iff.2 fun hnone => hdata ?_
          rw [hnone, data_nil]
        have hlen := congrArg List.length hsrc
        rw [List.length_append, length_bytes] at hlen
        have hrest := ih (htakes.fed hb) (show rest.length < n by omega)
        have hreads := hrest.after htakes (show [data ms].flatten = data ms by simp)
        simp only [decodeItems, hcall]
        rw [decodeItems_acc, hsrc]
        exact hreads

theorem reads_decodeAll {b : BodyDecoder} (hb : b.Fed) (src : Bytes) :
    b.Reads src (b.decodeAll src) :=
  reads_decodeItems hb (by omega)

/-! ### Input in pieces -/

/-- Input that comes in pieces: each time all that there is of the body is decoded, up to the end of
it or an error. Pieces behind that are left as they are. -/
def readPieces (b : BodyDecoder) (left : Bytes) :
    List Bytes → BodyDecoder × Bytes × List BodyItem × Option RequestError
  | [] => (b, left, [], none)
  | piece :: pieces =>
    match b.decodeAll (left ++ piece) with
    | (b, left, items, error) =>
      if error.isSome || items.getLast? = some .eof then (b, left ++ pieces.flatten, items, error)
      else
        let (b, left, more, error) := readPieces b left pieces
        (b, left, items ++ more, error)

/-- How the input is cut makes no difference to what is read, but for the sizes of the pieces of
data. -/
theorem reads_readPieces {b : BodyDecoder} (hb : b.Fed) (hopen : b.isEnded = false)
    (pieces : List Bytes) : b.Reads pieces.flatten (readPieces b [] pieces) := by
  induction pieces generalizing b with
  | nil => exact .part [] b [] (.nil _) hopen rfl rfl
  | cons piece pieces ih =>
    have hreads := reads_decodeAll hb piece
    rcases hall : b.decodeAll piece with ⟨c, rest, items, error⟩
    rw [hall] at hreads
    simp only [readPieces, List.nil_append, List.flatten_cons, hall]
    cases hreads with
    | whole ms c rest chunks htakes hended hchunks hsrc =>
      simp only [Option.isSome_none, List.getLast?_concat, decide_true, Bool.or_true, if_true]
      exact .whole ms c _ chunks htakes hended hchunks (by rw [hsrc, List.append_assoc])
    | part ms c chunks htakes hmore hchunks hsrc =>
      have hlast : (chunks.map BodyItem.chunk).getLast? ≠ some .eof := by
        rw [List.getLast?_map]
        cases chunks.getLast? <;> simp
      have hrest := ih (htakes.fed hb) hmore
      simp only [Option.isSome_none, hlast, decide_false, Bool.or_false, Bool.false_eq_true,
        if_false]
      rw [hsrc]
      exact hrest.after htakes hchunks
    | broken ms c x rest e chunks htakes hmore herror hchunks hsrc =>
      simp only [Option.isSome_some, Bool.true_or, if_true]
      exact .broken ms c x _ e chunks htakes hmore herror hchunks
        (by rw [hsrc, List.append_assoc, List.cons_append])

end BodyDecoder

end WireServer.Http
