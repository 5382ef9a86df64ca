import Mathlib.Data.List.TakeWhile
import WireServer.Proofs.Http.ChunkedGrammar
import WireServer.Proofs.Http.Framing
import WireServer.Proofs.Http.RequestStream

/-! Requests as they are written: a head with its lines and a body that they announce. Written one
behind another, and cut in any way, they are decoded one by one, and no byte of the next is taken
before its time. -/

namespace WireServer.Http

/-! ### Heads -/

/-- A line end, with or without CR. -/
inductive Eol where
  | crlf | lf
  deriving DecidableEq, Inhabited, Repr

def Eol.bytes : Eol → Bytes
  | .crlf => [0x0D, 0x0A]
  | .lf => [0x0A]

/-- A field line, with blanks around the value. -/
structure FieldText where
  name : Bytes
  before : Bytes
  value : Bytes
  after : Bytes
  eol : Eol
  named : name ≠ []
  token : ∀ b ∈ name, isToken b
  blankBefore : ∀ b ∈ before, isBlank b
  blankAfter : ∀ b ∈ after, isBlank b
  shown : ∀ b ∈ value, isFieldValue b
  trimmed : trim isBlank value = value

namespace FieldText

def wire (f : FieldText) : Bytes :=
  f.name ++ 0x3A :: (f.before ++ (f.value ++ (f.after ++ f.eol.bytes)))

def line (f : FieldText) : Bytes × Bytes := (f.name, f.value)

end FieldText

/-- A request head. Empty lines may stand in front of it. -/
structure HeadText where
  emptyLines : List Eol
  method : Bytes
  target : Bytes
  uri : Uri
  version : Version
  eol : Eol
  fields : List FieldText
  lastEol : Eol
  named : method ≠ []
  token : ∀ b ∈ method, isToken b
  aimed : target ≠ []
  visible : ∀ b ∈ target, isTarget b
  text : Utf8.valid target
  parsed : Uri.parse target = some uri
  known : version = .v10 ∨ version = .v11
  few : fields.length ≤ HeadDecoder.maxFields

namespace HeadText

def wire (h : HeadText) : Bytes :=
  h.emptyLines.flatMap Eol.bytes ++ (h.method ++ 0x20 :: (h.target ++ 0x20 ::
    (Bytes.ofString h.version.text ++ (h.eol.bytes ++
      (h.fields.flatMap FieldText.wire ++ h.lastEol.bytes)))))

def lines (h : HeadText) : List (Bytes × Bytes) := h.fields.map FieldText.line

/-- The head as it was meant. -/
def head (h : HeadText) : RequestHead := ⟨h.method, h.uri, h.version, .ofList h.lines⟩

def parts (h : HeadText) : HeadGrammar.Parts := ⟨h.method, h.target, h.version, h.lines⟩

end HeadText

/-- A target in origin form without a fragment is kept as it is. -/
theorem Uri.toBytes_of_parse {target : Bytes} {uri : Uri} (hparse : parse target = some uri)
    (horigin : target.head? = some 0x2F) (hfragment : 0x23 ∉ target) : uri.toBytes = target := by
  obtain ⟨rest, rfl⟩ : ∃ rest, target = 0x2F :: rest := by
    cases target with
    | nil => cases horigin
    | cons b rest =>
      cases horigin
      exact ⟨rest, rfl⟩
  have hshown : (0x2F :: rest).takeWhile (fun b => decide (b ≠ (0x23 : UInt8))) = 0x2F :: rest :=
    List.takeWhile_eq_self_iff.2 fun b hb => decide_eq_true fun h => hfragment (h ▸ hb)
  have hslash : ∃ path, (0x2F :: rest).takeWhile (fun b => decide (b ≠ (0x3F : UInt8))) =
      0x2F :: path := ⟨_, List.takeWhile_cons_of_pos (by decide)⟩
  have hsplit := List.takeWhile_append_dropWhile (p := fun b => decide (b ≠ (0x3F : UInt8)))
    (l := 0x2F :: rest)
  have hmark := List.head?_dropWhile_not (fun b => decide (b ≠ (0x3F : UInt8))) (0x2F :: rest)
  simp only [parse, ofPathAndQuery, hshown] at hparse
  obtain ⟨path, hpath⟩ := hslash
  rw [hpath] at hparse hsplit
  generalize (0x2F :: rest).dropWhile (fun b => decide (b ≠ (0x3F : UInt8))) = query at *
  rcases query with _ | ⟨b, query⟩
  · simp only at hparse
    split at hparse <;> cases hparse
    rw [← hsplit]
    simp [toBytes, Uri.path]
  · obtain rfl : b = 0x3F := by simpa using hmark
    simp only at hparse
    split at hparse <;> cases hparse
    rw [← hsplit]
    simp [toBytes, Uri.path]

/-! ### Readers on what was written -/

namespace HeadGrammar

theorem span_written {cls : UInt8 → Bool} {w : Bytes} (hw : ∀ b ∈ w, cls b) {b : UInt8}
    (hb : cls b = false) (rest : Bytes) :
    (w ++ b :: rest).takeWhile cls = w ∧ (w ++ b :: rest).dropWhile cls = b :: rest := by
  rw [List.takeWhile_append_of_pos hw, List.dropWhile_append_of_pos hw]
  simp [hb]

theorem lineEnd_written (fault : HeadFault) (e : Eol) (rest : Bytes) :
    lineEnd fault (e.bytes ++ rest) = .done () rest := by
  cases e <;> rfl

theorem skipEmptyLines_written (es : List Eol) {b : UInt8} (hcr : b ≠ 0x0D) (hlf : b ≠ 0x0A)
    (rest : Bytes) :
    skipEmptyLines (es.flatMap Eol.bytes ++ b :: rest) = .done () (b :: rest) := by
  induction es with
  | nil => exact skipEmptyLines_other hcr hlf rest
  | cons e es ih =>
    cases e with
    | crlf => simpa [Eol.bytes, skipEmptyLines] using ih
    | lf => simpa [Eol.bytes, skipEmptyLines] using ih

theorem word_written {cls : UInt8 → Bool} {w : Bytes} (hw : ∀ b ∈ w, cls b) (hne : w ≠ [])
    (hspace : cls 0x20 = false) (rest : Bytes) :
    word cls (w ++ 0x20 :: rest) = .done w rest := by
  obtain ⟨htake, hdrop⟩ := span_written hw hspace rest
  have hsome : w.isEmpty = false := by simpa using hne
  simp only [word, htake, hdrop, hsome]
  rfl

theorem version_written {v : Version} (h : v = .v10 ∨ v = .v11) (rest : Bytes) :
    version (Bytes.ofString v.text ++ rest) = .done v rest := by
  have hlen : (Bytes.ofString v.text).length = 8 := by rcases h with rfl | rfl <;> decide +kernel
  have hlong : 8 ≤ (Bytes.ofString v.text ++ rest).length := by
    rw [List.length_append, hlen]
    omega
  rw [version_of_long hlong, List.take_left' hlen, List.drop_left' hlen]
  rcases h with rfl | rfl
  · rw [if_neg (by decide +kernel), if_pos (by rfl)]
  · rw [if_pos (by rfl)]

/-- The value comes back without the blanks behind it. -/
theorem trim_append {cls : UInt8 → Bool} {b : UInt8} {value after : Bytes} (hb : cls b = false)
    (hafter : ∀ x ∈ after, cls x) :
    trim cls (b :: value ++ after) = trim cls (b :: value) := by
  have hreverse : ∀ x ∈ after.reverse, cls x := fun x hx => hafter x (List.mem_reverse.1 hx)
  simp only [trim, List.cons_append, List.dropWhile_cons, hb, Bool.false_eq_true, if_false]
  rw [← List.cons_append, List.reverse_append, List.dropWhile_append_of_pos hreverse]

theorem isBlank_fieldValue {b : UInt8} (h : isBlank b) : isFieldValue b := by
  simp only [isBlank, Bool.or_eq_true, decide_eq_true_eq] at h
  rcases h with rfl | rfl <;> rfl

theorem fieldValue_written (f : FieldText) (rest : Bytes) :
    fieldValue (f.before ++ (f.value ++ (f.after ++ f.eol.bytes)) ++ rest) =
      .done f.value rest := by
  obtain ⟨e, es, heol, hblank, hvalue⟩ : ∃ e es, f.eol.bytes = e :: es ∧ isBlank e = false ∧
      isFieldValue e = false := by
    cases f.eol with
    | crlf => exact ⟨0x0D, [0x0A], rfl, rfl, rfl⟩
    | lf => exact ⟨0x0A, [], rfl, rfl, rfl⟩
  have hlast := lineEnd_written .fieldValue f.eol rest
  have htrim := f.trimmed
  rw [heol, List.cons_append] at hlast
  unfold fieldValue
  rw [List.append_assoc, List.dropWhile_append_of_pos f.blankBefore, List.append_assoc,
    List.append_assoc, heol, List.cons_append]
  rcases hfirst : f.value with _ | ⟨b, value⟩
  · -- all blanks are dropped in front of the line end
    rw [List.nil_append, (span_written f.blankAfter hblank _).2]
    simp only [List.dropWhile_cons, List.takeWhile_cons, hvalue, Bool.false_eq_true, if_false]
    rw [hlast]
    rfl
  · have hb : isBlank b = false := by
      rw [hfirst, trim] at htrim
      have hlen := congrArg List.length htrim
      by_contra hblank
      have hshort := (List.dropWhile_sublist (l := ((b :: value).dropWhile isBlank).reverse)
        isBlank).length_le
      have hshort' := (List.dropWhile_sublist (l := value) isBlank).length_le
      simp only [List.dropWhile_cons, Bool.not_eq_false] at hblank hlen hshort
      simp only [hblank, if_true, List.length_reverse, List.length_cons] at hlen hshort
      omega
    have hall : ∀ x ∈ f.value ++ f.after, isFieldValue x := fun x hx =>
      (List.mem_append.1 hx).elim (f.shown x) fun hx => isBlank_fieldValue (f.blankAfter x hx)
    rw [hfirst] at hall
    have hstay : (b :: value ++ (f.after ++ e :: (es ++ rest))).dropWhile isBlank =
        (b :: value ++ f.after) ++ e :: (es ++ rest) := by
      rw [List.append_assoc, List.cons_append, List.dropWhile_cons, hb]
      rfl
    obtain ⟨htake, hdrop⟩ := span_written hall hvalue (es ++ rest)
    simp only [hstay, hdrop, htake, hlast, Scan.andThen]
    rw [trim_append hb f.blankAfter, ← hfirst, htrim]

theorem fieldLine_written (f : FieldText) (rest : Bytes) :
    fieldLine (f.wire ++ rest) = .done f.line rest := by
  have hcolon : isToken 0x3A = false := by decide +kernel
  obtain ⟨htake, hdrop⟩ := span_written f.token hcolon
    (f.before ++ (f.value ++ (f.after ++ f.eol.bytes)) ++ rest)
  have hsome : f.name.isEmpty = false := by simpa using f.named
  unfold fieldLine
  rw [FieldText.wire, List.append_assoc, List.cons_append, hdrop]
  simp only [htake, hsome, Bool.false_eq_true, if_false, fieldValue_written]
  rfl

/-- No field line starts like a line end. -/
theorem isToken_lineEnd {b : UInt8} (h : isToken b) : b ≠ 0x0D ∧ b ≠ 0x0A := by
  constructor
  · rintro rfl
    exact absurd h (by decide +kernel)
  · rintro rfl
    exact absurd h (by decide +kernel)

theorem fieldLines_written {fs : List FieldText} {room : Nat} (hroom : fs.length ≤ room) (e : Eol)
    (rest : Bytes) : fieldLines room (fs.flatMap FieldText.wire ++ (e.bytes ++ rest)) =
      .done (fs.map FieldText.line) rest := by
  induction fs generalizing room with
  | nil => cases room <;> cases e <;> rfl
  | cons f fs ih =>
    obtain ⟨b, name, hname⟩ := List.exists_cons_of_ne_nil f.named
    obtain ⟨hcr, hlf⟩ := isToken_lineEnd (f.token b (by simp [hname]))
    obtain ⟨room, rfl⟩ := Nat.exists_eq_succ_of_ne_zero (n := room) (by simp at hroom; omega)
    have hfirst : ∃ tail, f.wire = b :: tail := ⟨_, by rw [FieldText.wire, hname]; rfl⟩
    obtain ⟨tail, hwire⟩ := hfirst
    have hline := fieldLine_written f (fs.flatMap FieldText.wire ++ (e.bytes ++ rest))
    rw [List.flatMap_cons, List.append_assoc]
    rw [hwire, List.cons_append] at hline ⊢
    rw [fieldLines]
    simp only [hcr, hlf, decide_false, Bool.or_false, Bool.false_eq_true, if_false]
    rw [hline]
    simp only [Scan.andThen]
    rw [ih (by simpa using hroom)]
    rfl

/-- What was written is read. -/
theorem head_written (h : HeadText) (rest : Bytes) :
    head HeadDecoder.maxFields (h.wire ++ rest) = .done h.parts rest := by
  obtain ⟨b, method, hmethod⟩ := List.exists_cons_of_ne_nil h.named
  obtain ⟨hcr, hlf⟩ := isToken_lineEnd (h.token b (by simp [hmethod]))
  have hempty (rest : Bytes) : skipEmptyLines (h.emptyLines.flatMap Eol.bytes ++
      (h.method ++ rest)) = .done () (h.method ++ rest) := by
    rw [hmethod]
    exact skipEmptyLines_written _ hcr hlf _
  have htarget (rest : Bytes) : target (h.target ++ 0x20 :: rest) = .done h.target rest := by
    rw [target, word_written h.visible h.aimed (by decide +kernel)]
    simp only [Scan.andThen, h.text, if_true]
  unfold head HeadText.wire
  simp only [List.append_assoc, List.cons_append]
  rw [hempty]
  simp only [Scan.andThen]
  rw [HeadGrammar.method, word_written h.token h.named (by decide +kernel)]
  simp only
  rw [htarget]
  simp only
  rw [version_written h.known]
  simp only
  rw [lineEnd_written]
  simp only
  rw [fieldLines_written h.few]
  rfl

end HeadGrammar

/-! ### Whole requests -/

/-- A body: none at all, one with a length, or one in chunks. -/
inductive BodyText where
  | none
  | length (data : Bytes)
  | chunked (body : Chunked.Coded)

namespace BodyText

def wire : BodyText → Bytes
  | none => []
  | length data => data
  | chunked body => body.wire

def data : BodyText → Bytes
  | none => []
  | length data => data
  | chunked body => body.data

def size : BodyText → BodySize
  | none => .empty
  | length data => .ofLength data.length
  | chunked _ => .chunked

/-- What the field lines of a head have to say in front of the body: nothing about its framing, or
its length in every `Content-Length` line and nothing else, or `chunked` as the last coding of every
`Transfer-Encoding` line and nothing else. -/
def AnnouncedBy (parts : HeadGrammar.Parts) : BodyText → Prop
  | none => parts.values contentLength = [] ∧ parts.values transferEncoding = []
  | length data => data.length < 2 ^ 64 ∧ parts.values transferEncoding = [] ∧
      parts.values contentLength ≠ [] ∧ ∀ v ∈ parts.values contentLength, Spells v data.length
  | chunked _ => parts.values contentLength = [] ∧ parts.values transferEncoding ≠ [] ∧
      ∀ v ∈ parts.values transferEncoding, FinallyChunked [v]

open Marked in
/-- The bytes of the body lead to its end. -/
theorem takes (b : BodyText) : ∃ ms c, (BodyDecoder.ofSize b.size).Takes ms c ∧ c.isEnded ∧
    bytes ms = b.wire ∧ Marked.data ms = b.data := by
  cases b with
  | none => exact ⟨[], _, .nil _, rfl, rfl, rfl⟩
  | length data =>
    by_cases hnone : data = []
    · subst hnone
      exact ⟨[], _, .nil _, rfl, rfl, rfl⟩
    · have hsize : BodyDecoder.ofSize (.ofLength data.length) = .length data.length := by
        rw [BodySize.ofLength, if_neg (by simpa using hnone)]
        rfl
      refine ⟨payload data, .length (data.length - data.length), ?_, ?_, bytes_payload data,
        data_payload data⟩
      · rw [size, hsize]
        exact BodyDecoder.takes_length (Nat.le_refl _)
      · simp [BodyDecoder.isEnded]
  | chunked body => exact ⟨body.marked, _, body.takes, rfl, body.bytes_marked, body.data_marked⟩

end BodyText

/-- A request whose head fits the limit for heads. -/
structure RequestText extends HeadText where
  body : BodyText
  announced : body.AnnouncedBy toHeadText.parts
  short : toHeadText.wire.length ≤ HeadDecoder.maxBytes

namespace RequestText

def wire (r : RequestText) : Bytes := r.toHeadText.wire ++ r.body.wire

/-- The request as it was meant. -/
def request (r : RequestText) : Request := ⟨r.head, r.body.data⟩

theorem trim_of_mem_values {h : HeadText} {name v : Bytes} (hv : v ∈ h.parts.values name) :
    trim isBlank v = v := by
  simp only [HeadGrammar.Parts.values, HeadText.parts, HeadText.lines, List.mem_map,
    List.mem_filter] at hv
  obtain ⟨_, ⟨⟨f, -, rfl⟩, -⟩, rfl⟩ := hv
  exact f.trimmed

theorem reads_written (r : RequestText) (rest : Bytes) :
    HeadDecoder.Reads (r.toHeadText.wire ++ rest) r.parts rest where
  parsed := HeadGrammar.head_written r.toHeadText rest
  bounded := by
    rw [List.length_append, Nat.add_sub_cancel]
    exact r.short
  target := by rw [HeadText.parts, r.parsed]; rfl

theorem ofFields_written (r : RequestText) :
    BodySize.ofFields (.ofList r.parts.fields) = .ok r.body.size := by
  have hreads := r.reads_written []
  have hannounced := r.announced
  cases hbody : r.body with
  | none =>
    rw [hbody] at hannounced
    unfold BodySize.ofFields
    rw [Fields.get?_ofList, Fields.get?_ofList, ← transferEncoding, ← contentLength, hannounced.1,
      hannounced.2]
    rfl
  | length data =>
    rw [hbody] at hannounced
    obtain ⟨hfits, hcoding, hsome, hspells⟩ := hannounced
    obtain ⟨v, others, hvalues⟩ := List.exists_cons_of_ne_nil hsome
    have hv : v ∈ r.parts.values contentLength := by rw [hvalues]; exact List.mem_cons_self
    refine hreads.frames_iff.1 (((hreads.length hcoding hvalues).1 _).2
      ⟨data.length, hfits, ?_, rfl⟩)
    rw [trim_of_mem_values hv]
    exact (hspells v hv).signed
  | chunked body =>
    rw [hbody] at hannounced
    obtain ⟨hlength, hsome, hchunked⟩ := hannounced
    obtain ⟨v, others, hvalues⟩ := List.exists_cons_of_ne_nil hsome
    have hv : v ∈ r.parts.values transferEncoding := by rw [hvalues]; exact List.mem_cons_self
    exact hreads.frames_iff.1 ((hreads.coding hlength hvalues).1.2 (hchunked v hv))

/-- The head is decoded as it was meant. -/
theorem decode_written (r : RequestText) (rest : Bytes) :
    HeadDecoder.decode (r.toHeadText.wire ++ rest) = (rest, .ok (some (r.head, r.body.size))) := by
  obtain ⟨uri, huri, hdecode⟩ := (r.reads_written rest).decode_eq
  rw [HeadText.parts, r.parsed] at huri
  cases huri
  rw [hdecode, r.ofFields_written]
  rfl

theorem bounded_written (r : RequestText) (rest : Bytes) :
    HeadDecoder.Bounded (r.toHeadText.wire ++ rest) := by
  intro fault hbad
  rw [HeadGrammar.head_written] at hbad
  cases hbad

/-- The request stands at the front of the stream. -/
theorem readHead_written (r : RequestText) {maxBody : Nat} (hfits : r.body.data.length ≤ maxBody)
    (rest : Bytes) : RequestDecoder.readHead maxBody (r.wire ++ rest) = .done r.request rest := by
  obtain ⟨ms, c, htakes, hended, hbytes, hdata⟩ := r.body.takes
  have hlimit : ({ maxBody } : RequestDecoder).overLimit r.body.size = none := by
    cases hbody : r.body with
    | none => rfl
    | chunked body => rfl
    | length data =>
      rw [hbody] at hfits
      rw [BodyText.size, BodySize.ofLength]
      split
      · rfl
      · exact if_neg (Nat.not_lt.2 hfits)
  have hscan := htakes.scan (hdata ▸ hfits : (Marked.data ms).length ≤ maxBody - 0) rest
  rw [BodyDecoder.scan_of_isEnded hended, hbytes, hdata] at hscan
  rw [RequestDecoder.readHead, wire, List.append_assoc, r.decode_written]
  simp only [hlimit]
  rw [RequestDecoder.readBody, hscan]
  simp [BodyDecoder.Scanned.behind, request]

def wires (rs : List RequestText) : Bytes := rs.flatMap wire

end RequestText

/-! ### Streams of requests -/

namespace RequestDecoder

/-- What is told, each event with the input that was not taken by then. -/
abbrev Telling := List (RequestEvent × Bytes)

/-- Events decoded one after another, while `future` is still to come. -/
def tell (future : Bytes) : Nat → RequestDecoder → Bytes →
    RequestDecoder × Bytes × Telling × Option RequestError
  | 0, d, src => (d, src, [], none)
  | fuel + 1, d, src =>
    match d.decode src with
    | (d, src, .error e) => (d, src, [], some e)
    | (d, src, .ok none) => (d, src, [], none)
    | (d, src, .ok (some event)) =>
      let (d', src', telling, error) := tell future fuel d src
      (d', src', (event, src ++ future) :: telling, error)

/-- These are the events that the decoder hands out. -/
theorem decodeAll_eq_tell (d : RequestDecoder) (src future : Bytes) :
    d.decodeAll src =
      match tell future (2 * src.length + 3) d src with
      | (d, src, telling, error) => (d, src, telling.map Prod.fst, error) := by
  have hall (n : Nat) (d : RequestDecoder) (src : Bytes) : decodeEvents n d src [] =
      match tell future n d src with
      | (d, src, telling, error) => (d, src, telling.map Prod.fst, error) := by
    induction n generalizing d src with
    | zero => rfl
    | succ n ih =>
      rcases hd : d.decode src with ⟨d', rest, e | _ | event⟩
      · simp [decodeEvents, tell, hd]
      · simp [decodeEvents, tell, hd]
      · simp only [decodeEvents, tell, hd]
        rw [decodeEvents_acc, ih]
        simp
  exact hall _ d src

/-- Input that comes in pieces: the decoder is called until it asks for more, piece by piece, up to
an error. -/
def tellPieces (d : RequestDecoder) (left : Bytes) :
    List Bytes → Telling × Option RequestError
  | [] => ([], none)
  | piece :: pieces =>
    match tell pieces.flatten (2 * (left ++ piece).length + 3) d (left ++ piece) with
    | (_, _, telling, some e) => (telling, some e)
    | (d, left, telling, none) =>
      let (more, error) := tellPieces d left pieces
      (telling ++ more, error)

open RequestText

/-- The requests are told in their order, each with its head, its body in some pieces, and its end,
and at its end it is taken in full and nothing of what follows. Of what stands behind them, anything
may be told. -/
inductive ToldOf (trailing : Bytes) : List RequestText → Telling → Prop
  | nil (telling : Telling) : ToldOf trailing [] telling
  | cons {rs : List RequestText} {telling : Telling} (r : RequestText) (unread : Bytes)
      (chunks : List (Bytes × Bytes)) : (chunks.map Prod.fst).flatten = r.body.data →
      ToldOf trailing rs telling →
      ToldOf trailing (r :: rs) ((.head r.head r.body.size, unread) ::
        (chunks.map fun c => (.body (.chunk c.1), c.2)) ++
          (.body .eof, wires rs ++ trailing) :: telling)

/-- The same event by event, with what is known of the request that is being told. -/
inductive Due (trailing : Bytes) : Option Request → List RequestText → Telling → Prop
  | ended (telling : Telling) : Due trailing none [] telling
  | head {rs : List RequestText} {telling : Telling} (r : RequestText) (unread : Bytes) :
      Due trailing (some { head := r.head }) (r :: rs) telling →
      Due trailing none (r :: rs) ((.head r.head r.body.size, unread) :: telling)
  | chunk {rs : List RequestText} {telling : Telling} (q : Request) (data unread : Bytes) :
      Due trailing (some { q with body := q.body ++ data }) rs telling →
      Due trailing (some q) rs ((.body (.chunk data), unread) :: telling)
  | eof {rs : List RequestText} {telling : Telling} (r : RequestText) :
      Due trailing none rs telling →
      Due trailing (some r.request) (r :: rs) ((.body .eof, wires rs ++ trailing) :: telling)

variable {trailing : Bytes} {rs : List RequestText} {telling : Telling}

/-- The rest of a request that is being told. -/
theorem Due.exists_chunks {q : Request} (h : Due trailing (some q) rs telling) :
    ∃ r rs', ∃ chunks : List (Bytes × Bytes), ∃ more, rs = r :: rs' ∧ telling =
        (chunks.map fun c => (.body (.chunk c.1), c.2)) ++
          (.body .eof, wires rs' ++ trailing) :: more ∧
      q.body ++ (chunks.map Prod.fst).flatten = r.body.data ∧ Due trailing none rs' more := by
  generalize hcurrent : some q = current at h
  induction h generalizing q with
  | ended | head => cases hcurrent
  | chunk _ data unread _ ih =>
    cases hcurrent
    obtain ⟨r, rs', chunks, more, hrs, rfl, hbody, hmore⟩ := ih rfl
    exact ⟨r, rs', (data, unread) :: chunks, more, hrs, rfl, by simpa using hbody, hmore⟩
  | eof r hmore =>
    cases hcurrent
    exact ⟨r, _, [], _, rfl, rfl, by simp [request], hmore⟩

theorem Due.toldOf (h : Due trailing none rs telling) : ToldOf trailing rs telling := by
  induction rs generalizing telling with
  | nil => exact .nil _
  | cons r rs ih =>
    cases h with
    | head _ unread hrest =>
      obtain ⟨r', rs', chunks, more, hrs, rfl, hbody, hmore⟩ := hrest.exists_chunks
      cases hrs
      exact .cons r unread chunks hbody (ih hmore)

/-- Where the decoder is in the stream: `src` is there, and `future` is still to come. -/
inductive Midst (maxBody : Nat) (trailing : Bytes) (d : RequestDecoder) (src future : Bytes) :
    Option Request → List RequestText → Prop
  | ended : Midst maxBody trailing d src future none []
  | due {current : Option Request} {rs : List RequestText} (r : RequestText) :
      Stands maxBody d current →
      reading d current (src ++ future) = .done r.request (wires rs ++ trailing) →
      (current = none → src ++ future = r.wire ++ (wires rs ++ trailing)) →
      Midst maxBody trailing d src future current (r :: rs)

variable {maxBody : Nat} {d : RequestDecoder} {src future : Bytes} {current : Option Request}

theorem midst_of_stands (hd : Stands maxBody d none)
    (hfits : ∀ r ∈ rs, r.body.data.length ≤ maxBody)
    (hstream : src ++ future = wires rs ++ trailing) :
    Midst maxBody trailing d src future none rs := by
  cases rs with
  | nil => exact .ended
  | cons r rs =>
    have hsplit : src ++ future = r.wire ++ (wires rs ++ trailing) := by
      rw [hstream, wires, List.flatMap_cons, List.append_assoc]
      rfl
    refine .due r hd ?_ fun _ => hsplit
    rw [hsplit, ← r.readHead_written (hfits r (by simp))]
    cases hd
    rfl

/-- What calls come to that tell what is due, and leave the rest of it due. -/
def Keeps (maxBody : Nat) (trailing future : Bytes) (current : Option Request)
    (rs : List RequestText) : RequestDecoder × Bytes × Telling × Option RequestError → Prop
  | (d, left, telling, error) => ∃ current' rs', rs' <:+ rs ∧
      Midst maxBody trailing d left future current' rs' ∧
      (rs' ≠ [] → error = none ∧ reading d current' left = .more) ∧
      ∀ more, Due trailing current' rs' more → Due trailing current rs (telling ++ more)

/-- One more event in front. -/
theorem Keeps.cons {rs' : List RequestText} {current' : Option Request}
    {r : RequestDecoder × Bytes × Telling × Option RequestError} {told : RequestEvent × Bytes}
    (h : Keeps maxBody trailing future current' rs' r) (hsuffix : rs' <:+ rs)
    (hdue : ∀ more, Due trailing current' rs' more → Due trailing current rs (told :: more)) :
    Keeps maxBody trailing future current rs (r.1, r.2.1, told :: r.2.2.1, r.2.2.2) := by
  obtain ⟨current'', rs'', hsuffix', hmidst, herror, hmore⟩ := h
  exact ⟨current'', rs'', hsuffix'.trans hsuffix, hmidst, herror,
    fun more hrest => hdue _ (hmore more hrest)⟩

/-- The calls on a piece tell what is due, and leave the rest of it due. -/
theorem Midst.tell {n : Nat} (h : Midst maxBody trailing d src future current rs)
    (hfits : ∀ r ∈ rs, r.body.data.length ≤ maxBody)
    (hn : 2 * src.length + (if current.isSome then 1 else 0) < n) :
    Keeps maxBody trailing future current rs (tell future n d src) := by
  induction n generalizing d src current rs with
  | zero => exact absurd hn (Nat.not_lt_zero _)
  | succ n ih =>
    cases h with
    | ended =>
      exact ⟨none, [], List.suffix_refl _, .ended, fun h => absurd rfl h, fun _ _ => .ended _⟩
    | @due current rs r hd hreading hstream =>
      have hbounded (hnone : current = none) : HeadDecoder.Bounded (src ++ future) := by
        rw [hstream hnone, wire, List.append_assoc]
        exact r.bounded_written _
      have htells := tells_decode hd hbounded
      rw [hreading] at htells
      rcases hcall : d.decode src with ⟨d', rest, e | _ | event⟩
      all_goals rw [hcall] at htells
      · cases htells with
        | fail _ _ _ hrefused => cases hrefused
      · simp only [RequestDecoder.tell, hcall]
        cases htells with
        | wait _ _ _ hsame hd' hbefore hmore =>
          refine ⟨current, r :: rs, List.suffix_refl _, .due r hd' hbefore.symm fun hnone => ?_,
            fun _ => ⟨rfl, hmore⟩, fun _ hdue => hdue⟩
          rw [hsame hnone, hstream hnone]
      · simp only [RequestDecoder.tell, hcall]
        cases htells with
        | head _ head size _ hnone _ hdecode _ hshort hd' hbefore =>
          subst hnone
          rw [hstream rfl, wire, List.append_assoc, r.decode_written] at hdecode
          simp only [Prod.mk.injEq, Except.ok.injEq, Option.some.injEq] at hdecode
          obtain ⟨-, rfl, rfl⟩ := hdecode
          have hrest := ih (.due r hd' hbefore.symm nofun) hfits
            (show 2 * rest.length + 1 < n by simp at hn; omega)
          exact hrest.cons (List.suffix_refl _) fun _ hdue => .head r _ hdue
        | chunk q _ data _ hsome _ hshort hd' hbefore =>
          subst hsome
          have hrest := ih (.due r hd' hbefore.symm nofun) hfits
            (show 2 * rest.length + 1 < n by simp at hn; omega)
          exact hrest.cons (List.suffix_refl _) fun _ hdue => .chunk q data _ hdue
        | eof q _ _ hsome hsuffix hd' hbefore =>
          subst hsome
          obtain ⟨rfl, hunread⟩ := Reading.done.inj hbefore
          have hlen := hsuffix.length_le
          have hfits' : ∀ r ∈ rs, r.body.data.length ≤ maxBody := fun x hx => hfits x (by simp [hx])
          have hrest := ih (midst_of_stands hd' hfits' hunread.symm) hfits'
            (show 2 * rest.length + 0 < n by simp at hn; omega)
          rw [← hunread]
          exact hrest.cons (List.suffix_cons _ _) fun _ hdue => .eof r hdue

/-- At the end of the last piece nothing is due any more. -/
theorem Midst.tellPieces {pieces : List Bytes} {left : Bytes}
    (h : Midst maxBody trailing d left pieces.flatten current rs)
    (hfits : ∀ r ∈ rs, r.body.data.length ≤ maxBody)
    (hmore : rs ≠ [] → reading d current left = .more) :
    Due trailing current rs (tellPieces d left pieces).1 := by
  induction pieces generalizing d left current rs with
  | nil =>
    cases h with
    | ended => exact .ended _
    | due r _ hreading =>
      rw [List.flatten_nil, List.append_nil, hmore (by simp)] at hreading
      cases hreading
  | cons piece pieces ih =>
    have hpiece : Midst maxBody trailing d (left ++ piece) pieces.flatten current rs := by
      cases h with
      | ended => exact .ended
      | due r hd hreading hstream =>
        rw [List.flatten_cons, ← List.append_assoc] at hreading hstream
        exact .due r hd hreading hstream
    have htell := hpiece.tell (n := 2 * (left ++ piece).length + 3) hfits (by split <;> omega)
    simp only [RequestDecoder.tellPieces]
    rcases hcall : RequestDecoder.tell pieces.flatten (2 * (left ++ piece).length + 3) d
      (left ++ piece) with ⟨d', left', telling, error⟩
    rw [hcall] at htell
    obtain ⟨current', rs', hsuffix, hmidst, herror, hdue⟩ := htell
    cases error with
    | some e =>
      -- an error is met behind the requests only
      have hnone : rs' = [] := by
        by_contra hsome
        cases (herror hsome).1
      subst hnone
      cases hmidst
      simpa using hdue [] (.ended _)
    | none =>
      exact hdue _ (ih hmidst (fun r hr => hfits r (hsuffix.subset hr))
        fun hsome => (herror hsome).2)

/-- Requests written one behind another are decoded one by one, whatever stands behind them and
however all of it is cut: each with the method, the target and the version that it was written with
and the fields of its lines, with its body in some pieces, and with one end, at which it was taken
in full and nothing of what follows. -/
theorem requests_round_trip (maxBody : Nat) (rs : List RequestText) (trailing : Bytes)
    (pieces : List Bytes) (hfits : ∀ r ∈ rs, r.body.data.length ≤ maxBody)
    (hpieces : pieces.flatten = wires rs ++ trailing) :
    ToldOf trailing rs (tellPieces { maxBody } [] pieces).1 ∧
      ∀ r ∈ rs, r.target.head? = some 0x2F → 0x23 ∉ r.target → r.head.uri.toBytes = r.target := by
  have hmidst : Midst maxBody trailing { maxBody } [] pieces.flatten none rs :=
    midst_of_stands (.between 0) hfits hpieces
  exact ⟨(hmidst.tellPieces hfits fun _ => rfl).toldOf, fun r _ => Uri.toBytes_of_parse r.parsed⟩

/-! ### Three requests -/

/-- A field line as most clients write it. -/
def plainField (name value : String) (h : Bytes.ofString name ≠ [] ∧
    (∀ b ∈ Bytes.ofString name, isToken b) ∧ (∀ b ∈ Bytes.ofString value, isFieldValue b) ∧
    trim isBlank (Bytes.ofString value) = Bytes.ofString value) : FieldText where
  name := Bytes.ofString name
  before := [0x20]
  value := Bytes.ofString value
  after := []
  eol := .crlf
  named := h.1
  token := h.2.1
  blankBefore := List.forall_mem_singleton.2 rfl
  blankAfter := Chunked.blank_nil
  shown := h.2.2.1
  trimmed := h.2.2.2

/-- A request to the root with these fields. -/
def plainHead (method : String) (fields : List FieldText) (h : Bytes.ofString method ≠ [] ∧
    (∀ b ∈ Bytes.ofString method, isToken b) ∧ fields.length ≤ HeadDecoder.maxFields) :
    HeadText where
  emptyLines := [.crlf]
  method := Bytes.ofString method
  target := [0x2F]
  uri := { pathPart := [0x2F] }
  version := .v11
  eol := .crlf
  fields := fields
  lastEol := .lf
  named := h.1
  token := h.2.1
  aimed := by simp
  visible := List.forall_mem_singleton.2 rfl
  text := by decide +kernel
  parsed := by decide +kernel
  known := .inr rfl
  few := h.2.2

/-- Two bytes in one chunk, with an extension and a trailer line. -/
def twoInChunks : Chunked.Coded where
  chunks := [{
    data := [0x61, 0x62]
    line := {
      digits := [0x32]
      blanks := [0x20]
      ext := some (Bytes.ofString "x=y")
      spells := .single (Chunked.hexDigit?_eq_some_iff.1 rfl)
      fits := by decide
      blank := List.forall_mem_singleton.2 rfl
      plain := by
        rintro _ ⟨⟩
        unfold Chunked.IsPlain
        decide +kernel }
    filled := by simp }]
  last := Chunked.zeroLine
  trailer := [Bytes.ofString "a: b"]
  lines := by
    unfold Chunked.IsPlain
    decide +kernel

def threeRequests : List RequestText := [
  { plainHead "GET" [] (by decide +kernel) with
    body := .none
    announced := by
      unfold BodyText.AnnouncedBy
      decide +kernel
    short := by decide +kernel },
  { plainHead "PUT" [plainField "Content-Length" "03" (by decide +kernel)] (by decide +kernel) with
    body := .length [0x78, 0x79, 0x7A]
    announced := by
      unfold BodyText.AnnouncedBy Spells
      decide +kernel
    short := by decide +kernel },
  { plainHead "PUT" [plainField "Transfer-Encoding" "Chunked" (by decide +kernel)]
      (by decide +kernel) with
    body := .chunked twoInChunks
    announced := by
      simp only [BodyText.AnnouncedBy, ← BodySize.endsChunked_iff]
      decide +kernel
    short := by decide +kernel }]

theorem requests_round_trip_three : (∀ r ∈ threeRequests, r.body.data.length ≤ 3) ∧
    ToldOf [0x0D, 0xFF] threeRequests (tellPieces { maxBody := 3 } []
      ((wires threeRequests ++ [0x0D, 0xFF]).map fun b => [b])).1 := by
  have hfits : ∀ r ∈ threeRequests, r.body.data.length ≤ 3 := by decide +kernel
  exact ⟨hfits, (requests_round_trip 3 threeRequests [0x0D, 0xFF] _ hfits
    (by rw [← List.flatMap_def]; simp)).1⟩

end RequestDecoder

end WireServer.Http
