import WireServer.Http.Pending
import WireServer.Proofs.Http.ChunkedGrammar
import WireServer.Proofs.Http.FieldList

/-! Finished responses frame themselves: whatever parts a response was given in, its bytes are one
head and a payload, and the head tells a reader where the payload ends. -/

namespace WireServer.Http

/-! ### Numbers as they are written -/

/-- The digits of a number, most significant first. -/
theorem exists_toDigits {b : Nat} (hb : 1 < b) (n : Nat) : ∃ values : List Nat,
    Nat.toDigits b n = values.map Nat.digitChar ∧ values ≠ [] ∧ (∀ v ∈ values, v < b) ∧
      Nat.ofDigits b values.reverse = n := by
  induction n using Nat.strong_induction_on with
  | _ n ih =>
    by_cases hlast : n < b
    · exact ⟨[n], Nat.toDigits_of_lt_base hlast, by simp, by simpa using hlast, by simp⟩
    · have hpos : 0 < n := by omega
      obtain ⟨values, hdigits, -, hvalues, hn⟩ := ih (n / b) (Nat.div_lt_self hpos hb)
      refine ⟨values ++ [n % b], ?_, by simp, ?_, ?_⟩
      · rw [Nat.toDigits_of_base_le hb (Nat.le_of_not_lt hlast), hdigits, List.map_append]
        rfl
      · have hmod := Nat.mod_lt n (Nat.lt_trans Nat.zero_lt_one hb)
        simpa [or_imp, forall_and, hmod] using hvalues
      · rw [List.reverse_append, List.reverse_singleton, List.singleton_append, Nat.ofDigits_cons,
          hn]
        exact Nat.mod_add_div n b

/-- The bytes of ASCII text. -/
theorem Bytes.ofString_ofList {cs : List Char} (h : ∀ c ∈ cs, c.toNat ≤ 127) :
    Bytes.ofString (String.ofList cs) = cs.map fun c => UInt8.ofNat c.toNat := by
  have hbytes : Bytes.ofString (String.ofList cs) = cs.flatMap String.utf8EncodeChar := by
    simp [Bytes.ofString, List.utf8Encode]
  rw [hbytes, List.map_eq_flatMap]
  refine List.flatMap_congr fun c hc => ?_
  exact if_pos (h c hc)

theorem spells_toString (n : Nat) : Spells (Bytes.ofString (toString n)) n := by
  obtain ⟨values, hdigits, hne, hvalues, hn⟩ := exists_toDigits (b := 10) (by decide) n
  have hdigit : ∀ v < 10, (Nat.digitChar v).toNat ≤ 127 ∧
      isDigit (UInt8.ofNat (Nat.digitChar v).toNat) ∧
      (UInt8.ofNat (Nat.digitChar v).toNat).toNat - 48 = v := by
    decide +kernel
  have htext : Bytes.ofString (toString n) =
      values.map fun v => UInt8.ofNat (Nat.digitChar v).toNat := by
    rw [Nat.toString_eq_repr, Nat.repr_eq_ofList_toDigits, hdigits, Bytes.ofString_ofList,
      List.map_map]
    · rfl
    · intro c hc
      obtain ⟨v, hv, rfl⟩ := List.mem_map.1 hc
      exact (hdigit v (hvalues v hv)).1
  rw [htext]
  refine ⟨by simpa using hne, ?_, ?_⟩
  · intro b hb
    obtain ⟨v, hv, rfl⟩ := List.mem_map.1 hb
    exact (hdigit v (hvalues v hv)).2.1
  · rw [← List.map_reverse, List.map_map, List.map_congr_left (g := id), List.map_id, hn]
    intro v hv
    exact (hdigit v (hvalues v (List.mem_reverse.1 hv))).2.2

namespace Chunked

/-- The size in front of a chunk that is sent is a size line of the grammar. -/
def sentLine (n : Nat) (hfits : n < 2 ^ 64) : SizeLine n where
  digits := (Nat.toDigits 16 n).map fun c => UInt8.ofNat c.toUpper.toNat
  blanks := []
  ext := none
  spells := by
    obtain ⟨values, hdigits, hne, hvalues, hn⟩ := exists_toDigits (b := 16) (by decide) n
    have hdigit : ∀ v < 16, HexDigit (UInt8.ofNat (Nat.digitChar v).toUpper.toNat) v := by
      unfold HexDigit
      decide +kernel
    rw [hdigits, List.map_map]
    refine ⟨by simpa using hne, values, ?_, hn⟩
    rw [List.forall₂_map_left_iff, List.forall₂_same]
    exact fun v hv => hdigit v (hvalues v hv)
  fits := hfits
  blank := blank_nil
  plain := plain_none

theorem sentLine_text (n : Nat) (hfits : n < 2 ^ 64) :
    (sentLine n hfits).text ++ crlf = sizeLine n := by
  simp [SizeLine.text, sentLine, extension, sizeLine, crlf]

/-- What is sent for a piece of data. -/
def sentPiece (data : Bytes) : Bytes :=
  if data.isEmpty then [] else sizeLine data.length ++ data ++ chunkEnd

/-- The pieces and the last chunk are a body of the grammar. -/
theorem exists_coded_sent {pieces : List Bytes} (hfits : ∀ data ∈ pieces, data.length < 2 ^ 64) :
    ∃ body : Coded, body.wire = pieces.flatMap sentPiece ++ lastChunk ∧
      body.data = pieces.flatten := by
  induction pieces with
  | nil => exact ⟨.ofChunks [], by decide +kernel, rfl⟩
  | cons data pieces ih =>
    rw [List.forall_mem_cons] at hfits
    obtain ⟨body, hwire, hdata⟩ := ih hfits.2
    by_cases hnone : data = []
    · subst hnone
      exact ⟨body, by simpa [sentPiece] using hwire, by simpa using hdata⟩
    · have hsent :
          sentPiece data = (sentLine data.length hfits.1).text ++ crlf ++ data ++ crlf := by
        rw [sentPiece, if_neg (by simpa using hnone), sentLine_text]
        rfl
      refine ⟨⟨⟨data, sentLine data.length hfits.1, hnone⟩ :: body.chunks, body.last, body.trailer,
        body.lines⟩, ?_, ?_⟩
      · rw [List.flatMap_cons, hsent, List.append_assoc, ← hwire]
        simp [Coded.wire]
      · rw [List.flatten_cons, ← hdata]
        simp [Coded.data]

end Chunked

/-! ### What a reader is told -/

namespace ResponseHead

/-- How the lines of a head tell where the payload behind it ends, and which data it carries: there
is no payload, or it has the length that one line spells, or it is in chunks. -/
inductive Delimits (version : Version) (status : Status) (lines : List (Bytes × Bytes))
    (payload data : Bytes) : Prop
  | bodyless : status.allowsBody = false → framingLines lines = [] → payload = [] →
      Delimits version status lines payload data
  | length (value : Bytes) : status.allowsBody → framingLines lines = [(contentLength, value)] →
      Spells value payload.length → payload = data → Delimits version status lines payload data
  | chunked : status.allowsBody → version = .v11 →
      framingLines lines = [(transferEncoding, Bytes.ofString "chunked")] →
      (∀ more pieces, pieces.flatten = payload ++ more → ∃ d, ∃ chunks : List Bytes,
        BodyDecoder.readPieces (.chunked {}) [] pieces =
          (d, more, chunks.map .chunk ++ [.eof], none) ∧ chunks.flatten = data) →
      Delimits version status lines payload data

/-- The bytes are one head and a payload that it delimits. -/
def FramesItself (version : Version) (status : Status) (wire data : Bytes) : Prop :=
  ∃ lines payload, wire = statusLine version status ++ lines.flatMap fieldLine ++ [0x0D, 0x0A] ++
      payload ∧
    (∀ line ∈ lines, Fields.LegalName line.1 ∧ line.2.all isFieldValue) ∧
    Delimits version status lines payload data

theorem digits_fieldValue {digits : Bytes} {n : Nat} (h : Spells digits n) :
    digits.all isFieldValue := by
  refine List.all_eq_true.2 fun b hb => ?_
  have hdigit := h.2.1 b hb
  simp only [isDigit, isFieldValue, Bool.or_eq_true, Bool.and_eq_true, decide_eq_true_eq,
    UInt8.le_iff_toNat_le, UInt8.reduceToNat] at hdigit ⊢
  omega

/-- A head that is written with the framing of what follows it. -/
theorem framesItself_of_wire {r : ResponseHead} (hlegal : r.fields.Legal) {size : BodySize}
    {payload data : Bytes}
    (hdelimits : Delimits r.version r.status (r.framed size).toList payload data) :
    FramesItself r.version r.status (r.wire size ++ payload) data := by
  refine ⟨(r.framed size).toList, payload, ?_, fun line hline => ?_, hdelimits⟩
  · rw [wire, ← List.flatMap_def]
  · exact (legal_framed hlegal size fun n _ => digits_fieldValue (spells_toString n)).line hline

end ResponseHead

/-! ### Parts -/

namespace Pending

open ResponseHead

variable {π : Type} {p : Pending π}

/-- The parts in order, all of which have to be accepted. -/
def applyAll (p : Pending π) (parts : List Part) : Except Misfit (Pending π) :=
  parts.foldlM apply p

/-- The parts of a finished response, with the head that was supplied and the pieces of the body. -/
inductive Finishes : List Part → ResponseHead → List Bytes → Prop
  | full (r : Response) : Finishes [.full r] r.head [r.body]
  | pieces (head : ResponseHead) (pieces : List Bytes) :
      Finishes (.head head :: pieces.map .data ++ [.finish]) head pieces

theorem legal_connectionFields {head : ResponseHead} (hlegal : head.fields.Legal) :
    (p.connectionFields head).Legal := by
  have hname : Fields.LegalName connection := by refine ⟨?_, ?_, ?_⟩ <;> decide +kernel
  unfold connectionFields
  split
  · exact hlegal
  split
  · exact hlegal.insert hname (by decide +kernel)
  split
  · exact hlegal.insert hname (by decide +kernel)
  · exact hlegal

/-- The head goes out behind what was out, with the framing of `size`. -/
theorem exists_pushHead {head : ResponseHead} (hlegal : head.fields.Legal) (size : BodySize) :
    ∃ fields : Fields, fields.Legal ∧ (p.pushHead head size).out.toBytes =
        p.out.toBytes ++ { head with version := p.version, fields }.wire size ∧
      (p.pushHead head size).sendsBody = p.sendsBody := by
  unfold pushHead push
  split
  · exact ⟨_, legal_connectionFields (p := { p with keepAlive := false }) hlegal,
      Net.Chain.toBytes_push _ _, rfl⟩
  · exact ⟨_, legal_connectionFields hlegal, Net.Chain.toBytes_push _ _, rfl⟩

theorem toBytes_pushBody (p : Pending π) (body : Bytes) : (p.pushBody body).out.toBytes =
    p.out.toBytes ++ if p.sendsBody then body else [] := by
  unfold pushBody
  by_cases hsends : p.sendsBody
  · by_cases hnone : body = [] <;> simp [hsends, hnone, push]
  · simp [hsends]

theorem applyAll_data_chunks (hstage : p.stage = .chunks) (pieces : List Bytes) :
    ∃ q, p.applyAll (pieces.map .data) = .ok q ∧ q.stage = .chunks ∧
      q.sendsBody = p.sendsBody ∧ q.out.toBytes =
        p.out.toBytes ++ if p.sendsBody then pieces.flatMap Chunked.sentPiece else [] := by
  induction pieces generalizing p with
  | nil => exact ⟨p, rfl, hstage, rfl, by simp⟩
  | cons data pieces ih =>
    let next := if p.sendsBody && !data.isEmpty then p.pushChunk data else p
    have hfirst : p.apply (.data data) = .ok next := by simp [apply, applyData, hstage, next]
    have hnext : next.stage = .chunks ∧ next.sendsBody = p.sendsBody ∧ next.out.toBytes =
        p.out.toBytes ++ if p.sendsBody then Chunked.sentPiece data else [] := by
      by_cases hsends : p.sendsBody <;> by_cases hnone : data = [] <;>
        simp [next, hsends, hnone, hstage, pushChunk, push, Chunked.sentPiece]
    obtain ⟨q, hq, hqstage, hqsends, hqout⟩ := ih hnext.1
    refine ⟨q, ?_, hqstage, hqsends.trans hnext.2.1, ?_⟩
    · simp only [applyAll, List.map_cons, List.foldlM_cons, hfirst]
      exact hq
    · rw [hqout, hnext.2.1, hnext.2.2]
      by_cases hsends : p.sendsBody <;> simp [hsends]

theorem applyAll_data_gathering {head : ResponseHead} {body : Bytes}
    (hstage : p.stage = .gathering head body) (pieces : List Bytes) :
    p.applyAll (pieces.map .data) = .ok { p with
      stage := .gathering head (body ++ if p.sendsBody then pieces.flatten else []) } := by
  induction pieces generalizing p body with
  | nil =>
    simp only [applyAll, List.map_nil, List.foldlM_nil, List.flatten_nil, ite_self,
      List.append_nil, ← hstage]
    rfl
  | cons data pieces ih =>
    by_cases hsends : p.sendsBody
    · have hfirst : p.apply (.data data) =
          .ok { p with stage := .gathering head (body ++ data) } := by
        simp [apply, applyData, hstage, hsends]
      have hrest := ih (p := { p with stage := .gathering head (body ++ data) }) rfl
      simp only [applyAll, hsends, if_true] at hrest
      simp only [applyAll, List.map_cons, List.foldlM_cons, hfirst, hsends, if_true,
        List.flatten_cons]
      rw [← List.append_assoc]
      exact hrest
    · have hfirst : p.apply (.data data) = .ok p := by
        simp [apply, applyData, hstage, hsends]
      have hrest := ih hstage
      simp only [applyAll, hsends] at hrest
      simp only [applyAll, List.map_cons, List.foldlM_cons, hfirst, hsends]
      exact hrest

/-- A head that announces the length of the body behind it. -/
theorem delimits_length {r : ResponseHead} (hlegal : r.fields.Legal) {body data : Bytes}
    (hdata : r.status.allowsBody → body = data) :
    Delimits r.version r.status (r.framed (.ofLength body.length)).toList
      (if r.status.allowsBody then body else []) data := by
  obtain ⟨hbody, hnone⟩ := framingLines_framed hlegal
  cases hallows : r.status.allowsBody with
  | false => exact .bodyless hallows (hnone hallows _) rfl
  | true => exact .length _ hallows ((hbody hallows).1 _) (spells_toString _) (hdata hallows)

/-- A head in front of a body in chunks. -/
theorem delimits_chunked {r : ResponseHead} (hlegal : r.fields.Legal) (hversion : r.version = .v11)
    {pieces : List Bytes} (hfits : ∀ data ∈ pieces, data.length < 2 ^ 64) :
    Delimits r.version r.status (r.framed .chunked).toList
      (if r.status.allowsBody then pieces.flatMap Chunked.sentPiece ++ Chunked.lastChunk else [])
      pieces.flatten := by
  obtain ⟨hbody, hnone⟩ := framingLines_framed hlegal
  cases hallows : r.status.allowsBody with
  | false => exact .bodyless hallows (hnone hallows _) rfl
  | true =>
    obtain ⟨body, hwire, hdata⟩ := Chunked.exists_coded_sent hfits
    refine .chunked hallows hversion (hbody hallows).2 fun more cut hcut => ?_
    rw [if_pos rfl, ← hwire] at hcut
    rw [← hdata]
    exact body.read_back hcut

/-- The first part and the last one, and the data between them. -/
theorem applyAll_finish {head : ResponseHead} {pieces : List Bytes} (begun : Pending π)
    {q r : Pending π}
    (hfirst : p.apply (.head head) = .ok begun) (hdata : begun.applyAll (pieces.map .data) = .ok q)
    (hlast : q.apply .finish = .ok r) :
    p.applyAll (.head head :: pieces.map .data ++ [.finish]) = .ok r := by
  simp only [applyAll] at hdata
  simp only [applyAll, List.cons_append, List.foldlM_cons, List.foldlM_append, hfirst]
  show ((pieces.map Part.data).foldlM apply begun).bind (fun q => [Part.finish].foldlM apply q) = _
  rw [hdata]
  show q.apply .finish >>= pure = _
  rw [bind_pure, hlast]

section Finished

variable (hstage : p.stage = .waiting) (hhead : p.headOnly = false) (hout : p.out.toBytes = [])

include hstage hhead hout

theorem full_framesItself (r : Response) (hlegal : r.head.fields.Legal) : ∃ q,
    p.applyAll [.full r] = .ok q ∧ q.isComplete ∧
      FramesItself p.version r.head.status q.out.toBytes r.body := by
  let begun := (p.begin r.head.status).pushHead r.head (.ofLength r.body.length)
  obtain ⟨fields, hfields, hbegun, hsends⟩ :=
    exists_pushHead (p := p.begin r.head.status) hlegal (.ofLength r.body.length)
  have hallows : begun.sendsBody = r.head.status.allowsBody := hsends.trans (by simp [begin, hhead])
  have hfront : begun.out.toBytes =
      { r.head with version := p.version, fields }.wire (.ofLength r.body.length) :=
    hbegun.trans (by simp [begin, hout])
  refine ⟨{ begun.pushBody r.body with stage := .complete }, ?_, rfl, ?_⟩
  · simp only [applyAll, List.foldlM_cons, List.foldlM_nil, apply, hstage]
    rfl
  · show FramesItself _ _ (begun.pushBody r.body).out.toBytes _
    rw [toBytes_pushBody, hallows, hfront]
    exact framesItself_of_wire hfields
      (delimits_length (r := { r.head with version := p.version, fields }) hfields fun _ => rfl)

/-- A response in pieces that goes out in chunks. -/
theorem chunks_framesItself (haccepts : p.acceptsChunked) (hversion : p.version = .v11)
    (head : ResponseHead) (hlegal : head.fields.Legal) {pieces : List Bytes}
    (hfits : ∀ data ∈ pieces, data.length < 2 ^ 64) : ∃ q,
    p.applyAll (.head head :: pieces.map .data ++ [.finish]) = .ok q ∧ q.isComplete ∧
      FramesItself p.version head.status q.out.toBytes pieces.flatten := by
  let begun := { (p.begin head.status).pushHead head .chunked with stage := .chunks }
  obtain ⟨fields, hfields, hbegun, hsends⟩ :=
    exists_pushHead (p := p.begin head.status) hlegal .chunked
  obtain ⟨q, hq, hqstage, hqsends, hqout⟩ := applyAll_data_chunks (p := begun) rfl pieces
  have hallows : begun.sendsBody = head.status.allowsBody := hsends.trans (by simp [begin, hhead])
  have hfront : begun.out.toBytes = { head with version := p.version, fields }.wire .chunked :=
    hbegun.trans (by simp [begin, hout])
  have hwire : (if q.sendsBody then q.push Chunked.lastChunk else q).out.toBytes =
      { head with version := p.version, fields }.wire .chunked ++
        if head.status.allowsBody then pieces.flatMap Chunked.sentPiece ++ Chunked.lastChunk
        else [] := by
    rw [hqsends, hallows]
    rw [hallows, hfront] at hqout
    by_cases hsome : head.status.allowsBody <;> simp [hsome, push, hqout]
  refine ⟨{ (if q.sendsBody then q.push Chunked.lastChunk else q) with stage := .complete },
    applyAll_finish begun ?_ hq ?_, rfl, ?_⟩
  · simp [apply, hstage, applyHead, begin, haccepts, begun]
  · rw [apply, applyFinish, hqstage]
  · show FramesItself _ _ (if q.sendsBody then q.push Chunked.lastChunk else q).out.toBytes _
    rw [hwire]
    exact framesItself_of_wire hfields
      (delimits_chunked (r := { head with version := p.version, fields }) hfields hversion hfits)

/-- A response in pieces of which nothing goes out until its length is known. -/
theorem gathered_framesItself (haccepts : p.acceptsChunked = false) (head : ResponseHead)
    (hlegal : head.fields.Legal) (pieces : List Bytes) : ∃ q,
    p.applyAll (.head head :: pieces.map .data ++ [.finish]) = .ok q ∧ q.isComplete ∧
      FramesItself p.version head.status q.out.toBytes pieces.flatten := by
  let begun := { p.begin head.status with stage := .gathering head [] }
  let body := if begun.sendsBody then pieces.flatten else []
  let gathered := { begun with stage := .gathering head body }
  have hdata : begun.applyAll (pieces.map .data) = .ok gathered :=
    applyAll_data_gathering (p := begun) rfl pieces
  have hallows : gathered.sendsBody = head.status.allowsBody := by
    simp [gathered, begun, begin, hhead]
  obtain ⟨fields, hfields, hout', hsends⟩ :=
    exists_pushHead (p := gathered) hlegal (.ofLength body.length)
  refine ⟨{ (gathered.pushHead head (.ofLength body.length)).pushBody body with
    stage := .complete }, applyAll_finish begun ?_ hdata rfl, rfl, ?_⟩
  · simp [apply, hstage, applyHead, begin, haccepts, begun]
  · show FramesItself _ _ ((gathered.pushHead head _).pushBody body).out.toBytes _
    rw [toBytes_pushBody, hsends, hallows, hout']
    have hnone : gathered.out.toBytes = [] := hout
    rw [hnone, List.nil_append]
    exact framesItself_of_wire hfields
      (delimits_length (r := { head with version := p.version, fields }) hfields
        fun hsome => if_pos (hallows.trans hsome))

end Finished

/-- Every finished response frames itself. A request that did not ask for the head alone is
answered, in one part or in many, with any status and any fields. Then the bytes are one head and a
payload. A status without a body has neither framing line nor payload; else there is one framing
line, with the length of the payload, which is the data, or with chunks, but those for HTTP/1.1
only, which read back as the data and take no byte behind them. As in any memory, no piece has
2 ^ 64 bytes. -/
theorem finished_framesItself (slot : Nat) (r : RequestHead) (keepAlive : Bool) (parts : List Part)
    (head : ResponseHead) (pieces : List Bytes) (hhead : r.isMethod "HEAD" = false)
    (hparts : Finishes parts head pieces) (hlegal : head.fields.Legal)
    (hfits : ∀ data ∈ pieces, data.length < 2 ^ 64) :
    ∃ q, (ofRequest slot r keepAlive : Pending π).applyAll parts = .ok q ∧ q.isComplete ∧
      FramesItself r.version head.status q.out.toBytes pieces.flatten := by
  cases hparts with
  | full full =>
    rw [show [full.body].flatten = full.body by simp]
    exact full_framesItself (p := ofRequest slot r keepAlive) rfl hhead rfl full hlegal
  | pieces =>
    cases haccepts : r.acceptsChunked with
    | true =>
      exact chunks_framesItself (p := ofRequest slot r keepAlive) rfl hhead rfl haccepts
        (of_decide_eq_true haccepts) head hlegal hfits
    | false =>
      exact gathered_framesItself (p := ofRequest slot r keepAlive) rfl hhead rfl haccepts head
        hlegal pieces

def plainGet : RequestHead := ⟨Bytes.ofString "GET", { pathPart := [0x2F] }, .v11, {}⟩

/-- A head with framing lines of its own. -/
def misleadingHead : ResponseHead where
  fields := .ofList [(Bytes.ofString "Content-Length", Bytes.ofString "9"),
    (Bytes.ofString "Transfer-Encoding", Bytes.ofString "gzip"),
    (Bytes.ofString "content-length", Bytes.ofString "7")]

theorem finished_framesItself_misleading : plainGet.isMethod "HEAD" = false ∧
    misleadingHead.fields.Legal ∧ ∃ q : Pending Unit,
      (ofRequest 3 plainGet true).applyAll
        [.head misleadingHead, .data [0x61, 0x62], .data [], .data [0x63], .finish] = .ok q ∧
      q.isComplete ∧ FramesItself .v11 200 q.out.toBytes [0x61, 0x62, 0x63] := by
  have hlegal : misleadingHead.fields.Legal :=
    ⟨by decide +kernel, by decide +kernel, by decide +kernel⟩
  refine ⟨by decide +kernel, hlegal, ?_⟩
  exact finished_framesItself 3 plainGet true _ misleadingHead [[0x61, 0x62], [], [0x63]]
    (by decide +kernel) (.pieces misleadingHead [[0x61, 0x62], [], [0x63]]) hlegal (by decide)

end Pending

end WireServer.Http
