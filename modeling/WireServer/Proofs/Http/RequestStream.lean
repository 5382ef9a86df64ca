import WireServer.Http.Session
import WireServer.Proofs.Http.BodyBytes

/-! The requests of a byte stream. What stands at the front of a stream is a request, the start of
one, or something to refuse, and each call of the decoder on a part of the stream keeps that as it
is. So it does not matter how the stream is cut. -/

namespace WireServer.Http

/-! ### Bodies with a limit -/

namespace BodyDecoder

/-- What a stream holds of a body: the rest of its data and what follows, or not all of it, or a
byte that breaks the coding, or more data than there is room for. -/
inductive Scanned where
  | done (data rest : Bytes)
  | more
  | bad
  | tooLarge
  deriving DecidableEq, Inhabited, Repr

/-- With some data in front. -/
def Scanned.behind (data : Bytes) : Scanned → Scanned
  | .done data' rest => .done (data ++ data') rest
  | s => s

@[simp] theorem Scanned.behind_nil (s : Scanned) : s.behind [] = s := by cases s <;> rfl

theorem Scanned.behind_behind (xs ys : Bytes) (s : Scanned) :
    (s.behind ys).behind xs = s.behind (xs ++ ys) := by
  cases s <;> simp [behind]

def scan (b : BodyDecoder) (room : Nat) : Bytes → Scanned
  | [] => if b.isEnded then .done [] [] else .more
  | x :: src =>
    if b.isEnded then .done [] (x :: src)
    else match b.advance x with
      | .error _ => .bad
      | .ok (c, false) => c.scan room src
      | .ok (c, true) => if room = 0 then .tooLarge else (c.scan (room - 1) src).behind [x]

theorem scan_of_isEnded {b : BodyDecoder} (h : b.isEnded) (room : Nat) (src : Bytes) :
    b.scan room src = .done [] src := by
  cases src <;> simp [scan, h]

theorem scan_of_error {b : BodyDecoder} {x : UInt8} {e : Chunked.Fault} (hopen : b.isEnded = false)
    (h : b.advance x = .error e) (room : Nat) (src : Bytes) : b.scan room (x :: src) = .bad := by
  simp [scan, hopen, h]

open Marked

/-- Bytes that are taken leave what the rest of the stream holds. -/
theorem Takes.scan {b c : BodyDecoder} {ms : List Marked} (h : b.Takes ms c) {room : Nat}
    (hroom : (data ms).length ≤ room) (src : Bytes) : b.scan room (bytes ms ++ src) =
      (c.scan (room - (data ms).length) src).behind (data ms) := by
  induction h generalizing room with
  | nil b => simp
  | @cons b b' c x isData ms hopen hadvance _ ih =>
    simp only [bytes_cons, List.cons_append, BodyDecoder.scan, hopen, hadvance, Bool.false_eq_true,
      if_false]
    rw [data_cons] at hroom ⊢
    cases isData with
    | false => exact ih hroom
    | true =>
      rw [if_pos rfl, List.length_cons] at hroom
      have hsome : room ≠ 0 := by omega
      simp only [hsome, if_false, if_true, List.length_cons]
      rw [ih (by omega), Scanned.behind_behind, Nat.sub_sub, Nat.add_comm 1]
      rfl

theorem Takes.scan_tooLarge {b c : BodyDecoder} {ms : List Marked} (h : b.Takes ms c) {room : Nat}
    (hroom : room < (data ms).length) (src : Bytes) :
    b.scan room (bytes ms ++ src) = .tooLarge := by
  induction h generalizing room with
  | nil b => exact absurd hroom (Nat.not_lt_zero _)
  | @cons b b' c x isData ms hopen hadvance _ ih =>
    simp only [bytes_cons, List.cons_append, BodyDecoder.scan, hopen, hadvance, Bool.false_eq_true,
      if_false]
    rw [data_cons] at hroom
    cases isData with
    | false => exact ih hroom
    | true =>
      by_cases hnone : room = 0
      · simp [hnone]
      · rw [if_pos rfl, List.length_cons] at hroom
        simp only [hnone, if_false]
        rw [ih (by omega)]
        rfl

/-- What follows a body stands at the end of the stream. -/
theorem suffix_of_scan {b : BodyDecoder} {room : Nat} {src data rest : Bytes}
    (h : b.scan room src = .done data rest) : rest <:+ src := by
  induction src generalizing b room data with
  | nil =>
    unfold scan at h
    split at h
    · cases h
      exact List.nil_suffix
    · cases h
  | cons x src ih =>
    have hbehind {s : Scanned} {front : Bytes} (hs : s.behind front = .done data rest) :
        ∃ data', s = .done data' rest := by
      cases s with
      | done data' rest' =>
        cases hs
        exact ⟨data', rfl⟩
      | more | bad | tooLarge => cases hs
    unfold scan at h
    split at h
    · cases h
      exact List.suffix_refl _
    · split at h
      · cases h
      · exact (ih h).trans (List.suffix_cons x src)
      · split at h
        · cases h
        · obtain ⟨data', hscan⟩ := hbehind h
          exact (ih hscan).trans (List.suffix_cons x src)

end BodyDecoder

/-! ### Heads within the limit -/

namespace HeadDecoder

/-- What is wrong with the head at the front shows within the limit for heads. -/
def Bounded (src : Bytes) : Prop :=
  ∀ fault, HeadGrammar.head maxFields src = .bad fault →
    HeadGrammar.head maxFields (src.take maxBytes) = .bad fault

/-- Nothing is beyond the limit. -/
theorem bounded_of_short {src : Bytes} (h : src.length ≤ maxBytes) : Bounded src := by
  intro fault hbad
  rwa [List.take_of_length_le h]

/-- A head that is too long is refused for that, whatever becomes of it. -/
theorem decode_of_long {buf more : Bytes} (hbounded : Bounded (buf ++ more))
    (hmore : HeadGrammar.head maxFields buf = .more) (hlong : maxBytes < buf.length) :
    ∃ size, decode (buf ++ more) = (buf ++ more, .error (.headTooLarge size maxBytes)) := by
  have hsure := HeadGrammar.sure_head maxFields
  have hsize : maxBytes < (buf ++ more).length := by
    rw [List.length_append]
    omega
  have hmin : ¬ (buf ++ more).length < minBytes :=
    Nat.not_lt.2 (Nat.le_trans (by decide) (Nat.le_of_lt hsize))
  unfold decode
  rw [if_neg hmin]
  cases hhead : HeadGrammar.head maxFields (buf ++ more) with
  | more => exact ⟨_, if_pos hsize⟩
  | bad fault =>
    -- it would have shown in what is there already
    have hearly := hbounded fault hhead
    rw [List.take_append_of_le_length (Nat.le_of_lt hlong)] at hearly
    have hbad := hsure.bad hearly (buf.drop maxBytes)
    rw [List.take_append_drop, hmore] at hbad
    cases hbad
  | done parts rest =>
    have hrest := hsure.more hmore hhead
    have htaken : (buf ++ more).length - rest.length > maxBytes := by
      rw [List.length_append]
      omega
    exact ⟨_, if_pos htaken⟩

/-- A head is refused with the same status whatever stands behind it. -/
theorem decode_error_append {buf more rest : Bytes} {e : RequestError}
    (hbounded : Bounded (buf ++ more)) (h : decode buf = (rest, .error e)) :
    ∃ left e', decode (buf ++ more) = (left, .error e') ∧ e'.status false = e.status false := by
  have hsure := HeadGrammar.sure_head maxFields
  unfold decode at h
  split at h
  · cases h
  rename_i hlong
  have hlong' : ¬ (buf ++ more).length < minBytes := by
    rw [List.length_append]
    omega
  split at h
  · rename_i hmore
    split at h
    · rename_i hsize
      cases h
      obtain ⟨size, hdecode⟩ := decode_of_long hbounded hmore hsize
      exact ⟨_, _, hdecode, rfl⟩
    · cases h
  all_goals
    unfold decode
    rw [if_neg hlong']
  · rename_i hbad
    cases h
    rw [hsure.bad hbad more]
    exact ⟨_, _, rfl, rfl⟩
  · rename_i hbad
    cases h
    rw [hsure.bad hbad more]
    exact ⟨_, _, rfl, rfl⟩
  · rename_i fault hfields hversion hbad
    cases h
    rw [hsure.bad hbad more]
    cases fault with
    | tooManyFields => exact absurd rfl hfields
    | version => exact absurd rfl hversion
    | token | newLine | fieldName | fieldValue => exact ⟨_, _, rfl, rfl⟩
  · rename_i parts left hdone
    have hsame : (buf ++ more).length - (left ++ more).length = buf.length - left.length := by
      rw [List.length_append, List.length_append, Nat.add_sub_add_right]
    rw [hsure.done hdone more]
    simp only [hsame] at h ⊢
    split at h
    · rename_i hsize
      cases h
      exact ⟨_, _, if_pos hsize, rfl⟩
    rename_i hsize
    rw [if_neg hsize]
    unfold assemble at h ⊢
    cases huri : Uri.parse parts.target with
    | none =>
      rw [huri] at h
      cases h
      exact ⟨_, _, rfl, rfl⟩
    | some uri =>
      rw [huri] at h
      simp only at h ⊢
      cases hsize : BodySize.ofFields (.ofList parts.fields) with
      | error e' =>
        rw [hsize] at h
        cases h
        exact ⟨_, _, rfl, rfl⟩
      | ok size =>
        rw [hsize] at h
        cases h

/-- Every head takes some of the bytes. -/
theorem length_lt_of_decode {src rest : Bytes} {head : RequestHead × BodySize}
    (h : decode src = (rest, .ok (some head))) : rest.length < src.length := by
  obtain ⟨front, rfl, hfront⟩ := exists_decode_append h
  have hpos : front ≠ [] := by
    rintro rfl
    have hnil := hfront []
    simp [decode, minBytes] at hnil
  have := List.length_pos_iff.2 hpos
  rw [List.length_append]
  omega

end HeadDecoder

/-! ### Requests -/

/-- What stands at the front of a stream: a request with what follows it, the start of one, or
something that is answered with an error. -/
inductive Reading where
  | done (r : Request) (rest : Bytes)
  | more
  | refused (version : Version) (status : Status)
  deriving DecidableEq, Inhabited, Repr

namespace RequestDecoder

/-- A request of which the head and a part of the body were read. -/
def readBody (maxBody : Nat) (b : BodyDecoder) (received : Nat) (r : Request) (src : Bytes) :
    Reading :=
  match b.scan (maxBody - received) src with
  | .done data rest => .done { r with body := r.body ++ data } rest
  | .more => .more
  | .bad => .refused r.head.version 400
  | .tooLarge => .refused r.head.version 413

/-- A request from its head on. -/
def readHead (maxBody : Nat) (src : Bytes) : Reading :=
  match HeadDecoder.decode src with
  | (_, .error e) => .refused .v11 (e.status false)
  | (_, .ok none) => .more
  | (rest, .ok (some (head, size))) =>
    match ({ maxBody } : RequestDecoder).overLimit size with
    | some e => .refused .v11 (e.status false)
    | none => readBody maxBody (.ofSize size) 0 { head } rest

/-- A request begins with its head, and what follows it stands at the end of the stream. -/
theorem decode_of_done {maxBody : Nat} {src rest : Bytes} {r : Request}
    (h : readHead maxBody src = .done r rest) : ∃ behind size,
      HeadDecoder.decode src = (behind, .ok (some (r.head, size))) ∧ rest <:+ behind := by
  unfold readHead at h
  split at h
  · cases h
  · cases h
  · rename_i behind head size hdecode
    split at h
    · cases h
    · unfold readBody at h
      split at h
      · rename_i data left hscan
        cases h
        exact ⟨behind, size, hdecode, BodyDecoder.suffix_of_scan hscan⟩
      · cases h
      · cases h
      · cases h

/-- Every request takes some of the bytes. -/
theorem length_lt_of_done {maxBody : Nat} {src rest : Bytes} {r : Request}
    (h : readHead maxBody src = .done r rest) : rest.length < src.length := by
  obtain ⟨behind, size, hdecode, hrest⟩ := decode_of_done h
  exact Nat.lt_of_le_of_lt hrest.length_le (HeadDecoder.length_lt_of_decode hdecode)

theorem suffix_of_done {maxBody : Nat} {src rest : Bytes} {r : Request}
    (h : readHead maxBody src = .done r rest) : rest <:+ src := by
  obtain ⟨behind, size, hdecode, hrest⟩ := decode_of_done h
  obtain ⟨front, hfront, -⟩ := HeadDecoder.exists_decode_append hdecode
  exact hrest.trans ⟨front, hfront.symm⟩

/-- What the stream holds for a decoder that has read so much of a request. -/
def reading (d : RequestDecoder) (current : Option Request) (src : Bytes) : Reading :=
  match d.body, current with
  | some b, some r => readBody d.maxBody b d.received r src
  | _, _ => readHead d.maxBody src

/-- Between requests nothing is read, and within one its head is known. -/
inductive Stands (maxBody : Nat) : RequestDecoder → Option Request → Prop
  | between (received : Nat) : Stands maxBody { maxBody, body := none, received } none
  | within {b : BodyDecoder} {received : Nat} (r : Request) : b.Fed → received ≤ maxBody →
      Stands maxBody { maxBody, body := some b, received } (some r)

/-- The version that an error is answered in. -/
def versionOf : Option Request → Version
  | some r => r.head.version
  | none => .v11

/-- What one call tells when `src` is there and `future` is still to come: the stream holds the same
for the decoder behind the call, or what it holds is told. -/
inductive Tells (maxBody : Nat) (current : Option Request) (src future : Bytes) (before : Reading) :
    Outcome → Prop
  | head (d : RequestDecoder) (head : RequestHead) (size : BodySize) (rest : Bytes) :
      current = none →
      HeadDecoder.decode src = (rest, .ok (some (head, size))) →
      HeadDecoder.decode (src ++ future) = (rest ++ future, .ok (some (head, size))) →
      rest <:+ src → rest.length < src.length → Stands maxBody d (some { head }) →
      before = reading d (some { head }) (rest ++ future) →
      Tells maxBody current src future before (d, rest, .ok (some (.head head size)))
  | chunk (r : Request) (d : RequestDecoder) (data rest : Bytes) : current = some r →
      rest <:+ src → rest.length < src.length →
      Stands maxBody d (some { r with body := r.body ++ data }) →
      before = reading d (some { r with body := r.body ++ data }) (rest ++ future) →
      Tells maxBody current src future before (d, rest, .ok (some (.body (.chunk data))))
  | eof (r : Request) (d : RequestDecoder) (rest : Bytes) : current = some r → rest <:+ src →
      Stands maxBody d none → before = .done r (rest ++ future) →
      Tells maxBody current src future before (d, rest, .ok (some (.body .eof)))
  | wait (d : RequestDecoder) (rest : Bytes) : rest <:+ src → (current = none → rest = src) →
      Stands maxBody d current →
      before = reading d current (rest ++ future) → reading d current rest = .more →
      Tells maxBody current src future before (d, rest, .ok none)
  | fail (d : RequestDecoder) (rest : Bytes) (e : RequestError) :
      before = .refused (versionOf current) (e.status false) →
      Tells maxBody current src future before (d, rest, .error e)

variable {maxBody : Nat} {src future : Bytes}

open Marked in
theorem tells_decodeBody {b : BodyDecoder} {received : Nat} {r : Request} (hb : b.Fed)
    (hreceived : received ≤ maxBody) : Tells maxBody (some r) src future
      (readBody maxBody b received r (src ++ future))
      (decodeBody { maxBody, body := some b, received } b src) := by
  have hyields := BodyDecoder.yields_decode hb src
  unfold decodeBody
  generalize b.decode src = outcome at hyields
  cases hyields with
  | eof ms c rest htakes hended hdata hsrc =>
    refine .eof r _ rest rfl ⟨bytes ms, hsrc.symm⟩ (.between received) ?_
    rw [readBody, hsrc, List.append_assoc, htakes.scan (by simp [hdata]),
      BodyDecoder.scan_of_isEnded hended]
    simp [BodyDecoder.Scanned.behind, hdata]
  | chunk ms c rest htakes hdata hsrc =>
    by_cases hroom : received + (data ms).length > maxBody
    · simp only [if_pos hroom]
      refine .fail _ rest _ ?_
      rw [readBody, hsrc, List.append_assoc, htakes.scan_tooLarge (by omega)]
      rfl
    · simp only [if_neg hroom]
      have hpos : 0 < ms.length :=
        List.length_pos_iff.2 fun hnone => hdata (by rw [hnone, data_nil])
      refine .chunk r _ (data ms) rest rfl ⟨bytes ms, hsrc.symm⟩ ?_
        (.within _ (htakes.fed hb) (Nat.le_of_not_lt hroom)) ?_
      · rw [hsrc, List.length_append, length_bytes]
        omega
      · rw [readBody, hsrc, List.append_assoc, htakes.scan (by omega), Nat.sub_sub]
        simp only [reading, readBody]
        cases c.scan (maxBody - (received + (data ms).length)) (rest ++ future) <;>
          simp [BodyDecoder.Scanned.behind]
  | wait ms c htakes hopen hdata hsrc =>
    refine .wait _ [] List.nil_suffix nofun (.within r (htakes.fed hb) hreceived) ?_ ?_
    · rw [readBody, hsrc, htakes.scan (by simp [hdata])]
      simp [reading, readBody, hdata]
    · simp [reading, readBody, BodyDecoder.scan, hopen]
  | fault ms c x rest e htakes hopen herror hdata hsrc =>
    refine .fail _ rest _ ?_
    rw [readBody, hsrc, List.append_assoc, htakes.scan (by simp [hdata]), List.cons_append,
      BodyDecoder.scan_of_error hopen herror]
    rfl

theorem tells_decodeHead {received : Nat} (hbounded : HeadDecoder.Bounded (src ++ future)) :
    Tells maxBody none src future (readHead maxBody (src ++ future))
      (decodeHead { maxBody, body := none, received } src) := by
  unfold decodeHead
  rcases hhead : HeadDecoder.decode src with ⟨rest, e | _ | ⟨head, size⟩⟩
  · obtain ⟨left, e', hmore, hstatus⟩ := HeadDecoder.decode_error_append hbounded hhead
    refine .fail _ rest e ?_
    rw [readHead, hmore, versionOf, ← hstatus]
  · obtain rfl := rest_of_waiting hhead
    refine .wait _ rest (List.suffix_refl _) (fun _ => rfl) (.between received) rfl ?_
    simp only [reading, readHead, hhead]
  · obtain ⟨front, hsrc, hfront⟩ := HeadDecoder.exists_decode_append hhead
    have hmore : HeadDecoder.decode (src ++ future) =
        (rest ++ future, .ok (some (head, size))) := by
      rw [hsrc, List.append_assoc]
      exact hfront _
    have hshort := HeadDecoder.length_lt_of_decode hhead
    -- the limit does not depend on what was received before
    have hlimit : ({ maxBody, body := none, received } : RequestDecoder).overLimit size =
        ({ maxBody } : RequestDecoder).overLimit size := by
      cases size <;> rfl
    simp only [hlimit]
    cases hfits : ({ maxBody } : RequestDecoder).overLimit size with
    | some e =>
      refine .fail _ rest e ?_
      simp only [readHead, hmore, hfits]
      rfl
    | none =>
      refine .head _ head size rest rfl hhead hmore ⟨front, hsrc.symm⟩ hshort
        (.within _ (BodyDecoder.fed_ofSize size) (Nat.zero_le _)) ?_
      simp only [readHead, hmore, hfits]
      rfl

/-- Each call keeps what the stream holds, or tells it. -/
theorem tells_decode {d : RequestDecoder} {current : Option Request}
    (h : Stands maxBody d current)
    (hbounded : current = none → HeadDecoder.Bounded (src ++ future)) :
    Tells maxBody current src future (reading d current (src ++ future)) (d.decode src) := by
  cases h with
  | between received => exact tells_decodeHead (hbounded rfl)
  | within r hb hreceived => exact tells_decodeBody hb hreceived

end RequestDecoder

end WireServer.Http
