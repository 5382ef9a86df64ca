import WireServer.Http.Session
import WireServer.Proofs.Http.HeadPieces

/-! Requests in pieces. What a decoder still needs of a body is a string of bytes, and each call
brings it forward by the bytes that it takes, however the input is cut. A request that is read from
one piece is a head and a body in this sense. -/

namespace WireServer.Http

/-! ### What a body still needs -/

namespace Chunked.Decoder

/-- So many bytes of the data of a chunk are taken. -/
def count (d : Decoder) (n : Nat) : Decoder :=
  { d with size := d.size - n, state := if d.size = n then .dataCr else .data }

/-- The bytes that end the coding, with at most `room` bytes of data among them. -/
inductive Ends : Decoder → Nat → Bytes → Prop
  | done {d : Decoder} {room : Nat} : d.state = .done → Ends d room []
  | data {d : Decoder} {room : Nat} {bs : Bytes} (b : UInt8) : d.state = .data → d.size ≠ 0 →
      Ends (d.count 1) room bs → Ends d (room + 1) (b :: bs)
  | step {d d' : Decoder} {room : Nat} {b : UInt8} {bs : Bytes} : d.state ≠ .data →
      d.state ≠ .done → d.step b = .ok d' → Ends d' room bs → Ends d room (b :: bs)

/-- No chunk is empty. -/
def Fed (d : Decoder) : Prop := d.state = .data → d.size ≠ 0

theorem fed_step {d d' : Decoder} {b : UInt8} (h : d.step b = .ok d') : d'.Fed := by
  intro hdata
  unfold step digit afterSize expect at h
  cases hs : d.state <;> simp only [hs] at h <;> grind

theorem decode_done {d : Decoder} (h : d.state = .done) (src : Bytes) :
    d.decode src = (d, src, .ok (some .eof)) := by
  unfold decode
  cases src <;> simp [h]

theorem decode_nil {d : Decoder} (h : d.state ≠ .done) : d.decode [] = (d, [], .ok none) := by
  unfold decode
  split <;> simp_all

theorem decode_data {d : Decoder} (h : d.state = .data) (b : UInt8) (bs : Bytes) :
    d.decode (b :: bs) = ((d.takeData (b :: bs)).1, (d.takeData (b :: bs)).2.2,
      .ok (some (.chunk (d.takeData (b :: bs)).2.1))) := by
  unfold decode
  simp [h]

theorem decode_step {d : Decoder} (hdata : d.state ≠ .data) (hdone : d.state ≠ .done) (b : UInt8)
    (bs : Bytes) : d.decode (b :: bs) =
      match d.step b with
      | .error fault => (d, bs, .error fault)
      | .ok d' => d'.decode bs := by
  rw [decode.eq_def]
  split
  · exact absurd ‹_› hdone
  · simp_all
  · exact absurd ‹_› hdata
  · obtain ⟨rfl, rfl⟩ := List.cons.inj ‹_›
    cases d.step b <;> rfl

theorem count_count (d : Decoder) (n : Nat) : (d.count 1).count (n + 1) = d.count (n + 2) := by
  have hlast : d.size - 1 = n + 1 ↔ d.size = n + 2 := by omega
  simp only [count, hlast, Nat.sub_sub, Nat.add_comm 1]

theorem fed_count {d : Decoder} {n : Nat} (hn : n ≤ d.size) : (d.count n).Fed := by
  intro hdata
  by_cases hlast : d.size = n
  · simp [count, hlast] at hdata
  · exact show d.size - n ≠ 0 by omega

/-- The data of a chunk is there in full, and can be taken at once. -/
theorem Ends.drop {d : Decoder} {room n : Nat} {bs : Bytes} (h : d.Ends room bs)
    (hstate : d.state = .data) (hn : n < d.size) :
    n < bs.length ∧ n < room ∧ (d.count (n + 1)).Ends (room - (n + 1)) (bs.drop (n + 1)) := by
  induction n generalizing d room bs with
  | zero =>
    cases h with
    | done hdone => cases hstate.symm.trans hdone
    | step hdata => exact absurd hstate hdata
    | data b _ _ hbs => exact ⟨Nat.succ_pos _, Nat.succ_pos _, hbs⟩
  | succ n ih =>
    cases h with
    | done hdone => cases hstate.symm.trans hdone
    | step hdata => exact absurd hstate hdata
    | data b _ _ hbs =>
      have hmore : (d.count 1).state = .data := if_neg (by omega)
      obtain ⟨hlen, hroom, hends⟩ := ih hbs hmore (show n < d.size - 1 by omega)
      rw [count_count] at hends
      rw [List.length_cons, Nat.add_sub_add_right]
      exact ⟨by omega, by omega, hends⟩

theorem Ends.undrop {d : Decoder} {room : Nat} {taken bs : Bytes} (hstate : d.state = .data)
    (hne : taken ≠ []) (hle : taken.length ≤ d.size) (h : (d.count taken.length).Ends room bs) :
    d.Ends (room + taken.length) (taken ++ bs) := by
  induction taken generalizing d with
  | nil => exact absurd rfl hne
  | cons b taken ih =>
    have hfed : d.size ≠ 0 := fun h => by simp [h] at hle
    rw [List.length_cons] at hle
    refine .data b hstate hfed ?_
    by_cases hlast : taken = []
    · subst hlast
      exact h
    · have hpos : 0 < taken.length := List.length_pos_iff.2 hlast
      obtain ⟨n, hn⟩ := Nat.exists_eq_succ_of_ne_zero (Nat.ne_of_gt hpos)
      refine ih (d := d.count 1) (if_neg (by omega)) hlast (show _ ≤ d.size - 1 by omega) ?_
      rw [hn, Nat.succ_eq_add_one, count_count]
      rwa [List.length_cons, hn] at h

theorem takeData_eq (d : Decoder) (src : Bytes) :
    d.takeData src = (d.count (src.take d.size).length, src.take d.size, src.drop d.size) := by
  have hle : (src.take d.size).length ≤ d.size := List.length_take_le _ _
  have hlast : d.size - (src.take d.size).length = 0 ↔ d.size = (src.take d.size).length := by omega
  simp only [takeData, count, hlast]

theorem ends_of_eof {d d' : Decoder} {src rest : Bytes}
    (h : d.decode src = (d', rest, .ok (some .eof))) :
    ∃ taken, src = taken ++ rest ∧ ∀ room, d.Ends room taken := by
  induction src generalizing d with
  | nil =>
    by_cases hdone : d.state = .done
    · rw [decode_done hdone] at h
      cases h
      exact ⟨[], rfl, fun _ => .done hdone⟩
    · rw [decode_nil hdone] at h
      cases h
  | cons b src ih =>
    by_cases hdone : d.state = .done
    · rw [decode_done hdone] at h
      cases h
      exact ⟨[], rfl, fun _ => .done hdone⟩
    by_cases hdata : d.state = .data
    · rw [decode_data hdata] at h
      cases h
    rw [decode_step hdata hdone] at h
    cases hstep : d.step b with
    | error fault =>
      rw [hstep] at h
      cases h
    | ok next =>
      rw [hstep] at h
      obtain ⟨taken, rfl, hends⟩ := ih h
      exact ⟨b :: taken, rfl, fun room => .step hdata hdone hstep (hends room)⟩

theorem ends_of_chunk {d d' : Decoder} {src rest data : Bytes} (hd : d.Fed)
    (h : d.decode src = (d', rest, .ok (some (.chunk data)))) : d'.Fed ∧ ∃ taken,
      src = taken ++ rest ∧
        ∀ room bs, d'.Ends room bs → d.Ends (room + data.length) (taken ++ bs) := by
  induction src generalizing d with
  | nil =>
    by_cases hdone : d.state = .done
    · rw [decode_done hdone] at h
      cases h
    · rw [decode_nil hdone] at h
      cases h
  | cons b src ih =>
    by_cases hdone : d.state = .done
    · rw [decode_done hdone] at h
      cases h
    by_cases hdata : d.state = .data
    · rw [decode_data hdata, takeData_eq] at h
      have hfed := hd hdata
      have hle : ((b :: src).take d.size).length ≤ d.size := List.length_take_le _ _
      have hne : (b :: src).take d.size ≠ [] := by simp [hfed]
      cases h
      exact ⟨fed_count hle, _, (List.take_append_drop _ _).symm,
        fun room bs => Ends.undrop hdata hne hle⟩
    rw [decode_step hdata hdone] at h
    cases hstep : d.step b with
    | error fault =>
      rw [hstep] at h
      cases h
    | ok next =>
      rw [hstep] at h
      obtain ⟨hfed, taken, rfl, hends⟩ := ih (fed_step hstep) h
      exact ⟨hfed, b :: taken, rfl,
        fun room bs hbs => .step hdata hdone hstep (hends room bs hbs)⟩

end Chunked.Decoder

namespace BodyDecoder

/-- The bytes that a body still needs, with room for so much data. -/
def Ends : BodyDecoder → Nat → Bytes → Prop
  | .empty, _, bs => bs = []
  | .length left, room, bs => bs.length = left ∧ left ≤ room
  | .chunked d, room, bs => d.Ends room bs

/-- What one call makes of a body that still needs `bs`, when `src` is there: the rest of the body
and its end, or a piece of its data, or nothing yet. -/
inductive Advances (room : Nat) (bs src : Bytes) :
    BodyDecoder × Bytes × Except RequestError (Option BodyItem) → Prop
  | eof (b : BodyDecoder) (rest : Bytes) : src = bs ++ rest →
      Advances room bs src (b, rest, .ok (some .eof))
  | chunk (b : BodyDecoder) (taken rest left data : Bytes) : src = taken ++ rest → taken ≠ [] →
      bs = taken ++ left → data.length ≤ room → b.Ends (room - data.length) left →
      Advances room bs src (b, rest, .ok (some (.chunk data)))
  | wait (b : BodyDecoder) (left : Bytes) : bs = src ++ left → left ≠ [] → b.Ends room left →
      Advances room bs src (b, [], .ok none)

variable {room : Nat} {bs src : Bytes}

/-- The bytes that are taken are those that are needed next. -/
theorem eq_take_append (hsrc : src <+: bs ∨ bs <+: src) {n : Nat} (hn : n ≤ bs.length) :
    bs = src.take n ++ bs.drop (src.take n).length := by
  have hprefix : src.take n <+: bs := by
    rcases hsrc with hsrc | ⟨more, rfl⟩
    · exact (List.take_prefix _ _).trans hsrc
    · rw [List.take_append_of_le_length hn]
      exact List.take_prefix _ _
  obtain ⟨left, rfl⟩ := hprefix
  rw [List.drop_left]

theorem advances_length {left : Nat} (h : (length left).Ends room bs)
    (hsrc : src <+: bs ∨ bs <+: src) : Advances room bs src ((length left).decode src) := by
  obtain ⟨hlen, hroom⟩ := h
  unfold decode
  by_cases hleft : left = 0
  · obtain rfl : bs = [] := List.eq_nil_of_length_eq_zero (hlen.trans hleft)
    simp only [hleft, if_true]
    exact .eof _ _ rfl
  by_cases hnone : src = []
  · subst hnone
    simp only [hleft, if_false, List.isEmpty_nil, if_true]
    refine .wait _ bs rfl ?_ ⟨hlen, hroom⟩
    rintro rfl
    exact hleft hlen.symm
  · have hdata : (src.take left).length ≤ left := List.length_take_le _ _
    simp only [hleft, if_false, List.isEmpty_iff, hnone]
    refine .chunk _ (src.take left) (src.drop left) (bs.drop (src.take left).length) _
      (List.take_append_drop _ _).symm ?_ (eq_take_append hsrc (Nat.le_of_eq hlen.symm))
      (Nat.le_trans hdata hroom) ⟨?_, Nat.sub_le_sub_right hroom _⟩
    · rw [ne_eq, List.take_eq_nil_iff]
      exact fun h => h.elim hleft hnone
    · rw [List.length_drop, hlen]

theorem Advances.cons {r : BodyDecoder × Bytes × Except RequestError (Option BodyItem)}
    (h : Advances room bs src r) (b : UInt8) : Advances room (b :: bs) (b :: src) r := by
  cases h with
  | eof d rest hsrc => exact .eof d rest (by rw [hsrc, List.cons_append])
  | chunk d taken rest left data hsrc hne hbs hlen hends =>
    exact .chunk d (b :: taken) rest left data (by rw [hsrc, List.cons_append]) nofun
      (by rw [hbs, List.cons_append]) hlen hends
  | wait d left hbs hne hends => exact .wait d left (by rw [hbs, List.cons_append]) hne hends

/-- Of a chunk, all that is there is taken at once. -/
theorem advances_data {d : Chunked.Decoder} (h : d.Ends room bs) (hstate : d.state = .data)
    (hfed : d.size ≠ 0) (hsrc : src <+: bs ∨ bs <+: src) (hne : src ≠ []) :
    Advances room bs src ((chunked d).decode src) := by
  obtain ⟨b, src, rfl⟩ := List.exists_cons_of_ne_nil hne
  have htake : (b :: src).take d.size ≠ [] := by simp [hfed]
  obtain ⟨n, hn⟩ := Nat.exists_eq_succ_of_ne_zero (mt List.eq_nil_of_length_eq_zero htake)
  have hle : ((b :: src).take d.size).length ≤ d.size := List.length_take_le _ _
  obtain ⟨-, hroom, hends⟩ := h.drop hstate (n := n) (by omega)
  have hall : d.size ≤ bs.length := by
    have := (h.drop hstate (n := d.size - 1) (by omega)).1
    omega
  rw [← show _ = n + 1 from hn] at hends
  simp only [decode, Chunked.Decoder.decode_data hstate, Chunked.Decoder.takeData_eq]
  exact .chunk _ ((b :: src).take d.size) _ (bs.drop ((b :: src).take d.size).length) _
    (List.take_append_drop _ _).symm htake (eq_take_append hsrc hall) (by omega) hends

/-- Nothing of a chunked body is lost or read twice. -/
theorem advances_chunked {d : Chunked.Decoder} (h : d.Ends room bs)
    (hsrc : src <+: bs ∨ bs <+: src) : Advances room bs src ((chunked d).decode src) := by
  induction h generalizing src with
  | done hdone =>
    simp only [decode, Chunked.Decoder.decode_done hdone]
    exact .eof _ _ rfl
  | @data d room bs b hdata hfed hbs ih =>
    have hends := Chunked.Decoder.Ends.data b hdata hfed hbs
    by_cases hnone : src = []
    · subst hnone
      simp only [decode, Chunked.Decoder.decode_nil (show d.state ≠ .done by simp [hdata])]
      exact .wait _ _ rfl nofun hends
    · exact advances_data hends hdata hfed hsrc hnone
  | @step d d' room b bs hdata hdone hstep hbs ih =>
    have hends := Chunked.Decoder.Ends.step hdata hdone hstep hbs
    cases src with
    | nil =>
      simp only [decode, Chunked.Decoder.decode_nil hdone]
      exact .wait _ _ rfl nofun hends
    | cons x src =>
      rw [List.cons_prefix_cons, List.cons_prefix_cons] at hsrc
      have hfirst : x = b := hsrc.elim And.left fun h => h.1.symm
      subst hfirst
      have hsame : (chunked d).decode (x :: src) = (chunked d').decode src := by
        simp only [decode, Chunked.Decoder.decode_step hdata hdone, hstep]
      rw [hsame]
      exact (ih (hsrc.imp And.right And.right)).cons x

/-- However the input is cut, the body comes forward by what the call takes. -/
theorem advances_decode {b : BodyDecoder} (h : b.Ends room bs) (hsrc : src <+: bs ∨ bs <+: src) :
    Advances room bs src (b.decode src) := by
  cases b with
  | empty => exact .eof _ _ (by rw [show bs = [] from h]; rfl)
  | length left => exact advances_length h hsrc
  | chunked d => exact advances_chunked h hsrc

/-! ### What a call tells of a body -/

/-- No chunk is empty. -/
def Fed : BodyDecoder → Prop
  | .chunked d => d.Fed
  | _ => True

theorem fed_ofSize (size : BodySize) : (ofSize size).Fed := by
  cases size with
  | chunked => exact nofun
  | length n => trivial
  | empty => trivial

theorem ends_of_eof {b b' : BodyDecoder} {src rest : Bytes}
    (h : b.decode src = (b', rest, .ok (some .eof))) :
    ∃ taken, src = taken ++ rest ∧ ∀ room, b.Ends room taken := by
  cases b with
  | empty =>
    cases h
    exact ⟨[], rfl, fun _ => rfl⟩
  | length left =>
    unfold decode at h
    by_cases hleft : left = 0
    · simp only [hleft, if_true] at h
      cases h
      exact ⟨[], rfl, fun _ => ⟨hleft.symm, by omega⟩⟩
    · simp only [hleft, if_false] at h
      split at h <;> cases h
  | chunked d =>
    unfold decode at h
    rcases hd : d.decode src with ⟨d', rest', fault | item⟩
    · simp [hd] at h
    · simp only [hd] at h
      cases h
      exact Chunked.Decoder.ends_of_eof hd

/-- The same of the data that is read, where no chunk is empty. -/
theorem ends_of_chunk {b b' : BodyDecoder} {src rest data : Bytes} (hb : b.Fed)
    (h : b.decode src = (b', rest, .ok (some (.chunk data)))) : b'.Fed ∧ ∃ taken,
      src = taken ++ rest ∧
        ∀ room bs, b'.Ends room bs → b.Ends (room + data.length) (taken ++ bs) := by
  cases b with
  | empty => cases h
  | length left =>
    unfold decode at h
    by_cases hleft : left = 0
    · simp [hleft] at h
    simp only [hleft, if_false] at h
    split at h
    · cases h
    · cases h
      have hle : (src.take left).length ≤ left := List.length_take_le _ _
      refine ⟨trivial, _, (List.take_append_drop _ _).symm, fun room bs hbs => ?_⟩
      obtain ⟨hlen, hroom⟩ := hbs
      exact ⟨by rw [List.length_append]; omega, by omega⟩
  | chunked d =>
    unfold decode at h
    rcases hd : d.decode src with ⟨d', rest', fault | item⟩
    · simp [hd] at h
    · simp only [hd] at h
      cases h
      exact Chunked.Decoder.ends_of_chunk hb hd

end BodyDecoder

/-! ### Whole requests -/

namespace RequestDecoder

/-- A head and the body behind it: the decoder finds the head as soon as it is there, and waits as
long as it is not. -/
structure Encodes (maxBody : Nat) (head : RequestHead) (size : BodySize) (front body : Bytes) :
    Prop where
  whole : ∀ more, HeadDecoder.decode (front ++ more) = (more, .ok (some (head, size)))
  waits : ∀ xs ys, front = xs ++ ys → ys ≠ [] → HeadDecoder.decode xs = (xs, .ok none)
  fits : ({ maxBody } : RequestDecoder).overLimit size = none
  body : (BodyDecoder.ofSize size).Ends maxBody body

theorem Encodes.front_ne_nil {maxBody : Nat} {head : RequestHead} {size : BodySize}
    {front body : Bytes} (h : Encodes maxBody head size front body) : front ≠ [] := by
  rintro rfl
  have hwhole := h.whole []
  simp [HeadDecoder.decode, HeadDecoder.minBytes] at hwhole

/-- The events of one request whose body comes in these pieces. -/
def requestEvents (head : RequestHead) (size : BodySize) (pieces : List Bytes) :
    List RequestEvent :=
  .head head size :: (pieces.map fun data => .body (.chunk data)) ++ [.body .eof]

theorem decodeEvents_acc (n : Nat) (d : RequestDecoder) (src : Bytes)
    (events : List RequestEvent) : decodeEvents n d src events =
      ((decodeEvents n d src []).1, (decodeEvents n d src []).2.1,
        events.reverse ++ (decodeEvents n d src []).2.2.1, (decodeEvents n d src []).2.2.2) := by
  induction n generalizing d src events with
  | zero => simp [decodeEvents]
  | succ n ih =>
    rcases hd : d.decode src with ⟨d', rest, e | _ | event⟩
    · simp [decodeEvents, hd]
    · simp [decodeEvents, hd]
    · simp only [decodeEvents, hd]
      rw [ih d' rest (event :: events), ih d' rest [event]]
      simp

/-- The first of the events comes from the first call. -/
theorem exists_decode_of_events {n : Nat} {d d' : RequestDecoder} {src : Bytes}
    {event : RequestEvent} {events : List RequestEvent}
    (h : decodeEvents n d src [] = (d', [], event :: events, none)) :
    ∃ m next rest, d.decode src = (next, rest, .ok (some event)) ∧
      decodeEvents m next rest [] = (d', [], events, none) := by
  cases n with
  | zero => simp [decodeEvents] at h
  | succ n =>
    rcases hd : d.decode src with ⟨next, rest, e | _ | first⟩
    · simp [decodeEvents, hd] at h
    · simp [decodeEvents, hd] at h
    · simp only [decodeEvents, hd] at h
      rw [decodeEvents_acc] at h
      simp only [List.reverse_cons, List.reverse_nil, List.nil_append, List.singleton_append,
        Prod.mk.injEq, List.cons.injEq] at h
      obtain ⟨hd', hrest, ⟨rfl, hevents⟩, hnone⟩ := h
      exact ⟨n, next, rest, rfl, by rw [← hd', ← hrest, ← hevents, ← hnone]⟩

theorem rest_of_waiting {src rest : Bytes} (h : HeadDecoder.decode src = (rest, .ok none)) :
    rest = src := by
  unfold HeadDecoder.decode HeadDecoder.assemble at h
  split at h
  · cases h
    rfl
  · split at h
    · split at h <;> cases h
      rfl
    · cases h
    · cases h
    · cases h
    · dsimp only at h
      split at h
      · cases h
      · split at h
        · cases h
        · split at h <;> cases h

/-- Between requests, input that brings no event and no error stays. -/
theorem eq_nil_of_no_events {n : Nat} {d d' : RequestDecoder} {src : Bytes} (hd : d.body = none)
    (h : decodeEvents n d src [] = (d', [], [], none)) : src = [] := by
  cases n with
  | zero =>
    cases h
    rfl
  | succ n =>
    have hdecode : d.decode src = d.decodeHead src := by simp [decode, hd]
    simp only [decodeEvents, hdecode, decodeHead] at h
    rcases hsrc : HeadDecoder.decode src with ⟨rest, e | _ | ⟨head, size⟩⟩
    · simp [hsrc] at h
    · obtain rfl := rest_of_waiting hsrc
      simp only [hsrc] at h
      cases h
      rfl
    · simp only [hsrc] at h
      cases hlimit : d.overLimit size with
      | some e => simp [hlimit] at h
      | none =>
        simp only [hlimit] at h
        rw [decodeEvents_acc] at h
        simp at h

/-- Of what is read as a body to its end, every byte belongs to the body. -/
theorem ends_of_events {n : Nat} {d d' : RequestDecoder} {b : BodyDecoder} {src : Bytes}
    {pieces : List Bytes} (hd : d.body = some b) (hb : b.Fed)
    (h : decodeEvents n d src [] =
      (d', [], (pieces.map fun data => .body (.chunk data)) ++ [.body .eof], none)) :
    b.Ends (d.maxBody - d.received) src := by
  have hdecode (rest : Bytes) : d.decode rest = d.decodeBody b rest := by simp [decode, hd]
  induction pieces generalizing n d b src with
  | nil =>
    obtain ⟨m, next, rest, hfirst, hrest⟩ := exists_decode_of_events h
    rw [hdecode, decodeBody] at hfirst
    rcases hbody : b.decode src with ⟨b', rest', e | _ | data | _⟩
    · simp [hbody] at hfirst
    · simp [hbody] at hfirst
    · simp only [hbody] at hfirst
      split at hfirst <;> cases hfirst
    · simp only [hbody] at hfirst
      cases hfirst
      obtain ⟨taken, rfl, hends⟩ := BodyDecoder.ends_of_eof hbody
      obtain rfl := eq_nil_of_no_events rfl hrest
      rw [List.append_nil]
      exact hends _
  | cons data pieces ih =>
    obtain ⟨m, next, rest, hfirst, hrest⟩ := exists_decode_of_events h
    rw [hdecode, decodeBody] at hfirst
    rcases hbody : b.decode src with ⟨b', rest', e | _ | data' | _⟩
    · simp [hbody] at hfirst
    · simp [hbody] at hfirst
    · simp only [hbody] at hfirst
      split at hfirst
      · cases hfirst
      rename_i hroom
      cases hfirst
      obtain ⟨hb', taken, rfl, hends⟩ := BodyDecoder.ends_of_chunk hb hbody
      have hleft := hends _ _ (ih rfl hb' hrest fun rest => by simp [decode])
      simp only at hroom hleft
      rwa [show d.maxBody - (d.received + data.length) + data.length =
        d.maxBody - d.received by omega] at hleft
    · simp [hbody] at hfirst

/-- A request that is read from one piece. -/
theorem exists_encodes {maxBody : Nat} {head : RequestHead} {size : BodySize} {req : Bytes}
    {d : RequestDecoder} {pieces : List Bytes} (h : decodeAll { maxBody } req =
      (d, [], requestEvents head size pieces, none)) :
    ∃ front body, req = front ++ body ∧ Encodes maxBody head size front body := by
  obtain ⟨m, next, rest, hfirst, hrest⟩ := exists_decode_of_events h
  simp only [decode, decodeHead] at hfirst
  rcases hhead : HeadDecoder.decode req with ⟨rest', e | _ | ⟨head', size'⟩⟩
  · simp [hhead] at hfirst
  · simp [hhead] at hfirst
  simp only [hhead] at hfirst
  cases hfits : ({ maxBody } : RequestDecoder).overLimit size' with
  | some e => simp [hfits] at hfirst
  | none =>
    simp only [hfits] at hfirst
    cases hfirst
    obtain ⟨front, rfl, hwhole⟩ := HeadDecoder.exists_decode_append hhead
    refine ⟨front, rest, rfl, hwhole, fun xs ys hcut hne => ?_, hfits, ?_⟩
    · have hall : HeadDecoder.decode (xs ++ (ys ++ rest)) = (rest, .ok (some (head, size))) := by
        rw [← List.append_assoc, ← hcut]
        exact hwhole rest
      have hpos := List.length_pos_iff.2 hne
      exact HeadDecoder.decode_of_shorter hall (by rw [List.length_append]; omega)
    · exact ends_of_events rfl (BodyDecoder.fed_ofSize size) hrest

/-! ### Request by piece -/

section Needs

variable (maxBody : Nat) (head : RequestHead) (size : BodySize)

/-- The bytes that a decoder needs up to the end of a request, of which so much is known. -/
inductive Needs : RequestDecoder → Option Request → Bytes → Prop
  | head {front body : Bytes} : Encodes maxBody head size front body →
      Needs { maxBody } none (front ++ body)
  | body {b : BodyDecoder} {received : Nat} {data left : Bytes} : received ≤ maxBody →
      b.Ends (maxBody - received) left →
      Needs { maxBody, body := some b, received } (some ⟨head, data⟩) left

/-- What one call makes of a request that still needs `left`, when `src` is there: the head, a piece
of the body, the end of it, or nothing yet. -/
inductive Proceeds (known : Option Request) (left src : Bytes) : Outcome → Prop
  | head (d : RequestDecoder) (front rest left' : Bytes) : known = none → src = front ++ rest →
      left = front ++ left' → Needs maxBody head size d (some { head }) left' →
      Proceeds known left src (d, rest, .ok (some (.head head size)))
  | chunk (r : Request) (d : RequestDecoder) (taken rest left' data : Bytes) : known = some r →
      taken ≠ [] → src = taken ++ rest → left = taken ++ left' →
      Needs maxBody head size d (some { r with body := r.body ++ data }) left' →
      Proceeds known left src (d, rest, .ok (some (.body (.chunk data))))
  | eof (r : Request) (d : RequestDecoder) (rest : Bytes) : known = some r → r.head = head →
      src = left ++ rest → Proceeds known left src (d, rest, .ok (some (.body .eof)))
  | wait (d : RequestDecoder) (taken rest left' : Bytes) : src = taken ++ rest →
      left = taken ++ left' → Needs maxBody head size d known left' → rest <+: left' →
      rest ≠ left' → Proceeds known left src (d, rest, .ok none)

end Needs

variable {maxBody : Nat} {head : RequestHead} {size : BodySize} {known : Option Request}
  {left src : Bytes}

theorem proceeds_decodeBody {b : BodyDecoder} {received : Nat} {data : Bytes}
    (hreceived : received ≤ maxBody) (hends : b.Ends (maxBody - received) left)
    (hsrc : src <+: left ∨ left <+: src) :
    Proceeds maxBody head size (some ⟨head, data⟩) left src
      (decodeBody { maxBody, body := some b, received } b src) := by
  have hadvances := BodyDecoder.advances_decode hends hsrc
  unfold decodeBody
  generalize b.decode src = r at hadvances
  cases hadvances with
  | eof b' rest hrest => exact .eof _ _ rest rfl rfl hrest
  | wait b' left' hleft hne hends' =>
    exact .wait _ src [] left' (List.append_nil _).symm hleft (.body hreceived hends')
      List.nil_prefix hne.symm
  | chunk b' taken rest left' piece hsrc' hne hleft hroom hends' =>
    have hfits : ¬ received + piece.length > maxBody := by omega
    simp only [hfits, if_false]
    rw [Nat.sub_sub] at hends'
    exact .chunk _ _ taken rest left' piece rfl hne hsrc' hleft (.body (by omega) hends')

theorem proceeds_decodeHead {front body : Bytes} (henc : Encodes maxBody head size front body)
    (hsrc : src <+: front ++ body ∨ front ++ body <+: src) :
    Proceeds maxBody head size none (front ++ body) src (decodeHead { maxBody } src) := by
  have hfront : src <+: front ∨ front <+: src := by
    rcases hsrc with hsrc | hsrc
    · exact List.prefix_or_prefix_of_prefix hsrc (List.prefix_append _ _)
    · exact .inr ((List.prefix_append _ _).trans hsrc)
  by_cases hwhole : front <+: src
  · obtain ⟨rest, rfl⟩ := hwhole
    rw [List.prefix_append_right_inj, List.prefix_append_right_inj] at hsrc
    simp only [decodeHead, henc.whole, henc.fits]
    exact .head _ front rest body rfl rfl rfl (.body (Nat.zero_le _) henc.body)
  · obtain ⟨missing, rfl⟩ := hfront.resolve_right hwhole
    have hne : missing ≠ [] := by
      rintro rfl
      exact hwhole (by simp)
    simp only [decodeHead, henc.waits src missing rfl hne]
    refine .wait _ [] src (src ++ missing ++ body) rfl rfl (.head henc) ?_ fun hsame => ?_
    · rw [List.append_assoc]
      exact List.prefix_append _ _
    · have hlen := congrArg List.length hsame
      have hpos := List.length_pos_iff.2 hne
      rw [List.length_append, List.length_append] at hlen
      omega

/-- However the input is cut, the request comes forward by what the call takes. -/
theorem proceeds_decode {d : RequestDecoder} (h : Needs maxBody head size d known left)
    (hsrc : src <+: left ∨ left <+: src) :
    Proceeds maxBody head size known left src (d.decode src) := by
  cases h with
  | head henc => exact proceeds_decodeHead henc hsrc
  | body hreceived hends => exact proceeds_decodeBody hreceived hends hsrc

end RequestDecoder

end WireServer.Http
