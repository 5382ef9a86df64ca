import WireServer.Proofs.Http.Interim
import WireServer.Proofs.Http.LastRequest

/-! How much input a session holds. The decoder runs dry behind every read: what it leaves in the
buffer is the start of a head and keeps to the limit for heads, and the body that is read is as long
as the decoder has counted, which keeps to the limit for bodies. -/

namespace WireServer.Http

variable {α π τ : Type}

/-- A head that is still to be completed keeps to its limit. -/
theorem HeadDecoder.length_le_of_waiting {src rest : Bytes}
    (h : HeadDecoder.decode src = (rest, .ok none)) : rest.length ≤ HeadDecoder.maxBytes := by
  obtain rfl := RequestDecoder.rest_of_waiting h
  unfold HeadDecoder.decode HeadDecoder.assemble at h
  split at h
  · rename_i hshort
    exact Nat.le_of_lt (Nat.lt_of_lt_of_le hshort (by decide))
  split at h
  · split at h
    · cases h
    · rename_i hlimit
      exact Nat.not_lt.1 hlimit
  · cases h
  · cases h
  · cases h
  · dsimp only at h
    split at h
    · cases h
    split at h
    · cases h
    · split at h <;> cases h

namespace RequestDecoder

variable {maxBody : Nat} {d : RequestDecoder} {current : Option Request} {src : Bytes}

/-- The decoder counts the body of the request that is being read. -/
inductive Meters (maxBody : Nat) : RequestDecoder → Option Request → Prop
  | between (received : Nat) : Meters maxBody { maxBody, body := none, received } none
  | within {b : BodyDecoder} (r : Request) : b.Fed → r.body.length ≤ maxBody →
      Meters maxBody { maxBody, body := some b, received := r.body.length } (some r)

theorem Meters.body_le (h : Meters maxBody d current) :
    ∀ r ∈ current, r.body.length ≤ maxBody := by
  cases h with
  | between => nofun
  | within r _ hle =>
    rintro q ⟨⟩
    exact hle

/-- All that one call of the decoder can come to. -/
inductive Metes (maxBody : Nat) (current : Option Request) (src : Bytes) : Outcome → Prop
  | head (d : RequestDecoder) (head : RequestHead) (size : BodySize) (rest : Bytes) :
      current = none → rest.length < src.length → Meters maxBody d (some { head }) →
      Metes maxBody current src (d, rest, .ok (some (.head head size)))
  | chunk (r : Request) (d : RequestDecoder) (data rest : Bytes) : current = some r →
      rest.length < src.length → Meters maxBody d (some { r with body := r.body ++ data }) →
      Metes maxBody current src (d, rest, .ok (some (.body (.chunk data))))
  | eof (r : Request) (d : RequestDecoder) (rest : Bytes) : current = some r →
      r.body.length ≤ maxBody → rest.length ≤ src.length → Meters maxBody d none →
      Metes maxBody current src (d, rest, .ok (some (.body .eof)))
  | wait (d : RequestDecoder) (rest : Bytes) : rest.length ≤ HeadDecoder.maxBytes →
      Meters maxBody d current → Metes maxBody current src (d, rest, .ok none)
  | fail (d : RequestDecoder) (rest : Bytes) (e : RequestError) :
      Metes maxBody current src (d, rest, .error e)

open BodyDecoder Marked in
theorem metes_decodeBody {b : BodyDecoder} {r : Request} (hb : b.Fed)
    (hle : r.body.length ≤ maxBody) : Metes maxBody (some r) src
      (decodeBody { maxBody, body := some b, received := r.body.length } b src) := by
  have hyields := yields_decode hb src
  unfold decodeBody
  generalize b.decode src = outcome at hyields
  cases hyields with
  | eof ms c rest _ _ _ hsrc =>
    exact .eof r _ rest rfl hle (by simp [hsrc]) (.between r.body.length)
  | chunk ms c rest htakes hdata hsrc =>
    by_cases hroom : r.body.length + (data ms).length > maxBody
    · simp only [if_pos hroom]
      exact .fail _ rest _
    · simp only [if_neg hroom]
      have hpos : 0 < ms.length :=
        List.length_pos_iff.2 fun hnone => hdata (by rw [hnone, data_nil])
      have hmeters := Meters.within { r with body := r.body ++ data ms } (htakes.fed hb)
        (by simpa using hroom)
      refine .chunk r _ (data ms) rest rfl ?_ (by simpa using hmeters)
      rw [hsrc, List.length_append, length_bytes]
      omega
  | wait ms c htakes =>
    exact .wait _ [] (Nat.zero_le _) (.within r (htakes.fed hb) hle)
  | fault => exact .fail _ _ _

theorem metes_decodeHead {received : Nat} :
    Metes maxBody none src (decodeHead { maxBody, body := none, received } src) := by
  unfold decodeHead
  rcases hhead : HeadDecoder.decode src with ⟨rest, e | _ | ⟨head, size⟩⟩
  · exact .fail _ rest e
  · exact .wait _ rest (HeadDecoder.length_le_of_waiting hhead) (.between received)
  · dsimp only
    split
    · exact .fail _ rest _
    · exact .head _ head size rest rfl (HeadDecoder.length_lt_of_decode hhead)
        (.within { head } (BodyDecoder.fed_ofSize size) (Nat.zero_le _))

theorem metes_decode (h : Meters maxBody d current) :
    Metes maxBody current src (d.decode src) := by
  cases h with
  | between received => exact metes_decodeHead
  | within r hb hle => exact metes_decodeBody hb hle

end RequestDecoder

namespace Session

variable {service : Service α π} {t u : Turn α π} {maxBody : Nat}

/-! ### While the buffer is decoded -/

/-- The body of the request that is being read is counted. -/
def Metered (maxBody : Nat) (s : Session π) : Prop :=
  RequestDecoder.Meters maxBody s.decoder s.current

/-- A request leaves what is read alone, as long as others are taken behind it. -/
theorem dispatch_session (service : Service α π) (t : Turn α π) (r : Request)
    (h : (dispatch service t r).session.Takes) : ∃ pending nextSlot,
      (dispatch service t r).session = { t.session with pending, nextSlot } := by
  have hserve (p : Pending π) (hp : (serve service
        (t.modify fun s => { s with nextSlot := t.session.nextSlot + 1 }) p r).session.Takes) :
      ∃ pending nextSlot, (serve service
        (t.modify fun s => { s with nextSlot := t.session.nextSlot + 1 }) p r).session =
          { t.session with pending, nextSlot } := by
    by_cases hkeep : p.keepAlive = true
    · obtain ⟨pending, hcall⟩ := callHandler_eq service (t.modify fun s =>
        { s with nextSlot := t.session.nextSlot + 1, pending := s.pending ++ [p] }) p.slot r
      refine ⟨pending, t.session.nextSlot + 1, ?_⟩
      simp only [serve, hkeep, if_true]
      exact hcall
    · exact absurd hp (refuses_serve service _ (by simpa using hkeep) r)
  unfold dispatch at h ⊢
  dsimp only at h ⊢
  split at h
  · rename_i hplain
    rw [if_pos hplain]
    exact hserve _ h
  rename_i hupgrade
  rw [if_neg hupgrade]
  cases hask : UpgradeHandler.ask service.upgradeChain r.head with
  | handled response next => exact absurd (hask ▸ h) (not_takes_upgrading rfl)
  | ignore => exact hserve _ (by simpa only [hask] using h)
  | unknown => exact absurd (hask ▸ h) (not_takes_failed rfl)
  | refused status => exact absurd (hask ▸ h) (not_takes_failed rfl)

/-- Behind an event the body is still counted, and less is left to do. -/
theorem Metered.handleEvent (h : t.session.Metered maxBody) {d : RequestDecoder} {buffer : Bytes}
    {event : RequestEvent}
    (hdecode : t.session.decoder.decode t.session.buffer = (d, buffer, .ok (some event)))
    (htakes : (handleEvent service (t.modify fun s => { s with decoder := d, buffer })
      event).session.Takes) :
    (handleEvent service (t.modify fun s => { s with decoder := d, buffer })
        event).session.Metered maxBody ∧
      (handleEvent service (t.modify fun s => { s with decoder := d, buffer })
        event).session.work < t.session.work := by
  have hmetes : RequestDecoder.Metes maxBody t.session.current t.session.buffer
    (t.session.decoder.decode t.session.buffer) := RequestDecoder.metes_decode h
  rw [hdecode] at hmetes
  cases hmetes with
  | head _ head size _ hnone hless hmeters =>
    obtain ⟨out, hstart⟩ := startRequest_reads { t.session with decoder := d, buffer } head size
    simp only [Session.handleEvent, Turn.modify, hstart]
    refine ⟨hmeters, ?_⟩
    simp only [work, hnone, Option.isSome_some, Option.isSome_none, if_true, Bool.false_eq_true,
      if_false]
    omega
  | chunk r _ data _ hcurrent hless hmeters =>
    simp only [Session.handleEvent, Turn.modify, hcurrent, Option.map_some]
    refine ⟨hmeters, ?_⟩
    simp only [work, hcurrent, Option.isSome_some, if_true]
    omega
  | eof r _ _ hcurrent _ hle hmeters =>
    simp only [Session.handleEvent, Turn.modify, hcurrent] at htakes ⊢
    obtain ⟨pending, nextSlot, hsession⟩ := dispatch_session service _ r htakes
    rw [hsession]
    refine ⟨hmeters, ?_⟩
    simp only [work, hcurrent, Option.isSome_some, Option.isSome_none, if_true, Bool.false_eq_true,
      if_false]
    omega

/-- A session that still takes requests holds little input: the start of a head, and a body within
the limit. -/
def Bounded (maxBody : Nat) (s : Session π) : Prop :=
  s.Takes → s.Metered maxBody ∧ s.buffer.length ≤ HeadDecoder.maxBytes

/-- The decoder runs dry. -/
theorem Metered.processEvents (h : t.session.Takes → t.session.Metered maxBody) {n : Nat}
    (hn : t.session.Takes → t.session.work < n) :
    (processEvents service n t).session.Bounded maxBody := by
  induction n generalizing t with
  | zero => exact fun htakes => absurd (hn htakes) (Nat.not_lt_zero _)
  | succ n ih =>
    unfold Session.processEvents
    split
    · rename_i hrefuses
      exact fun htakes => absurd htakes (by simpa [Takes, Decidable.imp_iff_not_or] using hrefuses)
    rename_i htakes
    have ht : t.session.Takes := by simpa [Takes] using htakes
    rcases hdecode : t.session.decoder.decode t.session.buffer with ⟨d, buffer, e | _ | event⟩
    · exact fun htakes => absurd htakes (not_takes_failed rfl)
    · have hmetes : RequestDecoder.Metes maxBody t.session.current t.session.buffer
        (t.session.decoder.decode t.session.buffer) := RequestDecoder.metes_decode (h ht)
      rw [hdecode] at hmetes
      cases hmetes with
      | wait _ _ hle hmeters => exact fun _ => ⟨hmeters, hle⟩
    · refine ih (fun htakes => ((h ht).handleEvent hdecode htakes).1) fun htakes => ?_
      have hless := ((h ht).handleEvent hdecode htakes).2
      have hwork := hn ht
      omega

/-- The turns in which the decoder is asked, one behind the other, while the buffer is decoded. -/
def processMoments (service : Service α π) : Nat → Turn α π → List (Turn α π)
  | 0, _ => []
  | fuel + 1, t =>
    if t.session.mode ≠ .serving || !t.session.accepting then []
    else match t.session.decoder.decode t.session.buffer with
      | (d, buffer, .ok (some event)) =>
        t :: processMoments service fuel
          (handleEvent service (t.modify fun s => { s with decoder := d, buffer }) event)
      | (_, _, .ok none) | (_, _, .error _) => [t]

/-- The turns in which the decoder is asked during a read. -/
def readMoments (service : Service α π) (t : Turn α π) (src : Bytes) : List (Turn α π) :=
  let kept := t.modify fun s => { s with buffer := s.buffer ++ src }
  match t.session.mode with
  | .serving =>
    if t.session.accepting then processMoments service (2 * kept.session.buffer.length + 3) kept
    else []
  | .upgrading | .failed => []

/-- The request that is dispatched on what the decoder answers. -/
def momentRequests (t : Turn α π) : List Request :=
  match t.session.decoder.decode t.session.buffer with
  | (d, buffer, .ok (some event)) =>
    eventRequests (t.modify fun s => { s with decoder := d, buffer }) event
  | (_, _, .ok none) | (_, _, .error _) => []

theorem processRequests_eq (service : Service α π) (n : Nat) (t : Turn α π) :
    processRequests service n t = (processMoments service n t).flatMap momentRequests := by
  induction n generalizing t with
  | zero => rfl
  | succ n ih =>
    rw [processRequests, processMoments]
    split
    · rfl
    rcases hdecode : t.session.decoder.decode t.session.buffer with ⟨d, buffer, e | _ | event⟩
    · simp [momentRequests, hdecode]
    · simp [momentRequests, hdecode]
    · simp [momentRequests, hdecode, ih]

theorem metered_of_mem (h : t.session.Takes → t.session.Metered maxBody) {n : Nat}
    (hu : u ∈ processMoments service n t) : u.session.Metered maxBody := by
  induction n generalizing t with
  | zero => cases hu
  | succ n ih =>
    unfold processMoments at hu
    split at hu
    · cases hu
    rename_i htakes
    have ht : t.session.Takes := by simpa [Takes] using htakes
    rcases hdecode : t.session.decoder.decode t.session.buffer with ⟨d, buffer, e | _ | event⟩
    · simp only [hdecode, List.mem_singleton] at hu
      exact hu ▸ h ht
    · simp only [hdecode, List.mem_singleton] at hu
      exact hu ▸ h ht
    · simp only [hdecode, List.mem_cons] at hu
      obtain rfl | hu := hu
      · exact h ht
      · exact ih (fun htakes => ((h ht).handleEvent hdecode htakes).1) hu

/-- A request that is dispatched keeps to the limit. -/
theorem Metered.momentRequests (h : u.session.Metered maxBody) :
    ∀ q ∈ momentRequests u, q.body.length ≤ maxBody := by
  have hmetes : RequestDecoder.Metes maxBody u.session.current u.session.buffer
    (u.session.decoder.decode u.session.buffer) := RequestDecoder.metes_decode h
  unfold Session.momentRequests
  generalize u.session.decoder.decode u.session.buffer = outcome at hmetes
  cases hmetes with
  | eof r _ _ hcurrent hle =>
    simp only [eventRequests, Turn.modify, hcurrent, Option.toList_some, List.mem_singleton]
    rintro q rfl
    exact hle
  | _ => exact List.forall_mem_nil _

theorem processRequests_le (h : t.session.Takes → t.session.Metered maxBody) (n : Nat) :
    ∀ q ∈ processRequests service n t, q.body.length ≤ maxBody := by
  rw [processRequests_eq]
  intro q hq
  obtain ⟨u, hu, hq⟩ := List.mem_flatMap.1 hq
  exact (metered_of_mem h hu).momentRequests q hq

/-! ### Between the calls -/

/-- What becomes of the next input, and where it goes on. -/
def intake (s : Session π) : Mode × Bytes × RequestDecoder × Option Request :=
  (s.mode, s.buffer, s.decoder, s.current)

theorem Bounded.mono {s s' : Session π} (h : s.Bounded maxBody) (hintake : s'.intake = s.intake)
    (htakes : s'.Takes → s.Takes) : s'.Bounded maxBody := by
  intro ht
  obtain ⟨hmeters, hle⟩ := h (htakes ht)
  simp only [intake, Prod.mk.injEq] at hintake
  obtain ⟨-, hbuffer, hdecoder, hcurrent⟩ := hintake
  exact ⟨by rwa [Metered, hdecoder, hcurrent], hbuffer ▸ hle⟩

theorem intake_flushFront (s : Session π) (ps : List (Pending π)) :
    (s.flushFront ps).intake = s.intake := by
  induction ps generalizing s with
  | nil => rfl
  | cons p ps ih =>
    simp only [flushFront]
    split
    · rfl
    split
    · rfl
    split
    · exact ih _
    · rfl

theorem intake_arm (t : Turn α π) : (arm t).session.intake = t.session.intake := by
  obtain ⟨ending, harm⟩ := arm_session t
  rw [harm]
  rfl

theorem intake_wakeup (t : Turn α π) (items : List Item) :
    (wakeup t items).session.intake = t.session.intake := by
  obtain ⟨ending, hwakeup⟩ := wakeup_session t items
  obtain ⟨pending, hitems⟩ := applyItems_eq t.session items
  rw [hwakeup, hitems]
  exact intake_flushFront _ _

theorem intake_write (t : Turn α π) (socket : Net.Sender τ) (io : τ) :
    (write t socket io).1.session.intake = t.session.intake := by
  obtain ⟨-, ending, hwrite⟩ := write_session t socket io
  rw [hwrite]
  exact intake_flushFront _ _

theorem intake_endWithLast (s : Session π) : s.endWithLast.intake = s.intake := by
  unfold endWithLast
  split
  · rfl
  · split <;> rfl

theorem intake_stop (t : Turn α π) : (stop t).session.intake = t.session.intake := by
  obtain ⟨-, hstop⟩ | ⟨-, ending, hstop⟩ := stop_session t
  · rw [hstop]
  · rw [hstop]
    exact intake_endWithLast _

/-- What a session holds keeps within its bounds. -/
theorem Bounded.read (h : t.session.Bounded service.maxBody) (src : Bytes) :
    (read service t src).session.Bounded service.maxBody := by
  unfold Session.read
  cases hmode : t.session.mode with
  | serving =>
    dsimp only
    split
    · have hmetered : t.session.Takes → t.session.Metered service.maxBody := fun ht => (h ht).1
      let kept := t.modify fun s => { s with buffer := s.buffer ++ src }
      have hrun : (processEvents service (2 * kept.session.buffer.length + 3) kept).session.Bounded
          service.maxBody :=
        Metered.processEvents (t := kept) hmetered fun _ => by
          simp only [work]
          split <;> omega
      unfold process
      generalize processEvents service _ kept = u at hrun ⊢
      exact hrun.mono ((intake_arm _).trans (intake_flushFront _ _)) fun ht =>
        (narrows_flushFront _ _).takes ((narrows_arm _).takes ht)
    · exact h
  | upgrading => exact fun ht => absurd ht (not_takes_upgrading hmode)
  | failed => exact h

theorem Bounded.happen (h : t.session.Bounded service.maxBody) (socket : Net.Sender τ)
    (e : Event τ α π) : (happen service socket t e).session.Bounded service.maxBody := by
  cases e with
  | read src => exact h.read src
  | wakeup items => exact h.mono (intake_wakeup t items) (narrows_wakeup t items).takes
  | write io => exact h.mono (intake_write t socket io) (narrows_write t socket io).takes
  | stop => exact h.mono (intake_stop t) (narrows_stop t).takes
  | takeLeftover => exact fun ht => ⟨(h ht).1, Nat.zero_le _⟩
  | outside ctx desk => exact h

theorem bounded_run (socket : Net.Sender τ) {r : Record α π}
    (h : r.turn.session.Bounded service.maxBody) (es : List (Event τ α π)) :
    (r.run service socket es).turn.session.Bounded service.maxBody := by
  induction es generalizing r with
  | nil => exact h
  | cons e es ih => exact ih (h.happen socket e)

theorem bounded_fresh (service : Service α π) (ctx : Context π) (desk : Desk α) :
    (Record.fresh service ctx desk).turn.session.Bounded service.maxBody :=
  fun _ => ⟨.between 0, Nat.zero_le _⟩

end Session

end WireServer.Http
