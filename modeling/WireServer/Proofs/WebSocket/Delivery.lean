import WireServer.Proofs.WebSocket.Held
import WireServer.Proofs.WebSocket.Legality
import WireServer.Proofs.WebSocket.Sight

/-! Delivery frame by frame and delivery of whole messages. For an application that only records
what it is told, the messages that are put together are the frames grouped by message, as long as
none grows past the limit; at the first that does, the session fails. -/

namespace WireServer.WebSocket

variable {α π τ : Type}

open WireServer.WebSocket.Parser (Received)

/-! ### Frames grouped by message -/

/-- The message that a data frame begins or carries on, with the frame's payload. -/
def joined (o : Option Open) (flags : Flags) (payload : Bytes) : Option Open :=
  match flags.opcode? with
  | some .continuation => o.map fun m => { m with text := m.text ++ payload }
  | some .text => some ⟨.text, payload⟩
  | some .binary => some ⟨.binary, payload⟩
  | _ => none

/-- Callbacks with the messages put together: those so far, and the message in progress. -/
structure Grouping where
  pending : Option Open := none
  calls : List Callback := []

/-- Another callback. A message is one call, with its last frame, and has the opcode of its
first. -/
def Grouping.add (g : Grouping) : Callback → Grouping
  | .connected => { g with calls := g.calls ++ [.connected] }
  | .closed code => { g with calls := g.calls ++ [.closed code] }
  | .message flags payload =>
    match joined g.pending flags payload with
    | none => g
    | some m =>
      if flags.fin then
        { pending := none, calls := g.calls ++ [.message (.new true m.kind.opcode) m.text] }
      else { g with pending := some m }

/-- The callbacks of a log, grouped. -/
def grouping (l : List Callback) : Grouping := l.foldl Grouping.add {}

theorem grouping_append (l : List Callback) (c : Callback) :
    grouping (l ++ [c]) = (grouping l).add c := by
  simp [grouping]

/-- The payload of the message in progress, with a frame behind what the log has of it. -/
def accumulated (l : List Callback) (flags : Flags) (payload : Bytes) : Bytes :=
  ((joined (grouping l).pending flags payload).map (·.text)).getD []

/-- With no frame does the payload of a message grow past the limit. -/
def Fits (limit : Nat) (l : List Callback) : Prop :=
  ∀ front flags payload, front ++ [.message flags payload] <+: l →
    (accumulated front flags payload).length ≤ limit

theorem Fits.append {limit : Nat} {l : List Callback} (h : Fits limit l) {c : Callback}
    (hc : ∀ flags payload, c = .message flags payload →
      (accumulated l flags payload).length ≤ limit) : Fits limit (l ++ [c]) := by
  intro front flags payload hfront
  rcases List.prefix_concat_iff.1 hfront with heq | hfront
  · obtain ⟨rfl, hlast⟩ := List.append_inj' heq rfl
    exact hc flags payload (List.cons.inj hlast).1.symm
  · exact h front flags payload hfront

/-- The first frame with which a message grows past the limit. -/
structure Overflows (limit : Nat) (l front : List Callback) (flags : Flags) (payload : Bytes) :
    Prop where
  stands : front ++ [.message flags payload] <+: l
  fits : Fits limit front
  exceeds : limit < (accumulated front flags payload).length

theorem Overflows.not_fits {limit : Nat} {l front : List Callback} {flags : Flags} {payload : Bytes}
    (h : Overflows limit l front flags payload) : ¬ Fits limit l := fun hfits =>
  absurd (hfits front flags payload h.stands) (Nat.not_le.2 h.exceeds)

/-- The pongs for the pings among some frames. -/
def pongs (rs : List Received) : List Frame :=
  (rs.filter fun r => r.flags.opcode? = some .ping).map fun r => Frame.single .pong r.payload

namespace Link

/-- The service that delivers frame by frame. -/
def frames (h : Handler α) (maxFrame maxMessage : Nat) : Service α :=
  { handler := h, maxFrame, buffered := false, maxMessage }

/-- The service that delivers whole messages. -/
def messages (h : Handler α) (maxFrame maxMessage : Nat) : Service α :=
  { handler := h, maxFrame, buffered := true, maxMessage }

/-! ### Both ways of delivery, frame by frame -/

/-- The two connections are in step: their sessions are the same, and what the one has put together
is what the frames of the other come to. -/
structure Alike (limit : Nat) (o : Option Open) (u b : Sight) : Prop where
  session : u.session = b.session
  calls : (grouping u.log).calls = b.log
  fits : Fits limit u.log
  pending : u.session.standing = .connected →
    (grouping u.log).pending = o ∧ b.message = (o.map (·.text)).getD []

theorem grouping_heard (l : List Callback) (w : Session) (r : Received) :
    (grouping (l ++ heard w r)).pending = (grouping l).pending ∧
      (grouping (l ++ heard w r)).calls = (grouping l).calls ++ heard w r := by
  rcases heard_cases w r with h | ⟨code, h⟩
  · simp [h]
  · simp [h, grouping_append, Grouping.add]

theorem Fits.heard {limit : Nat} {l : List Callback} (h : Fits limit l) (w : Session)
    (r : Received) : Fits limit (l ++ heard w r) := by
  rcases heard_cases w r with hr | ⟨code, hr⟩
  · simpa [hr] using h
  · rw [hr]
    exact Fits.append h nofun

theorem Alike.control {limit : Nat} {o : Option Open} {u b : Sight} (h : Alike limit o u b)
    (r : Received) :
    Alike limit o ⟨controlled u.session r, u.message, u.log ++ heard u.session r⟩
      ⟨controlled b.session r, b.message, b.log ++ heard b.session r⟩ := by
  obtain ⟨hpending, hcalls⟩ := grouping_heard u.log u.session r
  refine ⟨congrArg (controlled · r) h.session, ?_, Fits.heard h.fits _ _, fun hst => ?_⟩
  · rw [hcalls, h.calls, h.session]
  · rw [hpending]
    exact h.pending (controlled_connected hst)

section Data

variable {limit : Nat} {o : Option Open} {u b : Sight} (h : Alike limit o u b)
  (hst : u.session.standing = .connected) {f : Wire} {m : Open} (hm : f.carried o = some m)

include h hst hm

theorem Alike.joined_eq : joined (grouping u.log).pending f.flags f.data = some m := by
  rw [(h.pending hst).1]
  exact hm

theorem Alike.accumulated_eq : accumulated u.log f.flags f.data = m.text := by
  rw [accumulated, h.joined_eq hst hm]
  rfl

/-- What is held of the message, with the frame. -/
theorem Alike.text_eq (hcarries : Carries o (f.received o).frame m) :
    b.message ++ f.data = m.text := by
  rw [(h.pending hst).2]
  cases hcarries with
  | first kind _ => rfl
  | next m _ => rfl

theorem Alike.overflows (hlarge : limit < m.text.length) :
    Overflows limit (u.log ++ [.message f.flags f.data]) u.log f.flags f.data :=
  ⟨List.prefix_rfl, h.fits, by rwa [h.accumulated_eq hst hm]⟩

/-- A data frame with which the message stays within the limit. -/
theorem Alike.data (hfits : m.text.length ≤ limit) :
    Alike limit (f.after o) ⟨u.session, u.message, u.log ++ [.message f.flags f.data]⟩
      (if f.flags.fin then
        ⟨b.session, [], b.log ++ [.message (.new true m.kind.opcode) m.text]⟩
      else ⟨b.session, m.text, b.log⟩) := by
  have hall : Fits limit (u.log ++ [.message f.flags f.data]) := by
    refine Fits.append h.fits ?_
    rintro flags payload ⟨⟩
    rwa [h.accumulated_eq hst hm]
  have hgrouping := grouping_append u.log (.message f.flags f.data)
  simp only [Grouping.add, h.joined_eq hst hm] at hgrouping
  rw [Wire.after_of_carried hm]
  by_cases hfin : f.flags.fin
  · rw [if_pos hfin] at hgrouping ⊢
    rw [if_pos hfin]
    exact ⟨h.session, by rw [hgrouping, h.calls], hall, fun _ => ⟨by rw [hgrouping], rfl⟩⟩
  · rw [if_neg hfin] at hgrouping ⊢
    rw [if_neg hfin]
    exact ⟨h.session, by rw [hgrouping, h.calls], hall, fun _ => ⟨by rw [hgrouping], rfl⟩⟩

end Data

theorem pongs_cons (r : Received) (rs : List Received) : pongs (r :: rs) = pongs [r] ++ pongs rs := by
  simp only [pongs, List.filter_cons, List.filter_nil]
  split <;> rfl

section Step

variable {h : Handler α} (hrecords : h.Records) {maxFrame limit : Nat} {rules : Rules}
  {o : Option Open} {f : Wire} (hf : Obeys rules o f)

include hf

theorem toBytes_controlled {w : Session}
    (hst : (controlled w (f.received o)).standing = .connected) :
    (controlled w (f.received o)).out.toBytes =
      w.out.toBytes ++ (pongs [f.received o]).flatMap Frame.wire := by
  have hw := controlled_connected hst
  obtain ⟨op, hop⟩ := Option.isSome_iff_exists.1 hf.known
  have hop' : (f.received o).flags.opcode? = some op := hop
  cases op with
  | ping =>
    have hflags : (f.received o).flags.withOpcode .pong = .new true .pong :=
      hf.withOpcode hop rfl _
    simp only [controlled, hop', hw, if_true, hflags, pongs, List.filter_cons, decide_true,
      List.filter_nil, List.map_cons, List.map_nil, List.flatMap_cons, List.flatMap_nil,
      List.append_nil]
    exact Handshake.toBytes_queueFrame w _ _
  | close => simp [controlled, hop', closing, hw] at hst
  | _ => simp [controlled, hop', pongs]

include hrecords

/-- While connected, the only output is a pong for each ping. -/
theorem toBytes_hand_frame (u : Turn (α × List Callback) π)
    (hst : (hand (frames h maxFrame limit).logged u
      (f.received o)).1.session.session.standing = .connected) :
    (hand (frames h maxFrame limit).logged u (f.received o)).1.session.session.out.toBytes =
      u.session.session.out.toBytes ++ (pongs [f.received o]).flatMap Frame.wire ∧
        u.session.session.standing = .connected := by
  obtain ⟨op, hop⟩ := Option.isSome_iff_exists.1 hf.known
  have hop' : (f.received o).flags.opcode? = some op := hop
  by_cases hc : op.isControl
  · have hsight := congrArg Sight.session
      (sight_hand_control (s := frames h maxFrame limit) u hrecords hop' hc)
    have hsession : (hand (frames h maxFrame limit).logged u (f.received o)).1.session.session =
      controlled u.session.session (f.received o) := hsight
    rw [hsession] at hst ⊢
    exact ⟨toBytes_controlled hf hst, controlled_connected hst⟩
  have hdata : op.isControl = false := by simpa using hc
  have hping : (f.received o).flags.opcode? ≠ some .ping := by
    rw [hop']
    rintro ⟨⟩
    cases hdata
  have hpongs : pongs [f.received o] = [] := by simp [pongs, hping]
  have hsession : (hand (frames h maxFrame limit).logged u (f.received o)).1.session.session =
      u.session.session := by
    by_cases hu : u.session.session.standing = .connected
    · exact congrArg Sight.session
        (sight_hand_frame (s := frames h maxFrame limit) u hrecords rfl hu hop' hdata)
    · rw [hand_data_of_ne _ u hop' hdata hu]
      rfl
  rw [hsession] at hst ⊢
  exact ⟨by simp [hpongs], hst⟩

/-- What becomes of the two connections with a frame. -/
theorem Alike.hand {u b : Turn (α × List Callback) π}
    (hub : Alike limit o (sight u) (sight b)) :
    let u' := (Link.hand (frames h maxFrame limit).logged u (f.received o)).1
    let b' := (Link.hand (messages h maxFrame limit).logged b (f.received o)).1
    Alike limit (f.after o) (sight u') (sight b') ∨
      u.session.session.standing = .connected ∧
        Overflows limit (log u') (log u) f.flags f.data ∧
        sight b' = ⟨failing u.session.session CloseCode.messageTooBig, [], log b⟩ := by
  intro u' b'
  obtain ⟨op, hop⟩ := Option.isSome_iff_exists.1 hf.known
  have hop' : (f.received o).flags.opcode? = some op := hop
  have hsession : u.session.session = b.session.session := hub.session
  by_cases hc : op.isControl
  · rw [Wire.after_of_carried_none (Parser.carried_of_control hop hc)]
    have hu : sight u' = _ := sight_hand_control u hrecords hop' hc
    have hb : sight b' = _ := sight_hand_control b hrecords hop' hc
    rw [hu, hb]
    exact .inl (hub.control _)
  have hdata : op.isControl = false := by simpa using hc
  by_cases hst : u.session.session.standing = .connected
  · obtain ⟨m, hm, hcarries⟩ := hf.carries hop hdata
    have hkind : (f.received o).kind = some m.kind := by simp [Wire.received, hm]
    have htext : b.session.message ++ (f.received o).payload = m.text :=
      hub.text_eq hst hm hcarries
    have hu : sight u' = _ := sight_hand_frame u hrecords rfl hst hop' hdata
    have hb : sight b' = _ := sight_hand_whole b hrecords rfl (hsession ▸ hst) hop' hdata
    rw [htext, hkind, show (messages h maxFrame limit).maxMessage = limit from rfl] at hb
    by_cases hlarge : limit < m.text.length
    · rw [if_pos hlarge, ← hsession] at hb
      refine .inr ⟨hst, ?_, hb⟩
      rw [show log u' = _ from congrArg Sight.log hu]
      exact hub.overflows hst hm hlarge
    · rw [if_neg hlarge] at hb
      rw [hu, hb]
      exact .inl (hub.data hst hm (Nat.le_of_not_lt hlarge))
  · have hu : u' = bare u := congrArg Prod.fst (hand_data_of_ne _ u hop' hdata hst)
    have hb : b' = bare b := congrArg Prod.fst (hand_data_of_ne _ b hop' hdata (hsession ▸ hst))
    rw [hu, hb]
    exact .inl ⟨hub.session, hub.calls, hub.fits, fun h => absurd h hst⟩

end Step

/-! ### Both ways of delivery, frame after frame -/

/-- The message that is put together grew past the limit: with the frame, behind what the
application of the other connection was told before, the session failed. -/
structure Stopped (limit : Nat) (start : Bytes) (rs : List Received) (u b : Sight)
    (front : List Callback) (flags : Flags) (payload : Bytes) : Prop where
  overflows : Overflows limit u.log front flags payload
  calls : b.log = (grouping front).calls
  dropped : b.message = []
  failed : b.session.standing = .failed
  output : ∃ xs r ys, rs = xs ++ r :: ys ∧ r.flags = flags ∧ r.payload = payload ∧
    b.session.out.toBytes = start ++
      ((pongs xs).flatMap Frame.wire ++ (Frame.close CloseCode.messageTooBig []).wire)

/-- The frame with which the message grows past the limit. -/
theorem Alike.stopped {limit : Nat} {o : Option Open} {u b u' b' : Sight}
    (hub : Alike limit o u b) (hst : u.session.standing = .connected) {flags : Flags}
    {payload : Bytes} (hover : Overflows limit u'.log u.log flags payload)
    (hb : b' = ⟨failing u.session CloseCode.messageTooBig, [], b.log⟩) (r : Received)
    (hflags : r.flags = flags) (hpayload : r.payload = payload) (rs : List Received) :
    Stopped limit u.session.out.toBytes (r :: rs) u' b' u.log flags payload := by
  subst hb
  refine ⟨hover, hub.calls.symm, rfl, rfl, [], r, rs, rfl, hflags, hpayload, ?_⟩
  simp only [failing, hst, if_true, pongs, List.filter_nil, List.map_nil, List.flatMap_nil,
    List.nil_append]
  exact Handshake.toBytes_queueClose u.session CloseCode.messageTooBig

/-- Another frame in front, which was answered at most with a pong. -/
theorem Stopped.cons {limit : Nat} {start start' : Bytes} {r : Received} {rs : List Received}
    {u b : Sight} {front : List Callback} {flags : Flags} {payload : Bytes}
    (h : Stopped limit start' rs u b front flags payload)
    (hstart : start' = start ++ (pongs [r]).flatMap Frame.wire) :
    Stopped limit start (r :: rs) u b front flags payload := by
  obtain ⟨xs, x, ys, rfl, hflags, hpayload, hout⟩ := h.output
  refine ⟨h.overflows, h.calls, h.dropped, h.failed, r :: xs, x, ys, rfl, hflags, hpayload, ?_⟩
  rw [hout, hstart, pongs_cons r xs, List.flatMap_append]
  simp only [List.append_assoc]

/-- The other connection goes on. -/
theorem Stopped.mono {limit : Nat} {start : Bytes} {rs : List Received}
    {u u' b : Sight} {front : List Callback} {flags : Flags} {payload : Bytes}
    (h : Stopped limit start rs u b front flags payload) (hlog : u.log <+: u'.log) :
    Stopped limit start rs u' b front flags payload :=
  { h with overflows := { h.overflows with stands := h.overflows.stands.trans hlog } }

section Run

variable {h : Handler α} (hrecords : h.Records) {maxFrame limit : Nat} {rules : Rules}

include hrecords

theorem Alike.handAll {o : Option Open} {fs : List Wire} (hlegal : Legal rules o fs)
    {u b : Turn (α × List Callback) π} (hub : Alike limit o (sight u) (sight b)) :
    let u' := (Link.handAll (frames h maxFrame limit).logged u (receivedAll o fs)).1
    let b' := (Link.handAll (messages h maxFrame limit).logged b (receivedAll o fs)).1
    (∃ o', Alike limit o' (sight u') (sight b')) ∨
      u.session.session.standing = .connected ∧ ∃ front flags payload,
        Stopped limit u.session.session.out.toBytes (receivedAll o fs) (sight u') (sight b') front
          flags payload := by
  induction fs generalizing o u b with
  | nil => exact .inl ⟨o, hub⟩
  | cons f fs ih =>
    obtain ⟨hf, hfs⟩ := hlegal
    have hsession : u.session.session = b.session.session := hub.session
    cases hdeaf : u.session.deaf with
    | true =>
      have hdeaf' : b.session.deaf = true := by rwa [deaf, ← hsession]
      rw [handAll_of_deaf _ u hdeaf, handAll_of_deaf _ b hdeaf']
      exact .inl ⟨o, hub⟩
    | false =>
      have hdeaf' : b.session.deaf = false := by rwa [deaf, ← hsession]
      rw [receivedAll, handAll_cons hrecords.calm.logged u hdeaf,
        handAll_cons hrecords.calm.logged b hdeaf']
      rcases Alike.hand hrecords hf hub with hnext | ⟨hst, hover, hb⟩
      · rcases ih hfs hnext with hrest | ⟨hst, front, flags, payload, hstopped⟩
        · exact .inl hrest
        · obtain ⟨hout, hu⟩ := toBytes_hand_frame hrecords hf u hst
          exact .inr ⟨hu, front, flags, payload, hstopped.cons hout⟩
      · -- the one session has failed, the other goes on
        have hfailed : (Link.hand (messages h maxFrame limit).logged b
            (f.received o)).1.session.deaf := by
          rw [deaf, show Link.session (Turn.session _) = _ from congrArg Sight.session hb]
          rfl
        have hlog := log_handAll_frame (s := frames h maxFrame limit)
          (Link.hand (frames h maxFrame limit).logged u (f.received o)).1 hrecords rfl
          (Parser.known_of_legal hfs)
        have hstopped : Stopped limit _ _
            (sight (Link.hand (frames h maxFrame limit).logged u (f.received o)).1) _ (log u) f.flags
              f.data :=
          hub.stopped hst hover hb (f.received o) rfl rfl (receivedAll (f.after o) fs)
        rw [handAll_of_deaf (messages h maxFrame limit).logged _ hfailed]
        exact .inr ⟨hst, log u, f.flags, f.data, hstopped.mono hlog⟩

omit hrecords in
/-- Sessions that are the same fail the same way. -/
theorem Alike.fail {o : Option Open} {u b : Turn (α × List Callback) π}
    (hub : Alike limit o (sight u) (sight b)) (code : UInt16) :
    Alike limit o (sight (Link.fail u code)) (sight (Link.fail b code)) := by
  have hsession : u.session.session = b.session.session := hub.session
  rw [sight_fail, sight_fail, ← hsession]
  exact ⟨rfl, hub.calls, hub.fits, nofun⟩

variable (maxFrame) in
/-- The two connections at the end of their input. -/
theorem Alike.digest {o : Option Open} {fs : List Wire} (hlegal : Legal rules o fs)
    {u b : Turn (α × List Callback) π} (hub : Alike limit o (sight u) (sight b))
    (ending : Except Violation Parser) :
    let u' := (Link.digest (frames h maxFrame limit).logged u (receivedAll o fs, ending)).1
    let b' := (Link.digest (messages h maxFrame limit).logged b (receivedAll o fs, ending)).1
    (∃ o', Alike limit o' (sight u') (sight b')) ∨
      u.session.session.standing = .connected ∧ ∃ front flags payload,
        Stopped limit u.session.session.out.toBytes (receivedAll o fs) (sight u') (sight b') front
          flags payload := by
  have hall : (∃ o', Alike limit o'
      (sight (Link.handAll (frames h maxFrame limit).logged u (receivedAll o fs)).1) _) ∨ _ :=
    Alike.handAll hrecords hlegal hub
  rw [digest_fst hrecords.calm.logged, digest_fst hrecords.calm.logged]
  generalize (Link.handAll (frames h maxFrame limit).logged u (receivedAll o fs)).1 = u' at hall ⊢
  generalize (Link.handAll (messages h maxFrame limit).logged b (receivedAll o fs)).1 = b' at hall ⊢
  cases ending with
  | ok p => exact hall
  | error v =>
    rcases hall with ⟨o', hrest⟩ | ⟨hst, front, flags, payload, hstopped⟩
    · have hsession : u'.session.session = b'.session.session := hrest.session
      have hdeaf : u'.session.deaf = b'.session.deaf := by rw [deaf, hsession, deaf]
      dsimp only
      rw [hdeaf]
      split
      · exact .inl ⟨o', hrest⟩
      · exact .inl ⟨o', hrest.fail v.closeCode⟩
    · have hfailed : b'.session.session.standing = .failed := hstopped.failed
      refine .inr ⟨hst, front, flags, payload, ?_⟩
      dsimp only
      rw [if_pos (show b'.session.deaf by simp [deaf, hfailed])]
      refine hstopped.mono ?_
      split
      · exact List.prefix_rfl
      · rw [sight_fail]
        exact List.prefix_rfl

end Run

/-! ### One stream -/

/-- The two connections at their start. -/
theorem alike_opened {h : Handler α} (hrecords : h.Records) (maxFrame limit : Nat)
    (ctx : Context π) (desk : Desk α) :
    Alike limit none (sight (bare (opened (frames h maxFrame limit).logged ctx (withLog desk))))
      (sight (bare (opened (messages h maxFrame limit).logged ctx (withLog desk)))) := by
  rw [show sight (bare _) = _ from sight_opened (s := frames h maxFrame limit) hrecords ctx desk,
    show sight (bare _) = _ from sight_opened (s := messages h maxFrame limit) hrecords ctx desk]
  exact ⟨rfl, rfl, Fits.append (l := []) (fun _ _ _ hfront => by simp at hfront) nofun,
    fun _ => ⟨rfl, rfl⟩⟩

/-- Both ways of delivery, behind all of one stream. -/
theorem observed_alike {h : Handler α} (hrecords : h.Records) (maxFrame limit : Nat)
    (ctx : Context π) (desk : Desk α) {cs ds : List Bytes} (hsame : cs.flatten = ds.flatten) :
    let u := (observed (frames h maxFrame limit) ctx desk cs).1
    let b := (observed (messages h maxFrame limit) ctx desk ds).1
    (∃ o, Alike limit o (sight u) (sight b)) ∨ ∃ front flags payload,
      Stopped limit [] (({ rules := { maxPayload := maxFrame } } : Parser).readChunks cs).1
        (sight u) (sight b) front flags payload := by
  intro u b
  have hu := sight_observed (frames h maxFrame limit) ctx desk cs
  have hb := sight_observed (messages h maxFrame limit) ctx desk ds
  have hcut : ({ rules := { maxPayload := maxFrame } } : Parser).readChunks ds =
      ({ rules := { maxPayload := maxFrame } } : Parser).readChunks cs := by
    have hs : ({ rules := { maxPayload := maxFrame } } : Parser).Steady := ⟨rfl, rfl⟩
    rw [Parser.readChunks_eq_read hs rfl, ← hsame, ← Parser.readChunks_eq_read hs rfl]
  obtain ⟨fs, tail, -, hlegal, hfs⟩ := Parser.readChunks_legal { maxPayload := maxFrame } cs
  have hend := Alike.digest hrecords maxFrame hlegal
    (alike_opened hrecords maxFrame limit ctx desk)
    (({ rules := { maxPayload := maxFrame } } : Parser).readChunks cs).2
  rw [← hfs] at hend
  rw [show (messages h maxFrame limit).maxFrame = maxFrame from rfl, hcut] at hb
  rw [hu, hb]
  rcases hend with halike | ⟨hst, hstopped⟩
  · exact .inl halike
  · refine .inr ?_
    rwa [show (bare (opened _ ctx (withLog desk))).session.session = {} from
      session_opened (s := frames h maxFrame limit) hrecords ctx desk hst] at hstopped

/-- One stream, in whatever pieces, for one application that only records, delivered frame by frame
and as whole messages. As long as no message grows past the limit, the messages are the frames
grouped by message, with all other callbacks where they were, and the sessions are the same. With
the first frame that makes a message grow past it, the messages before are delivered and nothing
else is; the session fails, drops what it held, and behind the pongs for the pings so far queues the
close frame that says so. What is held of a message is within the limit at all times, whatever the
application is. -/
theorem delivery_agrees (h : Handler α) (hrecords : h.Records) (maxFrame limit : Nat)
    (ctx : Context π) (desk : Desk α) (cs ds : List Bytes) (hsame : cs.flatten = ds.flatten) :
    let u := (observed (frames h maxFrame limit) ctx desk cs).1
    let b := (observed (messages h maxFrame limit) ctx desk ds).1
    let seen := ({ rules := { maxPayload := maxFrame } } : Parser).readChunks cs
    (Fits limit (log u) →
        log b = (grouping (log u)).calls ∧ b.session.session = u.session.session) ∧
      (¬ Fits limit (log u) → ∃ front flags payload,
        Overflows limit (log u) front flags payload ∧
        log b = (grouping front).calls ∧ b.session.session.standing = .failed ∧
        b.session.message = [] ∧
        ∃ xs r ys, seen.1 = xs ++ r :: ys ∧ r.flags = flags ∧ r.payload = payload ∧
          b.session.session.out.toBytes =
            (pongs xs).flatMap Frame.wire ++ (Frame.close CloseCode.messageTooBig []).wire) ∧
      ∀ (τ : Type) (g : Handler α) (socket : Net.Sender τ) (events : List (Event τ α π)),
        (run (messages g maxFrame limit) socket ctx desk events).session.message.length ≤
          limit := by
  intro u b seen
  have hend := observed_alike hrecords maxFrame limit ctx desk hsame
  refine ⟨fun hfits => ?_, fun hlarge => ?_,
    fun τ g socket events => held_run socket ctx desk events⟩
  · rcases hend with ⟨o, halike⟩ | ⟨front, flags, payload, hstopped⟩
    · exact ⟨halike.calls.symm, halike.session.symm⟩
    · exact absurd hfits hstopped.overflows.not_fits
  · rcases hend with ⟨o, halike⟩ | ⟨front, flags, payload, hstopped⟩
    · exact absurd halike.fits hlarge
    · obtain ⟨xs, r, ys, hrs, hflags, hpayload, hout⟩ := hstopped.output
      exact ⟨front, flags, payload, hstopped.overflows, hstopped.calls, hstopped.failed,
        hstopped.dropped, xs, r, ys, hrs, hflags, hpayload, hout⟩

/-- An application that does nothing. -/
def silent : Handler Unit where
  onMessage app _ _ := .done app .ok

theorem records_silent : silent.Records :=
  ⟨fun app => ⟨app, rfl⟩, fun app _ _ => ⟨app, rfl⟩, fun app _ => ⟨app, rfl⟩⟩

/-- A text of three frames, one of them empty, with a ping between them, and a message that grows
past two bytes with its third frame; a ping behind it. -/
theorem delivery_agrees_silent :
    let stream : Bytes := [0x01, 0x81, 0, 0, 0, 0, 0x41, 0x89, 0x81, 0, 0, 0, 0, 7,
      0x00, 0x80, 0, 0, 0, 0, 0x80, 0x81, 0, 0, 0, 0, 0x42, 0x02, 0x82, 0, 0, 0, 0, 1, 2,
      0x00, 0x80, 0, 0, 0, 0, 0x80, 0x81, 0, 0, 0, 0, 3, 0x89, 0x80, 0, 0, 0, 0]
    let cs := [stream]
    let ds := [stream.take 10, stream.drop 10]
    let u := (observed (frames silent 16 2) ({} : Context Unit) { app := () } cs).1
    let b := (observed (messages silent 16 2) ({} : Context Unit) { app := () } ds).1
    silent.Records ∧ cs.flatten = ds.flatten ∧ ¬ Fits 2 (log u) ∧
      log b = [.connected, .message ⟨0x81⟩ [0x41, 0x42]] ∧
      b.session.session.standing = .failed ∧
      b.session.session.out.toBytes = [0x8A, 1, 7, 0x88, 2, 0x03, 0xF1] := by
  intro stream cs ds u b
  have hsame : cs.flatten = ds.flatten := by decide
  have hu : log u = [.connected, .message ⟨0x01⟩ [0x41], .message ⟨0x00⟩ [],
      .message ⟨0x80⟩ [0x42], .message ⟨0x02⟩ [1, 2], .message ⟨0x00⟩ []] ++
        [.message ⟨0x80⟩ [3]] := by decide
  have hlarge : ¬ Fits 2 (log u) := fun hfits => by
    rw [hu] at hfits
    exact absurd (hfits _ _ _ List.prefix_rfl) (by decide)
  obtain ⟨-, hstopped, -⟩ :=
    delivery_agrees silent records_silent 16 2 ({} : Context Unit) { app := () } cs ds hsame
  obtain ⟨_, _, _, -, -, hfailed, -⟩ := hstopped hlarge
  exact ⟨records_silent, hsame, hlarge, by decide, hfailed, by decide⟩

end Link

end WireServer.WebSocket
