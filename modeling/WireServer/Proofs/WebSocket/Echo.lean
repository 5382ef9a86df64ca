import WireServer.Proofs.WebSocket.Cuts
import WireServer.Proofs.WebSocket.Legality

/-! An echo server end to end. Its client reads back every data frame that the server took, a pong
for every ping, and at the end one close frame: the peer's own, or the one that a violation is
answered with. The client's parser never rejects any of it. -/

namespace WireServer.WebSocket

variable {α π : Type}

open WireServer.WebSocket.Parser (Received)

/-! ### What a client gets back -/

/-- The status that a close payload is answered with: its own where that is valid. -/
def answeredStatus : Bytes → UInt16
  | [] => 1000
  | [_] => 1002
  | hi :: lo :: _ =>
    let code := UInt16.ofNat (hi.toNat * 256 + lo.toNat)
    if CloseCode.valid code then code else 1002

/-- The frames that answer a reading: data comes back as it is, up to the first close frame or the
violation. -/
def replies (ending : Except Violation Parser) : List Received → List Frame
  | [] => match ending with
    | .ok _ => []
    | .error v => [Frame.close v.closeCode []]
  | r :: rs => match r.flags.opcode? with
    | some .ping => Frame.single .pong r.payload :: replies ending rs
    | some .pong => replies ending rs
    | some .close => [Frame.close (answeredStatus r.payload) []]
    | _ => r.frame :: replies ending rs

namespace Link

theorem answerCode_eq (payload : Bytes) : answerCode payload = answeredStatus payload := by
  unfold answerCode CloseCode.ofPayload answeredStatus
  match payload with
  | [] => rfl
  | [_] => rfl
  | hi :: lo :: _ =>
    dsimp only
    generalize UInt16.ofNat (hi.toNat * 256 + lo.toNat) = code
    cases CloseCode.valid code <;> rfl

theorem calm_echo : (Handler.echo : Handler α).Calm := nofun

/-! ### What the server queues -/

section Queued

variable {s : Service α} (hecho : s.handler = .echo) (hframes : s.buffered = false)
  {t : Turn α π} {r : Received}

theorem Session.sendFrame_ok {w : Session} {flags : Flags} {payload : Bytes} {op : Opcode}
    (hw : w.standing = .connected) (hop : flags.opcode? = some op) (hdata : op.isControl = false)
    (hreserved : flags.reserved = 0) :
    w.sendFrame flags payload = (w.queueFrame flags payload, .ok ()) := by
  have hrefusal : w.refusal? = none := by simp [Session.refusal?, hw]
  have hfault : Session.frameFault? flags payload = none := by
    have hclose : op ≠ .close := by
      rintro rfl
      cases hdata
    simp [Session.frameFault?, hop, hclose, hreserved, hdata]
  rw [Session.sendFrame, hrefusal, hfault]

include hecho

include hframes in
theorem hand_echo_data (hst : t.session.session.standing = .connected) {op : Opcode}
    (hop : r.flags.opcode? = some op) (hdata : op.isControl = false)
    (hreserved : r.flags.reserved = 0) :
    hand s t r = (onSession (·.queueFrame r.flags r.payload) (bare t), .ok ()) := by
  have hsend : t.session.session.sendFrame r.flags r.payload = _ :=
    Session.sendFrame_ok hst hop hdata hreserved
  rw [hand_data s t hop hdata, deliver, session_setParser, if_neg (by simpa using hst), hframes,
    if_neg (by simp), hecho]
  have hcall : call (setParser t r.held) (Handler.echo.onMessage t.desk.app r.flags r.payload) =
      (onSession (·.queueFrame r.flags r.payload) (setParser t r.held), .ok) := by
    simp only [call, Handler.echo, Program.run, session_setParser, hsend]
    rfl
  have hfail : callOrFail (setParser t r.held)
      (Handler.echo.onMessage t.desk.app r.flags r.payload) =
        onSession (·.queueFrame r.flags r.payload) (setParser t r.held) := by
    rw [callOrFail, hcall]
    rfl
  exact congrArg (fun u => (bare u, Except.ok ())) hfail

theorem hand_echo_close (hst : t.session.session.standing = .connected)
    (hop : r.flags.opcode? = some .close) :
    hand s t r = (onSession (fun w =>
      { w.queueClose (answeredStatus r.payload) with
        standing := .closeReceived, lastWords := true }) (bare t), .ok ()) := by
  rw [hand_close s t hop, peerClose, session_setParser, hst]
  simp only [tellClose, hecho, ← answerCode_eq]
  rfl

end Queued

/-- Behind the peer's close frame nothing more is queued, not even for a violation. -/
theorem digest_closeReceived (s : Service α) {t : Turn α π}
    (hst : t.session.session.standing = .closeReceived) {rs : List Received}
    (hrs : ∀ r ∈ rs, r.flags.opcode?.isSome) (ending : Except Violation Parser) :
    (digest s t (rs, ending)).1.session.session.out = t.session.session.out := by
  have hall : ∀ t : Turn α π, t.session.session.standing = .closeReceived →
      ∃ u : Turn α π, handAll s t rs = (u, .ok ()) ∧
        u.session.session = t.session.session := by
    induction rs with
    | nil => exact fun t _ => ⟨t, rfl, rfl⟩
    | cons r rs ih =>
      intro t hst
      obtain ⟨op, hop⟩ := Option.isSome_iff_exists.1 (hrs r List.mem_cons_self)
      obtain ⟨u, hu, hsession⟩ := ih (fun r hr => hrs r (List.mem_cons_of_mem _ hr)) (bare t) hst
      refine ⟨u, ?_, hsession⟩
      rw [handAll, if_neg (by simp [deaf, hst]), hand_closeReceived s t hop hst]
      exact hu
  obtain ⟨u, hu, hsession⟩ := hall t hst
  rw [digest, hu, pass]
  cases ending with
  | ok p => exact congrArg Session.out hsession
  | error v =>
    have hst : u.session.session.standing = .closeReceived := by rw [hsession, hst]
    dsimp only
    split
    · exact congrArg Session.out hsession
    · rw [fail_eq, session_arm, ← hsession]
      simp [put, Turn.modify, failing, hst]

/-- A frame that is answered with another, in front of more. -/
theorem toBytes_digest_cons {s : Service α} {t : Turn α π} {r : Received} {rs : List Received}
    {ending : Except Violation Parser} (hdeaf : t.session.deaf = false) (f : Frame)
    (hhand : hand s t r = (onSession (·.queueFrame f.flags f.payload) (bare t), .ok ()))
    {fs : List Frame}
    (hrest : (digest s (onSession (·.queueFrame f.flags f.payload) (bare t))
        (rs, ending)).1.session.session.out.toBytes =
      (onSession (·.queueFrame f.flags f.payload) (bare t)).session.session.out.toBytes ++
        fs.flatMap Frame.wire) :
    (digest s t (r :: rs, ending)).1.session.session.out.toBytes =
      t.session.session.out.toBytes ++ (f :: fs).flatMap Frame.wire := by
  have hqueued : (onSession (·.queueFrame f.flags f.payload) (bare t)).session.session.out.toBytes =
      t.session.session.out.toBytes ++ f.wire :=
    Handshake.toBytes_queueFrame t.session.session f.flags f.payload
  rw [digest_cons s t hdeaf, hhand, pass, hrest, hqueued, List.flatMap_cons, List.append_assoc]

/-- The server queues the answers to what it reads. -/
theorem toBytes_digest_echo {s : Service α} (hecho : s.handler = .echo)
    (hframes : s.buffered = false) {rules : Rules} {o : Option Open} {fs : List Wire}
    (hlegal : Legal rules o fs) {t : Turn α π} (hst : t.session.session.standing = .connected)
    (ending : Except Violation Parser) :
    (digest s t (receivedAll o fs, ending)).1.session.session.out.toBytes =
      t.session.session.out.toBytes ++
        (replies ending (receivedAll o fs)).flatMap Frame.wire := by
  induction fs generalizing o t with
  | nil =>
    have hdeaf : t.session.deaf = false := by simp [deaf, hst]
    cases ending with
    | ok p => simp [digest, handAll, pass, receivedAll, replies]
    | error v =>
      simp only [digest, handAll, pass, receivedAll, replies, hdeaf, Bool.false_eq_true, if_false,
        fail_eq, session_arm, List.flatMap_cons, List.flatMap_nil, List.append_nil]
      simp only [put, Turn.modify, failing, hst, if_true]
      exact Handshake.toBytes_queueClose t.session.session v.closeCode
  | cons f fs ih =>
    have hdeaf : t.session.deaf = false := by simp [deaf, hst]
    obtain ⟨hf, hfs⟩ := hlegal
    obtain ⟨op, hop⟩ := Option.isSome_iff_exists.1 hf.known
    have hop' : (f.received o).flags.opcode? = some op := hop
    have hdata (hc : op.isControl = false)
        (hreplies : replies ending (f.received o :: receivedAll (f.after o) fs) =
          (f.received o).frame :: replies ending (receivedAll (f.after o) fs)) :
        (digest s t (receivedAll o (f :: fs), ending)).1.session.session.out.toBytes =
          t.session.session.out.toBytes ++
            (replies ending (receivedAll o (f :: fs))).flatMap Frame.wire := by
      rw [receivedAll, hreplies]
      exact toBytes_digest_cons hdeaf (f.received o).frame
        (hand_echo_data hecho hframes hst hop' hc hf.reserved) (ih hfs hst)
    cases op with
    | continuation => exact hdata rfl (by simp [replies, hop'])
    | text => exact hdata rfl (by simp [replies, hop'])
    | binary => exact hdata rfl (by simp [replies, hop'])
    | ping =>
      have hpong := hand_ping s t hop'
      have hflags : (f.received o).flags.withOpcode .pong = .new true .pong :=
        hf.withOpcode hop rfl _
      rw [if_pos hst, hflags] at hpong
      rw [receivedAll, show replies ending (f.received o :: receivedAll (f.after o) fs) =
        Frame.single .pong (f.received o).payload :: replies ending (receivedAll (f.after o) fs) by
          simp [replies, hop']]
      exact toBytes_digest_cons hdeaf (.single .pong (f.received o).payload) hpong (ih hfs hst)
    | pong =>
      rw [receivedAll, digest_cons s t hdeaf, hand_pong s t hop', pass, ih hfs (t := bare t) hst]
      simp only [replies, hop']
      rfl
    | close =>
      rw [receivedAll, digest_cons s t hdeaf, hand_echo_close hecho hst hop', pass,
        digest_closeReceived s rfl (Parser.known_of_legal hfs)]
      simp only [replies, hop', List.flatMap_cons, List.flatMap_nil, List.append_nil]
      exact Handshake.toBytes_queueClose t.session.session _

end Link

/-! ### The answers are legal -/

theorem Flags.parts_new_true (o : Opcode) : (Flags.new true o).reserved = 0 ∧
    (Flags.new true o).opcode? = some o ∧ (Flags.new true o).fin := by
  cases o <;> decide

/-- Control frames as the server writes them may stand anywhere. -/
theorem LegalFrames.single {limit : Nat} {o : Option Open} {op : Opcode} {payload : Bytes}
    {fs : List Frame} (hop : op.isControl) (hshort : payload.length ≤ 125)
    (hreason : op = .close → 2 < payload.length → Utf8.WellFormed (payload.drop 2))
    (hlimit : 125 ≤ limit) (hfs : LegalFrames limit o fs) :
    LegalFrames limit o (.single op payload :: fs) := by
  obtain ⟨hreserved, hopcode, hfin⟩ := Flags.parts_new_true op
  exact .control op hopcode hop hfin hshort hreason
    ⟨hreserved, Nat.le_trans hshort hlimit, Nat.lt_of_le_of_lt hshort (by decide)⟩ hfs

/-- A close frame with a status and nothing else, behind which nothing follows. -/
theorem LegalFrames.close {limit : Nat} {o : Option Open}
    (ho : ∀ m, o = some m → m.kind = .text → Utf8.Extensible m.text) (hlimit : 125 ≤ limit)
    (code : UInt16) : LegalFrames limit o [Frame.close code []] := by
  have hlength : (CloseCode.payload code []).length = 2 := by simp [CloseCode.payload]
  exact .single rfl (by omega) (fun _ h => absurd h (by omega)) hlimit (.done o ho)

/-- What a legal sequence of frames is answered with is one itself. -/
theorem legalFrames_replies {rules : Rules} {limit : Nat} (hrules : rules.maxPayload ≤ limit)
    (hlimit : 125 ≤ limit) {o : Option Open}
    (ho : ∀ m, o = some m → m.kind = .text → Utf8.Extensible m.text) {fs : List Wire}
    (hlegal : Legal rules o fs) (ending : Except Violation Parser) :
    LegalFrames limit o (replies ending (receivedAll o fs)) := by
  induction fs generalizing o with
  | nil =>
    cases ending with
    | ok p => exact .done o ho
    | error v => exact .close ho hlimit v.closeCode
  | cons f fs ih =>
    obtain ⟨hf, hfs⟩ := hlegal
    obtain ⟨op, hop⟩ := Option.isSome_iff_exists.1 hf.known
    have hop' : (f.received o).flags.opcode? = some op := hop
    have hafter (hc : op.isControl) : f.after o = o :=
      Wire.after_of_carried_none (Parser.carried_of_control hop hc)
    have hdata (hc : op.isControl = false) :
        LegalFrames limit o ((f.received o).frame :: replies ending (receivedAll (f.after o) fs)) := by
      obtain ⟨m, hm, hcarries⟩ := hf.carries hop hc
      have hafter := Wire.after_of_carried hm
      have hplain : (f.received o).frame.Plain limit :=
        ⟨hf.reserved, Nat.le_trans hf.size hrules, hf.length⟩
      by_cases hfin : f.flags.fin
      · rw [if_pos hfin] at hafter
        rw [hafter] at hfs ⊢
        have hnone (m : Open) (hm : none = some m) : m.kind = .text → Utf8.Extensible m.text := by
          cases hm
        exact .last m hcarries hfin (fun ht => (hf.text m hm ht).2 hfin) hplain (ih hnone hfs)
      · rw [if_neg hfin] at hafter
        rw [hafter] at hfs ⊢
        refine .fragment m hcarries (Bool.eq_false_iff.2 hfin) hplain (ih ?_ hfs)
        rintro m' ⟨⟩ ht
        exact (hf.text m hm ht).1
    cases op with
    | continuation => simpa only [receivedAll, replies, hop'] using hdata rfl
    | text => simpa only [receivedAll, replies, hop'] using hdata rfl
    | binary => simpa only [receivedAll, replies, hop'] using hdata rfl
    | ping =>
      rw [hafter rfl] at hfs
      simp only [receivedAll, replies, hop', hafter rfl]
      have hshort : f.data.length < f.form.bound := f.fits
      rw [(hf.control _ hop rfl).2, LengthForm.bound] at hshort
      exact .single rfl (Nat.le_of_lt_succ hshort) (fun h => by cases h) hlimit (ih ho hfs)
    | pong =>
      rw [hafter rfl] at hfs
      simp only [receivedAll, replies, hop', hafter rfl]
      exact ih ho hfs
    | close =>
      simp only [receivedAll, replies, hop']
      exact .close ho hlimit _

/-! ### The client -/

namespace Link

/-- Whatever a client sends, in whatever pieces, an echo server takes it without a failure, and what
it queues is read by a client in whatever pieces without a violation, with no frame begun at the
end. The frames are the data frames that the server's parser completed and a pong for each ping, up
to the first close frame or violation, and then one close frame. -/
theorem echo_read_back (maxFrame maxMessage limit : Nat) (ctx : Context π) (desk : Desk α)
    (chunks pieces : List Bytes) (hstays : ctx.stopping = false) (hframe : maxFrame ≤ limit)
    (hcontrol : 125 ≤ limit) :
    let s : Service α := { handler := .echo, maxFrame, maxMessage }
    let seen := ({ rules := { maxPayload := maxFrame } } : Parser).readChunks chunks
    let r := readChunks s (opened s ctx desk) chunks
    r.2 = .ok () ∧ (pieces.flatten = r.1.session.session.out.toBytes →
      ∃ rs q, ({ rules := { maxPayload := limit, requireMask := false } } : Parser).readChunks
          pieces = (rs, .ok q) ∧ q.phase = .op ∧
        rs.map Received.frame = replies seen.2 seen.1) := by
  intro s seen r
  have hcalm : s.handler.Calm := calm_echo
  refine ⟨readChunks_ok hcalm ctx desk chunks, fun hpieces => ?_⟩
  obtain ⟨fs, tail, -, hlegal, hfs⟩ := Parser.readChunks_legal { maxPayload := maxFrame } chunks
  have hopened : (opened s ctx desk).session.session = {} := by
    have hcall : callOrFail ⟨ctx, new s, desk⟩ (s.handler.onConnect desk.app) =
      (⟨ctx, new s, desk⟩ : Turn α π) := rfl
    simp only [opened, ready, hcall, hstays, Bool.false_eq_true, if_false, session_arm]
    rfl
  have hsession : r.1.session.session = (digest s (bare (opened s ctx desk)) seen).1.session.session := by
    have hthrough := (readChunks_opened s ctx desk chunks).hushed
    rw [parser_opened] at hthrough
    exact congrArg (·.1.session.session) hthrough
  have hqueued := toBytes_digest_echo (s := s) rfl rfl hlegal (t := bare (opened s ctx desk))
    (congrArg Session.standing hopened) seen.2
  rw [← hfs, show (bare (opened s ctx desk)).session.session = {} from hopened] at hqueued
  have hreplies := legalFrames_replies hframe hcontrol (fun _ h => by cases h) hlegal seen.2
  rw [← hfs] at hreplies
  have hwire : ∀ f ∈ replies seen.2 seen.1, ∀ hlen, f.wire = (f.masked none hlen).bytes :=
    fun f _ hlen => Codec.encode_eq (.new .server 0) f hlen
  obtain ⟨rs, q, hread, hframes, hphase⟩ :
      ({ rules := { maxPayload := limit, requireMask := false } } : Parser).ReadsAs
        ((replies seen.2 seen.1).flatMap Frame.wire) (replies seen.2 seen.1) :=
    hreplies.readsAs (fun hmask => by cases hmask) hwire (Parser.Follows.fresh _)
  have hs : ({ rules := { maxPayload := limit, requireMask := false } } : Parser).Steady :=
    ⟨rfl, rfl⟩
  refine ⟨rs, q, ?_, hphase, hframes⟩
  rw [Parser.readChunks_eq_read hs rfl, hpieces, hsession, hqueued]
  exact hread

/-- A text that breaks off in the middle of a letter, a ping, a close frame with a reason in the open
message, and more behind it: in two reads, cut in the key of the ping, and read back in other
pieces. -/
theorem echo_read_back_open_message :
    let s : Service Unit := { handler := .echo, maxFrame := 16, maxMessage := 16 }
    let chunks : List Bytes := [[0x01, 0x81, 0, 0, 0, 0, 0xC3, 0x89, 0x81, 0, 0],
      [0, 0, 7, 0x88, 0x83, 0, 0, 0, 0, 3, 0xE8, 0x78, 0x80, 0x81, 0, 0, 0, 0, 0xA9]]
    let r := readChunks s (opened s ({} : Context Unit) ({ app := () } : Desk Unit)) chunks
    let pieces : List Bytes := [[0x01, 1, 0xC3, 0x8A], [], [1, 7, 0x88, 2, 3], [0xE8]]
    ({} : Context Unit).stopping = false ∧ 16 ≤ 125 ∧ 125 ≤ 125 ∧
      pieces.flatten = r.1.session.session.out.toBytes ∧
      ∃ rs q, ({ rules := { maxPayload := 125, requireMask := false } } : Parser).readChunks
          pieces = (rs, .ok q) ∧ q.phase = .op ∧
        rs.map Received.frame = [⟨⟨0x01⟩, [0xC3]⟩, ⟨⟨0x8A⟩, [7]⟩, ⟨⟨0x88⟩, [3, 0xE8]⟩] := by
  intro s chunks r pieces
  have hback := echo_read_back 16 16 125 ({} : Context Unit) ({ app := () } : Desk Unit) chunks
    pieces rfl (by decide) (by decide)
  dsimp only at hback
  obtain ⟨rs, q, hread, hphase, hframes⟩ := hback.2 (by decide)
  exact ⟨rfl, by decide, by decide, by decide, rs, q, hread, hphase, hframes.trans (by decide)⟩

end Link

end WireServer.WebSocket
