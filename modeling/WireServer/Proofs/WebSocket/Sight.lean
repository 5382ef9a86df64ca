import WireServer.Proofs.WebSocket.Cuts

/-! What shows of a connection whose application only records: the session, the message in progress
and the callbacks. Each frame changes it in a way of its own, and a control frame in the same way
however messages are delivered. -/

namespace WireServer.WebSocket

variable {α π : Type}

open WireServer.WebSocket.Parser (Received)

/-- Callbacks that do nothing to the connection and end well. -/
structure Handler.Records (h : Handler α) : Prop where
  onConnect : ∀ app, ∃ app', h.onConnect app = .done app' .ok
  onMessage : ∀ app flags payload, ∃ app', h.onMessage app flags payload = .done app' .ok
  onClose : ∀ app code, ∃ app', h.onClose app code = .done app' .ok

theorem Handler.Records.calm {h : Handler α} (hrecords : h.Records) : h.Calm := by
  intro app code w o cause
  obtain ⟨app', happ⟩ := hrecords.onClose app code
  rw [happ]
  exact nofun

namespace Link

/-- What shows of a connection. -/
structure Sight where
  session : Session
  message : Bytes
  log : List Callback

def sight (t : Turn (α × List Callback) π) : Sight := ⟨t.session.session, t.session.message, log t⟩

theorem sight_arm (t : Turn (α × List Callback) π) : sight (arm t) = sight t := by
  simp only [arm, apply_ite sight]
  split
  · rfl
  · split <;> rfl

theorem sight_fail (t : Turn (α × List Callback) π) (code : UInt16) :
    sight (fail t code) = ⟨failing t.session.session code, [], log t⟩ := by
  rw [fail_eq, sight_arm]
  rfl

/-- The session behind a close frame of the peer. -/
def closing (w : Session) (code : UInt16) : Session :=
  match w.standing with
  | .connected => { w.queueClose code with standing := .closeReceived, lastWords := true }
  | .expectClose => { w with standing := .closed }
  | _ => w

/-- What the application is told of it. -/
def told (w : Session) (code : UInt16) : List Callback :=
  match w.standing with
  | .connected | .expectClose => [.closed code]
  | _ => []

/-- The session behind a control frame. -/
def controlled (w : Session) (r : Received) : Session :=
  match r.flags.opcode? with
  | some .ping =>
    if w.standing = .connected then w.queueFrame (r.flags.withOpcode .pong) r.payload else w
  | some .close => closing w (answerCode r.payload)
  | _ => w

/-- What the application hears of it. -/
def heard (w : Session) (r : Received) : List Callback :=
  match r.flags.opcode? with
  | some .close => told w (answerCode r.payload)
  | _ => []

theorem heard_cases (w : Session) (r : Received) :
    heard w r = [] ∨ ∃ code, heard w r = [.closed code] := by
  unfold heard told
  split
  · split
    · exact .inr ⟨_, rfl⟩
    · exact .inr ⟨_, rfl⟩
    · exact .inl rfl
  · exact .inl rfl

/-- A session that is still connected got a ping at most, and answered it. -/
theorem controlled_connected {w : Session} {r : Received}
    (h : (controlled w r).standing = .connected) : w.standing = .connected := by
  unfold controlled closing at h
  split at h
  · split at h
    · assumption
    · exact h
  · split at h
    · assumption
    · cases h
    · exact h
  · exact h

/-! ### Frame after frame -/

section Hand

variable {s : Service α} (t : Turn (α × List Callback) π) {r : Received}

variable (hrecords : s.handler.Records)

include hrecords

/-- A callback writes itself into the log and does nothing else. -/
theorem call_onMessage (flags : Flags) (payload : Bytes) : ∃ app',
    call t (s.logged.handler.onMessage t.desk.app flags payload) =
      ({ t with desk := { t.desk with app := (app', log t ++ [.message flags payload]) } }, .ok) := by
  obtain ⟨app', happ⟩ := hrecords.onMessage t.desk.app.1 flags payload
  refine ⟨app', ?_⟩
  rw [show s.logged.handler.onMessage t.desk.app flags payload =
    (s.handler.onMessage t.desk.app.1 flags payload).beside (log t ++ [.message flags payload])
    from rfl, happ]
  rfl

theorem call_onClose (code : UInt16) : ∃ app',
    call t (s.logged.handler.onClose t.desk.app code) =
      ({ t with desk := { t.desk with app := (app', log t ++ [.closed code]) } }, .ok) := by
  obtain ⟨app', happ⟩ := hrecords.onClose t.desk.app.1 code
  refine ⟨app', ?_⟩
  rw [show s.logged.handler.onClose t.desk.app code =
    (s.handler.onClose t.desk.app.1 code).beside (log t ++ [.closed code]) from rfl, happ]
  rfl

theorem sight_tellClose (code : UInt16) : sight (tellClose s.logged t code).1 =
    ⟨t.session.session, t.session.message, log t ++ [.closed code]⟩ := by
  obtain ⟨app', hcall⟩ := call_onClose t hrecords code
  rw [tellClose_fst, hcall]
  rfl

theorem sight_hand_close (hop : r.flags.opcode? = some .close) :
    sight (hand s.logged t r).1 =
      ⟨closing t.session.session (answerCode r.payload), t.session.message,
        log t ++ told t.session.session (answerCode r.payload)⟩ := by
  rw [hand_close _ t hop]
  show sight (peerClose s.logged (setParser t r.held)).1 = _
  rw [peerClose, session_setParser, closing, told]
  cases t.session.session.standing with
  | connected => exact sight_tellClose _ hrecords _
  | expectClose =>
    have hsight := sight_tellClose
      (onSession (fun w => { w with standing := .closed }) (setParser t r.held)) hrecords
      (answerCode r.payload)
    have hok := tellClose_ok (s := s.logged) hrecords.calm.logged
      (onSession (fun w => { w with standing := .closed }) (setParser t r.held))
      (answerCode r.payload)
    dsimp only
    rw [show (setParser t r.held).session.parser.payload = r.payload from rfl]
    generalize tellClose s.logged _ _ = x at hsight hok ⊢
    obtain ⟨u, e | ⟨⟩⟩ := x
    · cases hok
    · exact hsight
  | closeReceived => simp [sight, log, setParser, Turn.modify]
  | closed => simp [sight, log, setParser, Turn.modify]
  | failed => simp [sight, log, setParser, Turn.modify]

/-- Frame by frame. -/
theorem sight_hand_frame (hframes : s.buffered = false)
    (hst : t.session.session.standing = .connected) {op : Opcode}
    (hop : r.flags.opcode? = some op) (hdata : op.isControl = false) :
    sight (hand s.logged t r).1 =
      ⟨t.session.session, t.session.message, log t ++ [.message r.flags r.payload]⟩ := by
  have hframes : s.logged.buffered = false := hframes
  obtain ⟨app', hcall⟩ := call_onMessage (setParser t r.held) hrecords r.flags r.payload
  have hpayload : (setParser t r.held).session.parser.payload = r.payload := rfl
  rw [hand_data _ t hop hdata, deliver, session_setParser, if_neg (by simpa using hst),
    if_neg (by simp [hframes]), callOrFail, hpayload, hcall]
  rfl

theorem sight_deliverBuffered (flags : Flags) :
    sight (deliverBuffered s.logged t flags) =
      if s.maxMessage < (t.session.message ++ t.session.parser.payload).length then
        ⟨failing t.session.session CloseCode.messageTooBig, [], log t⟩
      else if flags.fin then
        ⟨t.session.session, [], log t ++
          [.message (.new true (t.session.parser.messageKind.getD .binary).opcode)
            (t.session.message ++ t.session.parser.payload)]⟩
      else ⟨t.session.session, t.session.message ++ t.session.parser.payload, log t⟩ := by
  rw [deliverBuffered]
  have hmax : s.logged.maxMessage = s.maxMessage := rfl
  by_cases hlarge : s.maxMessage < (t.session.message ++ t.session.parser.payload).length
  · simp only [hmax, gt_iff_lt, if_pos hlarge]
    exact sight_fail t _
  simp only [hmax, gt_iff_lt, if_neg hlarge]
  by_cases hfin : flags.fin
  · obtain ⟨app', hcall⟩ := call_onMessage t hrecords
      (.new true (t.session.parser.messageKind.getD .binary).opcode)
      (t.session.message ++ t.session.parser.payload)
    simp only [hfin, Bool.not_true, Bool.false_eq_true, if_false, if_true, hcall]
    rfl
  · simp only [hfin, Bool.not_false, if_true, Bool.false_eq_true, if_false]
    rfl

/-- Whole messages. -/
theorem sight_hand_whole (hwhole : s.buffered = true)
    (hst : t.session.session.standing = .connected) {op : Opcode}
    (hop : r.flags.opcode? = some op) (hdata : op.isControl = false) :
    sight (hand s.logged t r).1 =
      if s.maxMessage < (t.session.message ++ r.payload).length then
        ⟨failing t.session.session CloseCode.messageTooBig, [], log t⟩
      else if r.flags.fin then
        ⟨t.session.session, [], log t ++
          [.message (.new true (r.kind.getD .binary).opcode) (t.session.message ++ r.payload)]⟩
      else ⟨t.session.session, t.session.message ++ r.payload, log t⟩ := by
  have hwhole : s.logged.buffered = true := hwhole
  have hkind : (setParser t r.held).session.parser.messageKind = r.kind := by
    have hopcode := opcode_held t hop
    simp only [Parser.messageKind, hopcode, Opcode.isData, hdata]
    rfl
  have hdeliver := sight_deliverBuffered (setParser t r.held) hrecords r.flags
  rw [hkind] at hdeliver
  rw [hand_data _ t hop hdata, deliver, session_setParser, if_neg (by simpa using hst),
    if_pos hwhole]
  exact hdeliver

/-- A control frame means the same however messages are delivered. -/
theorem sight_hand_control {op : Opcode} (hop : r.flags.opcode? = some op) (hc : op.isControl) :
    sight (hand s.logged t r).1 = ⟨controlled t.session.session r, t.session.message,
      log t ++ heard t.session.session r⟩ := by
  cases op with
  | continuation => cases hc
  | text => cases hc
  | binary => cases hc
  | close => simp only [sight_hand_close t hrecords hop, controlled, heard, hop]
  | ping =>
    simp only [hand_ping _ t hop, controlled, heard, hop, List.append_nil]
    split <;> rfl
  | pong =>
    simp only [hand_pong _ t hop, controlled, heard, hop, List.append_nil]
    rfl

theorem log_hand_frame (hframes : s.buffered = false) {op : Opcode}
    (hop : r.flags.opcode? = some op) : log t <+: log (hand s.logged t r).1 := by
  by_cases hc : op.isControl
  · rw [show log (hand s.logged t r).1 = _ from
      congrArg Sight.log (sight_hand_control t hrecords hop hc)]
    exact List.prefix_append _ _
  have hdata : op.isControl = false := by simpa using hc
  by_cases hst : t.session.session.standing = .connected
  · rw [show log (hand s.logged t r).1 = _ from
      congrArg Sight.log (sight_hand_frame t hrecords hframes hst hop hdata)]
    exact List.prefix_append _ _
  · rw [hand_data_of_ne _ t hop hdata hst]
    exact List.prefix_rfl

/-- Frame by frame, the log only grows. -/
theorem log_handAll_frame (hframes : s.buffered = false) {rs : List Received}
    (hrs : ∀ r ∈ rs, r.flags.opcode?.isSome) : log t <+: log (handAll s.logged t rs).1 := by
  induction rs generalizing t with
  | nil => exact List.prefix_rfl
  | cons r rs ih =>
    obtain ⟨op, hop⟩ := Option.isSome_iff_exists.1 (hrs r List.mem_cons_self)
    rw [handAll]
    split
    · exact List.prefix_rfl
    rw [pass_of_ok (hand_ok hrecords.calm.logged t r)]
    exact (log_hand_frame t hrecords hframes hop).trans
      (ih _ fun r hr => hrs r (List.mem_cons_of_mem _ hr))

end Hand

/-! ### From the start on -/

theorem sight_opened {s : Service α} (hrecords : s.handler.Records) (ctx : Context π)
    (desk : Desk α) : sight (opened s.logged ctx (withLog desk)) =
      ⟨if ctx.stopping then
        { Session.queueClose {} CloseCode.goingAway with standing := .expectClose } else {},
        [], [.connected]⟩ := by
  obtain ⟨app', happ⟩ := hrecords.onConnect desk.app
  have hlogged : s.logged.handler.onConnect (withLog desk).app =
      (Program.done app' .ok).beside [.connected] := by
    rw [← happ]
    rfl
  have hcall : callOrFail ⟨ctx, new s.logged, withLog desk⟩
      (s.logged.handler.onConnect (withLog desk).app) =
        (⟨ctx, new s.logged, { withLog desk with app := (app', [.connected]) }⟩ :
          Turn (α × List Callback) π) := by
    rw [hlogged]
    rfl
  simp only [opened, ready, hcall]
  split
  · rw [stop, sight_arm]
    rfl
  · rw [sight_arm]
    rfl

/-- A connection that does not close at once starts with nothing queued. -/
theorem session_opened {s : Service α} (hrecords : s.handler.Records) (ctx : Context π)
    (desk : Desk α)
    (hst : (opened s.logged ctx (withLog desk)).session.session.standing = .connected) :
    (opened s.logged ctx (withLog desk)).session.session = {} := by
  have hsession := congrArg Sight.session (sight_opened hrecords ctx desk)
  rw [show (opened s.logged ctx (withLog desk)).session.session = _ from hsession] at hst ⊢
  dsimp only at hst ⊢
  split at hst
  · cases hst
  · rename_i hstays
    exact if_neg hstays

/-- What shows behind some chunks is what the frames in them come to. -/
theorem sight_observed (s : Service α) (ctx : Context π) (desk : Desk α) (cs : List Bytes) :
    sight (observed s ctx desk cs).1 =
      sight (digest s.logged (bare (opened s.logged ctx (withLog desk)))
        (({ rules := { maxPayload := s.maxFrame } } : Parser).readChunks cs)).1 := by
  have hthrough := (readChunks_opened s.logged ctx (withLog desk) cs).hushed
  rw [parser_opened] at hthrough
  exact congrArg (fun r => sight r.1) hthrough

end Link

end WireServer.WebSocket
