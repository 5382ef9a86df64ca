import WireServer.Proofs.WebSocket.Handing

/-! A connection does not show how its input was cut. The application keeps a log of its callbacks
with what each was told; of two ways to cut one stream, both leave the same log, the same session
and the same requests to the connection. -/

namespace WireServer.WebSocket

variable {α β π τ : Type}

/-- A callback, with what the application is told. -/
inductive Callback where
  | connected
  | message (flags : Flags) (payload : Bytes)
  | closed (code : UInt16)
  deriving DecidableEq, Repr

/-- The program of an application that has something else beside its state. -/
def Program.beside (b : β) : Program α → Program (α × β)
  | .done app outcome => .done (app, b) outcome
  | .sendFrame flags payload next => .sendFrame flags payload fun r => (next r).beside b
  | .close code next => .close code fun r => (next r).beside b
  | .post item next => .post item fun r => (next r).beside b
  | .look next => .look fun st n => (next st n).beside b
  | .fetch next => .fetch fun a => (next a).beside b
  | .attach a next => .attach a (next.beside b)

theorem Program.run_beside (b : β) (p : Program α) (w : Session) (o : Outbox) :
    (p.beside b).run w o = ((p.run w o).1, (p.run w o).2.1, ((p.run w o).2.2.1, b),
      (p.run w o).2.2.2) := by
  induction p generalizing w o with
  | done app outcome => rfl
  | sendFrame flags payload next ih => exact ih _ _ _
  | close code next ih => exact ih _ _ _
  | post item next ih => exact ih _ _ _
  | look next ih => exact ih _ _ _ _
  | fetch next ih => exact ih _ _ _
  | attach a next ih => exact ih _ _

/-- The same application, with a log of its callbacks. -/
def Handler.logged (h : Handler α) : Handler (α × List Callback) where
  onConnect app := (h.onConnect app.1).beside (app.2 ++ [.connected])
  onMessage app flags payload :=
    (h.onMessage app.1 flags payload).beside (app.2 ++ [.message flags payload])
  onClose app code := (h.onClose app.1 code).beside (app.2 ++ [.closed code])

/-- The same service, with a log. -/
def Service.logged (s : Service α) : Service (α × List Callback) where
  handler := s.handler.logged
  maxFrame := s.maxFrame
  buffered := s.buffered
  maxMessage := s.maxMessage

/-- The callback at the end of a connection does not panic. -/
def Handler.Calm (h : Handler α) : Prop :=
  ∀ app code w o cause, ((h.onClose app code).run w o).2.2.2 ≠ .panicked cause

theorem Handler.Calm.logged {h : Handler α} (hcalm : h.Calm) : h.logged.Calm := by
  intro app code w o cause
  rw [show h.logged.onClose app code =
    (h.onClose app.1 code).beside (app.2 ++ [.closed code]) from rfl, Program.run_beside]
  exact hcalm app.1 code w o cause

namespace Link

/-! ### The log -/

/-- The connection without the log. -/
def unlogged (t : Turn (α × List Callback) π) : Turn α π :=
  { ctx := t.ctx, session := t.session
    desk := { app := t.desk.app.1, outbox := t.desk.outbox, shelf := t.desk.shelf } }

/-- The application's log so far. -/
def log (t : Turn (α × List Callback) π) : List Callback := t.desk.app.2

/-- A desk on which the application has an empty log. -/
def withLog (desk : Desk α) : Desk (α × List Callback) :=
  { app := (desk.app, []), outbox := desk.outbox, shelf := desk.shelf }

theorem unlogged_call (t : Turn (α × List Callback) π) (l : List Callback) (p : Program α) :
    Prod.map unlogged id (call t (p.beside l)) = call (unlogged t) p := by
  simp only [call, Program.run_beside]
  rfl

/-- Without its log, the connection is the one of the application that keeps none. -/
theorem unlogged_view (s : Service α) :
    ClearView s.logged s (unlogged : Turn (α × List Callback) π → Turn α π) where
  session _ := rfl
  message _ := rfl
  shown _ := rfl
  put _ _ _ := rfl
  enableTx _ := rfl
  shutdown _ := rfl
  close _ := rfl
  buffered := rfl
  maxMessage := rfl
  onConnect t := unlogged_call t _ (s.handler.onConnect t.desk.app.1)
  onMessage t flags payload := unlogged_call t _ (s.handler.onMessage t.desk.app.1 flags payload)
  onClose t code := unlogged_call t _ (s.handler.onClose t.desk.app.1 code)
  parser _ := rfl
  setParser _ _ := rfl

/-- A connection from its start on, with the log of the callbacks. -/
def observed (s : Service α) (ctx : Context π) (desk : Desk α) (cs : List Bytes) :
    Turn (α × List Callback) π × Except Failure Unit :=
  readChunks s.logged (opened s.logged ctx (withLog desk)) cs

theorem unlogged_observed (s : Service α) (ctx : Context π) (desk : Desk α) (cs : List Bytes) :
    Prod.map unlogged id (observed s ctx desk cs) = readChunks s (opened s ctx desk) cs := by
  rw [observed, (unlogged_view s).readChunks]
  exact congrArg (readChunks s · cs) ((unlogged_view s).ready _ fun _ => rfl)

/-! ### Failures that get out -/

section Calm

variable {s : Service α} (h : s.handler.Calm) (t : Turn α π)

include h

theorem tellClose_ok (code : UInt16) : (tellClose s t code).2 = .ok () := by
  have hcalm (cause : String) :
      (call t (s.handler.onClose t.desk.app code)).2 ≠ .panicked cause :=
    h t.desk.app code t.session.session t.desk.outbox cause
  unfold tellClose
  rcases hcall : call t (s.handler.onClose t.desk.app code) with ⟨u, outcome⟩
  rw [hcall] at hcalm
  cases outcome with
  | ok => rfl
  | failed cause => rfl
  | panicked cause => exact absurd rfl (hcalm cause)

theorem peerClose_ok : (peerClose s t).2 = .ok () := by
  unfold peerClose
  cases t.session.session.standing with
  | connected => exact tellClose_ok h _ _
  | expectClose =>
    have htell := tellClose_ok h (onSession (fun w => { w with standing := .closed }) t)
      (answerCode t.session.parser.payload)
    simp only
    generalize tellClose s _ _ = r at htell ⊢
    obtain ⟨u, e | ⟨⟩⟩ := r
    · cases htell
    · rfl
  | closeReceived => rfl
  | closed => rfl
  | failed => rfl

theorem hand_ok (r : Parser.Received) : (hand s t r).2 = .ok () := by
  rw [hand, Prod.map, completeFrame]
  cases (setParser t r.held).session.parser.opcode with
  | close => exact peerClose_ok h _
  | _ => rfl

theorem handAll_ok (rs : List Parser.Received) : (handAll s t rs).2 = .ok () := by
  induction rs generalizing t with
  | nil => rfl
  | cons r rs ih =>
    rw [handAll]
    split
    · rfl
    · have hok := hand_ok h t r
      rcases hhand : hand s t r with ⟨u, e | ⟨⟩⟩
      · rw [hhand] at hok
        cases hok
      · exact ih u

/-- Without a panic at the end, no failure gets out. -/
theorem digest_ok (r : List Parser.Received × Except Violation Parser) :
    (digest s t r).2 = .ok () := by
  have hok := handAll_ok h t r.1
  rw [digest]
  rcases hall : handAll s t r.1 with ⟨u, e | ⟨⟩⟩
  · rw [hall] at hok
    cases hok
  · cases r.2 <;> rfl

/-- Where no failure gets out, all frames are handed on until nobody listens. -/
theorem handAll_cons (hdeaf : t.session.deaf = false) (r : Parser.Received)
    (rs : List Parser.Received) : handAll s t (r :: rs) = handAll s (hand s t r).1 rs := by
  rw [handAll, if_neg (by simp [hdeaf]), pass_of_ok (hand_ok h t r)]

theorem digest_fst (rs : List Parser.Received) (ending : Except Violation Parser) :
    (digest s t (rs, ending)).1 =
      match ending with
      | .error v =>
        if (handAll s t rs).1.session.deaf then (handAll s t rs).1
        else fail (handAll s t rs).1 v.closeCode
      | .ok _ => (handAll s t rs).1 := by
  rw [digest, pass_of_ok (handAll_ok h t rs)]
  cases ending <;> rfl

end Calm

theorem readChunks_ok {s : Service α} (h : s.handler.Calm) (ctx : Context π) (desk : Desk α)
    (cs : List Bytes) : (readChunks s (opened s ctx desk) cs).2 = .ok () :=
  (congrArg Prod.snd (readChunks_opened s ctx desk cs).hushed).trans (digest_ok h _ _)

/-! ### Cuts -/

/-- Two ways to cut one stream leave the same log of callbacks, with what each was told, and the
same state of the application and of its outbox; the same session, with the same bytes queued; the
same message in progress, and the same requests, to be closed among them. All reads use up their
input in both, up to a panic at the end of the connection; while anyone listens, the parser is the
same as well. The log is one of the connection. -/
theorem reads_of_any_cut (s : Service α) (ctx : Context π) (desk : Desk α) (cs ds : List Bytes)
    (h : cs.flatten = ds.flatten) :
    let a := observed s ctx desk cs
    let b := observed s ctx desk ds
    (Prod.map unlogged id a = readChunks s (opened s ctx desk) cs ∧
        Prod.map unlogged id b = readChunks s (opened s ctx desk) ds) ∧
      (a.2 = b.2 ∧ (s.handler.Calm → a.2 = .ok ())) ∧
      log a.1 = log b.1 ∧ a.1.desk = b.1.desk ∧
      a.1.session.session = b.1.session.session ∧ a.1.session.message = b.1.session.message ∧
      asks a.1 = asks b.1 ∧
      (a.2 = .ok () → a.1.session.deaf = false → a.1.session.parser = b.1.session.parser) := by
  have ha := readChunks_opened s.logged ctx (withLog desk) cs
  have hb := readChunks_opened s.logged ctx (withLog desk) ds
  have hcut : (opened s.logged ctx (withLog desk)).session.parser.readChunks cs =
      (opened s.logged ctx (withLog desk)).session.parser.readChunks ds := by
    have hs : ({ rules := { maxPayload := s.maxFrame } } : Parser).Steady := ⟨rfl, rfl⟩
    rw [parser_opened, show s.logged.maxFrame = s.maxFrame from rfl,
      Parser.readChunks_eq_read hs rfl, Parser.readChunks_eq_read hs rfl, h]
  have hsame := ha.hushed.trans ((congrArg _ (congrArg _ hcut)).trans hb.hushed.symm)
  obtain ⟨hturn, hend⟩ := Prod.mk.inj hsame
  obtain ⟨hasks, hsession, hdesk⟩ := hush_eq hturn
  obtain ⟨-, hmessage, hsession⟩ := Link.mk.inj hsession
  have hsession : (observed s ctx desk cs).1.session.session =
    (observed s ctx desk ds).1.session.session := hsession
  refine ⟨⟨unlogged_observed s ctx desk cs, unlogged_observed s ctx desk ds⟩,
    ⟨hend, fun hcalm => readChunks_ok hcalm.logged ctx _ cs⟩, congrArg (·.app.2) hdesk, hdesk,
    hsession, hmessage, hasks, fun hok hlistens => ?_⟩
  have hdeaf : (observed s ctx desk ds).1.session.deaf = false := by
    rw [deaf, ← hsession]
    exact hlistens
  have hparser := (ha.parser hok hlistens).symm.trans
    ((congrArg Prod.snd hcut).trans (hb.parser (hend.symm.trans hok) hdeaf))
  exact Except.ok.inj hparser

/-- An application that greets, counts its messages aloud, closes at the second, and fails when it is
told of the end. -/
def counting : Handler Nat where
  onConnect n := .sendFrame (.new true .text) [0x48, 0x69] (.ofReply n)
  onMessage n _ _ :=
    .sendFrame (.new true .binary) [UInt8.ofNat (n + 1)] fun reply =>
      if n = 1 then .close CloseCode.normal (.ofReply (n + 1)) else .ofReply (n + 1) reply
  onClose n _ := .done n (.failed "over")

theorem calm_counting : counting.Calm := nofun

/-- A text of two frames with a ping between them, another message, and one that comes too late,
before the peer answers the close: in one piece, and cut inside a key, inside a letter and behind
the close that was sent. -/
theorem reads_of_any_cut_counting :
    let s : Service Nat := { handler := counting, buffered := true }
    let whole : Bytes := [0x01, 0x81, 1, 2, 3, 4, 0xC2, 0x89, 0x80, 9, 9, 9, 9,
      0x80, 0x81, 1, 2, 3, 4, 0xA8, 0x82, 0x80, 9, 9, 9, 9, 0x82, 0x80, 9, 9, 9, 9,
      0x88, 0x82, 0, 0, 0, 0, 3, 0xE8]
    let parts : List Bytes := [whole.take 4, [], (whole.drop 4).take 12, (whole.drop 16).take 10,
      whole.drop 26]
    let a := observed s ({} : Context Unit) { app := 0 } [whole]
    let b := observed s ({} : Context Unit) { app := 0 } parts
    [whole].flatten = parts.flatten ∧ a.2 = .ok () ∧ log a.1 = log b.1 ∧
      asks a.1 = asks b.1 ∧
      log b.1 = [.connected, .message ⟨0x81⟩ [0xC3, 0xA9], .message ⟨0x82⟩ [], .closed 1000] ∧
      b.1.ctx.close = true := by
  intro s whole parts a b
  have hflatten : [whole].flatten = parts.flatten := by decide
  have hcut := reads_of_any_cut s ({} : Context Unit) { app := 0 } [whole] parts hflatten
  exact ⟨hflatten, hcut.2.1.2 calm_counting, hcut.2.2.1, hcut.2.2.2.2.2.2.1, by decide, by decide⟩

end Link

end WireServer.WebSocket
