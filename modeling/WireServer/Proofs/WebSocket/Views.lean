import WireServer.WebSocket.Link

/-! Views of a connection. A map of working areas that leaves the session as it is, and that shows
each callback as a callback of another application, shows everything that the connection does. -/

namespace WireServer.WebSocket

/-- What the owner of a complete frame sees of its parser. -/
def Parser.shown (p : Parser) : Parser :=
  { phase := .complete, flags := p.flags, opcode := p.opcode, payload := p.payload
    current := p.messageKind }

theorem Parser.messageKind_shown (p : Parser) : p.shown.messageKind = p.messageKind := by
  simp only [shown, messageKind]
  split <;> rfl

theorem Parser.shown_shown (p : Parser) : p.shown.shown = p.shown := by
  have hkind := p.messageKind_shown
  rw [shown, hkind]
  rfl

namespace Link

variable {α β π τ : Type}

/-- Changes all but the parser. -/
def put (t : Turn α π) (message : Bytes) (session : Session) : Turn α π :=
  t.modify fun l => { l with message, session }

/-- Changes the parser. -/
def setParser (t : Turn α π) (p : Parser) : Turn α π := t.modify fun l => { l with parser := p }

@[simp] theorem session_setParser (t : Turn α π) (p : Parser) :
    (setParser t p).session.session = t.session.session := rfl

/-- The session once a failure has ended it. -/
def failing (w : Session) (code : UInt16) : Session :=
  let w := if w.standing = .connected then w.queueClose code else w
  { w with standing := .failed, lastWords := true }

theorem fail_eq (t : Turn α π) (code : UInt16) :
    fail t code = arm (put t [] (failing t.session.session code)) := rfl

/-- The map shows the session as it is, and of the parser at least the frame that is in it. -/
structure Shows (g : Turn β π → Turn α π) : Prop where
  session : ∀ t, (g t).session.session = t.session.session
  message : ∀ t, (g t).session.message = t.session.message
  shown : ∀ t, (g t).session.parser.shown = t.session.parser.shown
  put : ∀ t message session, g (put t message session) = Link.put (g t) message session
  enableTx : ∀ t, g t.enableTx = (g t).enableTx
  shutdown : ∀ t, g t.shutdown = (g t).shutdown
  close : ∀ t, g t.close = (g t).close

/-- The map shows a connection that serves `s'` as one that serves `s`. -/
structure View (s' : Service β) (s : Service α) (g : Turn β π → Turn α π) : Prop
    extends Shows g where
  buffered : s'.buffered = s.buffered
  maxMessage : s'.maxMessage = s.maxMessage
  onConnect : ∀ t, Prod.map g id (call t (s'.handler.onConnect t.desk.app)) =
    call (g t) (s.handler.onConnect (g t).desk.app)
  onMessage : ∀ t flags payload,
    Prod.map g id (call t (s'.handler.onMessage t.desk.app flags payload)) =
      call (g t) (s.handler.onMessage (g t).desk.app flags payload)
  onClose : ∀ t code, Prod.map g id (call t (s'.handler.onClose t.desk.app code)) =
    call (g t) (s.handler.onClose (g t).desk.app code)

/-- The map shows the parser as well. -/
structure ClearView (s' : Service β) (s : Service α) (g : Turn β π → Turn α π) : Prop
    extends View s' s g where
  parser : ∀ t, (g t).session.parser = t.session.parser
  setParser : ∀ t p, g (setParser t p) = Link.setParser (g t) p

/-! ### Sessions -/

namespace Shows

variable {g : Turn β π → Turn α π} (h : Shows g) (t : Turn β π)

include h

theorem flags : (g t).session.parser.flags = t.session.parser.flags := by
  have hshown := congrArg Parser.flags (h.shown t)
  exact hshown

theorem opcode : (g t).session.parser.opcode = t.session.parser.opcode := by
  have hshown := congrArg Parser.opcode (h.shown t)
  exact hshown

theorem payload : (g t).session.parser.payload = t.session.parser.payload := by
  have hshown := congrArg Parser.payload (h.shown t)
  exact hshown

theorem messageKind : (g t).session.parser.messageKind = t.session.parser.messageKind := by
  have hshown := congrArg Parser.current (h.shown t)
  exact hshown

theorem onSession (f : Session → Session) :
    g (Link.onSession f t) = Link.onSession f (g t) := by
  refine (h.put t t.session.message (f t.session.session)).trans ?_
  rw [← h.message, ← h.session]
  rfl

theorem arm : g (Link.arm t) = Link.arm (g t) := by
  simp only [Link.arm, apply_ite g, h.session, h.enableTx, h.shutdown]

theorem fail (code : UInt16) : g (Link.fail t code) = Link.fail (g t) code := by
  rw [fail_eq, fail_eq, h.arm, h.put, h.session]

theorem answerPing (flags : Flags) : g (Link.answerPing t flags) = Link.answerPing (g t) flags := by
  simp only [Link.answerPing, apply_ite g, h.session, h.payload, h.onSession]

theorem stop : g (Link.stop t) = Link.stop (g t) := by
  rw [Link.stop, Link.stop, h.arm, h.onSession]

theorem wakeup (items : List Item) : g (Link.wakeup t items) = Link.wakeup (g t) items := by
  rw [Link.wakeup, Link.wakeup, h.arm, h.onSession]

theorem write (hmaxIovec : ∀ t, (g t).ctx.maxIovec = t.ctx.maxIovec) (socket : Net.Sender τ)
    (io : τ) : g (Link.write t socket io).1 = (Link.write (g t) socket io).1 := by
  simp only [Link.write, h.session, hmaxIovec]
  rcases Net.sendChain socket io t.session.session.out t.ctx.maxIovec with
    ⟨io, out, fault | ⟨⟨⟩ | ⟨⟩⟩⟩
  all_goals dsimp only
  · exact h.onSession t _
  · simp only [apply_ite g, h.shutdown, h.onSession]
    rw [← h.onSession, h.session]
  · exact h.onSession t _

end Shows

/-! ### Callbacks -/

namespace View

variable {s' : Service β} {s : Service α} {g : Turn β π → Turn α π} (h : View s' s g)
  (t : Turn β π)

include h

theorem ready (hstopping : ∀ t, (g t).ctx.stopping = t.ctx.stopping) :
    g (Link.ready s' t) = Link.ready s (g t) := by
  have hcall : g (callOrFail t (s'.handler.onConnect t.desk.app)) =
      callOrFail (g t) (s.handler.onConnect (g t).desk.app) := by
    simp only [callOrFail, apply_ite g, h.fail, ← h.onConnect]
    rfl
  simp only [Link.ready, ← hcall, hstopping, apply_ite g, h.stop, h.arm]

theorem deliverBuffered (flags : Flags) :
    g (Link.deliverBuffered s' t flags) = Link.deliverBuffered s (g t) flags := by
  have hput (t : Turn β π) (message : Bytes) :
      g (t.modify fun l => { l with message }) = (g t).modify fun l => { l with message } := by
    refine (h.put t message t.session.session).trans ?_
    rw [← h.session]
    rfl
  simp only [Link.deliverBuffered, apply_ite g, h.fail, hput, h.message, h.payload, h.messageKind,
    h.maxMessage, ← h.onMessage]
  rfl

theorem deliver (flags : Flags) : g (Link.deliver s' t flags) = Link.deliver s (g t) flags := by
  simp only [Link.deliver, callOrFail, apply_ite g, h.deliverBuffered, h.session, h.payload,
    h.buffered, h.fail, ← h.onMessage]
  rfl

theorem tellClose (code : UInt16) :
    Prod.map g id (Link.tellClose s' t code) = Link.tellClose s (g t) code := by
  simp only [Link.tellClose, ← h.onClose]
  rcases call t (s'.handler.onClose t.desk.app code) with ⟨u, outcome⟩
  cases outcome <;> rfl

theorem peerClose : Prod.map g id (Link.peerClose s' t) = Link.peerClose s (g t) := by
  simp only [Link.peerClose, h.session, h.payload]
  cases t.session.session.standing with
  | connected =>
    rw [← h.onSession]
    exact h.tellClose _ _
  | expectClose =>
    simp only
    rw [← h.onSession, ← h.tellClose]
    rcases Link.tellClose s' _ _ with ⟨u, e | ⟨⟩⟩
    · rfl
    · exact Prod.ext (h.close u) rfl
  | closeReceived => rfl
  | closed => rfl
  | failed => rfl

theorem completeFrame : Prod.map g id (Link.completeFrame s' t) = Link.completeFrame s (g t) := by
  simp only [Link.completeFrame, h.opcode, h.flags]
  cases t.session.parser.opcode with
  | continuation => exact Prod.ext (h.deliver t _) rfl
  | text => exact Prod.ext (h.deliver t _) rfl
  | binary => exact Prod.ext (h.deliver t _) rfl
  | close => exact h.peerClose t
  | ping => exact Prod.ext (h.answerPing t _) rfl
  | pong => rfl

end View

/-! ### Reading -/

namespace ClearView

variable {s' : Service β} {s : Service α} {g : Turn β π → Turn α π} (h : ClearView s' s g)
  (t : Turn β π)

include h

theorem deaf : (g t).session.deaf = t.session.deaf := by
  rw [Link.deaf, Link.deaf, h.session]

theorem readFrames (n : Nat) (src : Bytes) :
    Prod.map g id (Link.readFrames s' n t src) = Link.readFrames s n (g t) src := by
  induction n generalizing t src with
  | zero => rfl
  | succ n ih =>
    rw [Link.readFrames, Link.readFrames, h.deaf, h.parser]
    by_cases hstop : src.isEmpty || t.session.deaf
    · rw [if_pos hstop, if_pos hstop]
      rfl
    rw [if_neg hstop, if_neg hstop]
    rcases t.session.parser.parse src with ⟨p, v | rest⟩
    · exact Prod.ext ((h.fail _ _).trans (congrArg (Link.fail · _) (h.setParser t p))) rfl
    have hset : g (t.modify fun l => { l with parser := p }) =
        (g t).modify fun l => { l with parser := p } := h.setParser t p
    by_cases hp : p.isComplete
    · simp only [hp, if_true, ← hset, ← h.completeFrame]
      rcases Link.completeFrame s' _ with ⟨u, e | ⟨⟩⟩
      · rfl
      · have hreset : g (u.modify fun l => { l with parser := l.parser.reset }) =
            (g u).modify fun l => { l with parser := l.parser.reset } := by
          refine (h.setParser u u.session.parser.reset).trans ?_
          rw [← h.parser]
          rfl
        exact (ih _ _).trans (congrArg (Link.readFrames s n · rest) hreset)
    · simp only [hp, Bool.false_eq_true, if_false, ← hset]
      exact ih _ _

theorem read (src : Bytes) : Prod.map g id (Link.read s' t src) = Link.read s (g t) src := by
  simp only [Link.read, ← h.readFrames]
  rcases Link.readFrames s' _ t src with ⟨u, e | ⟨⟩⟩
  · rfl
  · exact Prod.ext (h.arm u) rfl

end ClearView

end Link

end WireServer.WebSocket
