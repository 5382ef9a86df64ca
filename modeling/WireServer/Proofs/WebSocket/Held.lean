import WireServer.Proofs.WebSocket.Handing

/-! What is held of a message in progress is within the limit for messages, whatever the application
and the peer do. -/

namespace WireServer.WebSocket.Link

variable {α π τ : Type}

variable (s : Service α) {t : Turn α π}

/-- What is held of a message is within the limit. -/
def Held (t : Turn α π) : Prop := t.session.message.length ≤ s.maxMessage

variable {s}

theorem held_arm : Held s (arm t) ↔ Held s t := by
  rw [Held, session_arm, Held]

theorem held_fail (code : UInt16) : Held s (fail t code) := by
  rw [fail_eq, held_arm]
  exact Nat.zero_le _

theorem held_callOrFail (h : Held s t) (p : Program α) : Held s (callOrFail t p) := by
  simp only [callOrFail]
  split
  · exact held_fail _
  · exact h

theorem held_deliver (h : Held s t) (flags : Flags) : Held s (deliver s t flags) := by
  simp only [deliver, deliverBuffered]
  split
  · exact h
  split
  · split
    · exact held_fail _
    rename_i hsmall
    split
    · exact Nat.le_of_not_lt hsmall
    split
    · exact held_fail _
    · exact Nat.zero_le _
  · exact held_callOrFail h _

theorem held_peerClose (h : Held s t) : Held s (peerClose s t).1 := by
  unfold peerClose
  have htell (f : Session → Session) (code : UInt16) :
      Held s (tellClose s (onSession f t) code).1 := by
    rw [tellClose_fst]
    exact h
  cases t.session.session.standing with
  | connected => exact htell _ _
  | expectClose =>
    have hheld := htell (fun w => { w with standing := .closed })
      (answerCode t.session.parser.payload)
    dsimp only
    generalize tellClose s _ _ = r at hheld ⊢
    obtain ⟨u, e | ⟨⟩⟩ := r <;> exact hheld
  | closeReceived => exact h
  | closed => exact h
  | failed => exact h

theorem held_completeFrame (h : Held s t) : Held s (completeFrame s t).1 := by
  unfold completeFrame
  cases t.session.parser.opcode with
  | continuation => exact held_deliver h _
  | text => exact held_deliver h _
  | binary => exact held_deliver h _
  | close => exact held_peerClose h
  | ping =>
    simp only [answerPing]
    split <;> exact h
  | pong => exact h

theorem held_readFrames (h : Held s t) (n : Nat) (src : Bytes) :
    Held s (readFrames s n t src).1 := by
  induction n generalizing t src with
  | zero => exact h
  | succ n ih =>
    by_cases hstop : src = [] ∨ t.session.deaf
    · rw [readFrames, if_pos (by simpa using hstop)]
      exact h
    obtain ⟨hsrc, hdeaf⟩ := not_or.1 hstop
    rw [readFrames_succ hsrc (by simpa using hdeaf)]
    rcases t.session.parser.parse src with ⟨q, v | rest⟩
    · exact held_fail _
    · dsimp only
      split
      · have hframe := held_completeFrame (t := setParser t q) h
        generalize completeFrame s (setParser t q) = x at hframe ⊢
        obtain ⟨u, e | ⟨⟩⟩ := x
        · exact hframe
        · exact ih (t := setParser u u.session.parser.reset) hframe rest
      · exact ih (t := setParser t q) h rest

theorem held_stop (h : Held s t) : Held s (stop t) := by
  rw [stop, held_arm]
  exact h

theorem held_step (h : Held s t) (socket : Net.Sender τ) (e : Event τ α π) :
    Held s (step s socket t e) := by
  cases e with
  | read src =>
    have hframes := held_readFrames h (src.length + 1) src
    simp only [step, read]
    generalize readFrames s (src.length + 1) t src = x at hframes ⊢
    obtain ⟨u, e | ⟨⟩⟩ := x
    · exact hframes
    · exact held_arm.2 hframes
  | wakeup items =>
    simp only [step, wakeup, held_arm]
    exact h
  | write io =>
    simp only [step, write]
    rcases Net.sendChain socket io t.session.session.out t.ctx.maxIovec with
      ⟨io', out, fault | ⟨⟨⟩ | ⟨⟩⟩⟩
    · exact h
    · dsimp only
      split <;> exact h
    · exact h
  | stop => exact held_stop h
  | outside ctx desk => exact h

/-- Whatever the application and the peer do, what is held of a message is within the limit. -/
theorem held_run (socket : Net.Sender τ) (ctx : Context π) (desk : Desk α)
    (events : List (Event τ α π)) : Held s (run s socket ctx desk events) := by
  have hready : Held s (ready s ⟨ctx, new s, desk⟩) := by
    have hcall : Held s (callOrFail ⟨ctx, new s, desk⟩ (s.handler.onConnect desk.app)) :=
      held_callOrFail (Nat.zero_le _) _
    simp only [ready]
    split
    · exact held_stop hcall
    · exact held_arm.2 hcall
  have hfold (events : List (Event τ α π)) {t : Turn α π} (h : Held s t) :
      Held s (events.foldl (step s socket) t) := by
    induction events generalizing t with
    | nil => exact h
    | cons e events ih => exact ih (held_step h socket e)
  exact hfold events hready

end WireServer.WebSocket.Link
