import WireServer.Proofs.WebSocket.Discipline

/-! What is still unsent when a connection asks to be closed. It asks for that only when the peer
answers the close frame, and then the queue is as long as it was before the read, or holds at least
the close frame, if that was queued in the same read. -/

namespace WireServer.WebSocket

open Handshake Relation

variable {α π τ : Type}

namespace Handshake

/-- The queue only grows at its end. -/
theorem Step.extends {a b : Scene} (h : Step a b) :
    ∃ more, b.session.out.toBytes = a.session.out.toBytes ++ more := by
  cases h with
  | queue w l flags payload => exact ⟨_, toBytes_queueFrame w flags payload⟩
  | close w l code => exact ⟨_, toBytes_queueClose w code⟩
  | answer w l code => exact ⟨_, toBytes_queueClose w code⟩
  | abort w l code => exact ⟨_, toBytes_queueClose w code⟩
  | _ => exact ⟨[], by simp⟩

theorem Steps.extends {a b : Scene} (h : Steps a b) :
    ∃ more, b.session.out.toBytes = a.session.out.toBytes ++ more := by
  induction h with
  | refl => exact ⟨[], by simp⟩
  | tail _ hstep ih =>
    obtain ⟨more, hmore⟩ := ih
    obtain ⟨more', hmore'⟩ := hstep.extends
    exact ⟨more ++ more', by rw [hmore', hmore, List.append_assoc]⟩

/-- The standings from which a session can still become closed by an answer, or is. -/
def Awaited (st : Standing) : Prop := st = .expectClose ∨ st = .closed

/-- Behind the close frame nothing is queued, and only a session that waits for an answer gets
one. -/
theorem Step.closing {a b : Scene} (h : Step a b) (ha : a.session.standing ≠ .connected) :
    b.session.standing ≠ .connected ∧ b.session.out = a.session.out ∧
      (Awaited b.session.standing → Awaited a.session.standing) := by
  cases h with
  | queue w l flags payload hst => exact absurd hst ha
  | close w l code hst => exact absurd hst ha
  | answer w l code hst => exact absurd hst ha
  | abort w l code hst => exact absurd hst ha
  | complete w l hst => exact ⟨nofun, rfl, fun _ => .inl hst⟩
  | fail w l hst => exact ⟨nofun, rfl, nofun⟩
  | attach w l a => exact ⟨ha, rfl, id⟩
  | call w l m hst => exact absurd hst ha
  | look w l m hm => exact ⟨ha, rfl, id⟩

theorem Steps.closing {a b : Scene} (h : Steps a b) (ha : a.session.standing ≠ .connected) :
    b.session.standing ≠ .connected ∧ b.session.out = a.session.out ∧
      (Awaited b.session.standing → Awaited a.session.standing) := by
  induction h with
  | refl => exact ⟨ha, rfl, id⟩
  | tail _ hstep ih =>
    obtain ⟨hb, hout, hawaited⟩ := ih
    obtain ⟨hc, hout', hawaited'⟩ := hstep.closing hb
    exact ⟨hc, hout'.trans hout, hawaited ∘ hawaited'⟩

/-- Leaving the first standing leaves a close frame in the queue. -/
theorem Steps.out_ne_nil {a b : Scene} (h : Steps a b) (ha : a.session.standing = .connected)
    (hb : b.session.standing ≠ .connected) : b.session.out.toBytes ≠ [] := by
  obtain ⟨gs, hout, -, hclose⟩ := h.queued [] (ha ▸ disciplined_nil)
  obtain ⟨f, hf, -⟩ := hclose.2 hb
  rw [hout]
  intro hnil
  have hwire := List.flatMap_eq_nil_iff.1 (List.append_eq_nil_iff.1 hnil).2 f (by simpa using hf)
  simp [Frame.wire, Header.server, Header.encode] at hwire

end Handshake

namespace Link

/-! ### What is asked of the connection -/

/-- The requests that have nothing to do with the sending side. -/
def asks (t : Turn α π) : Context π := { t.ctx with tx := false, shutdown := false }

section Asks

variable {t u : Turn α π}

theorem close_eq (h : asks u = asks t) : u.ctx.close = t.ctx.close := by
  have hclose := congrArg Context.close h
  exact hclose

theorem transition_eq (h : asks u = asks t) : u.ctx.transition = t.ctx.transition := by
  have htransition := congrArg Context.transition h
  exact htransition

@[simp] theorem asks_arm (t : Turn α π) : asks (arm t) = asks t := by
  unfold arm
  split
  · rfl
  · split <;> rfl

@[simp] theorem session_arm (t : Turn α π) : (arm t).session = t.session := by
  unfold arm
  split
  · rfl
  · split <;> rfl

@[simp] theorem asks_fail (t : Turn α π) (code : UInt16) : asks (fail t code) = asks t := by
  rw [fail, asks_arm]
  rfl

theorem asks_call (t : Turn α π) (p : Program α) : asks (call t p).1 = asks t := rfl

theorem asks_callOrFail (t : Turn α π) (p : Program α) : asks (callOrFail t p) = asks t := by
  unfold callOrFail
  simp only
  split
  · exact asks_fail _ _
  · rfl

theorem asks_deliver (s : Service α) (t : Turn α π) (flags : Flags) :
    asks (deliver s t flags) = asks t := by
  unfold deliver deliverBuffered
  simp only
  split
  · rfl
  split
  · split
    · exact asks_fail _ _
    · split
      · rfl
      · split
        · exact asks_fail _ _
        · rfl
  · exact asks_callOrFail _ _

theorem asks_tellClose (s : Service α) (t : Turn α π) (code : UInt16) :
    asks (tellClose s t code).1 = asks t := by
  rw [tellClose_fst, asks_call]

theorem asks_stop (t : Turn α π) : asks (stop t) = asks t := by
  rw [stop, asks_arm]
  rfl

theorem asks_ready (s : Service α) (t : Turn α π) : asks (ready s t) = asks t := by
  unfold ready
  simp only
  split
  · rw [asks_stop, asks_callOrFail]
  · rw [asks_arm, asks_callOrFail]

theorem asks_wakeup (t : Turn α π) (items : List Item) : asks (wakeup t items) = asks t := by
  rw [wakeup, asks_arm]
  rfl

theorem asks_write (t : Turn α π) (socket : Net.Sender τ) (io : τ) :
    asks (write t socket io).1 = asks t := by
  unfold write
  rcases Net.sendChain socket io t.session.session.out t.ctx.maxIovec with
    ⟨io', out, fault | ⟨⟨⟩ | ⟨⟩⟩⟩
  · rfl
  · simp only
    split <;> rfl
  · rfl

/-- The requests that a session leaves: it never asks for another protocol, and it asks to be closed
only once it is closed itself. -/
structure Modest (t : Turn α π) : Prop where
  stays : t.ctx.transition = none
  closed : t.ctx.close = true → t.session.session.standing = .closed

theorem Modest.of_open (hstays : t.ctx.transition = none) (hopen : t.ctx.close = false) :
    Modest t :=
  ⟨hstays, fun h => absurd h (by simp [hopen])⟩

theorem Modest.unclosed (h : Modest t) (hst : t.session.session.standing ≠ .closed) :
    t.ctx.close = false :=
  Bool.eq_false_iff.2 fun hc => hst (h.closed hc)

/-- Nothing is asked for by what only prepares output. -/
theorem Modest.of_asks (h : Modest t) (hst : t.session.session.standing ≠ .closed)
    (hasks : asks u = asks t) : Modest u :=
  .of_open ((transition_eq hasks).trans h.stays) ((close_eq hasks).trans (h.unclosed hst))

theorem standing_tellClose (s : Service α) (t : Turn α π) (code : UInt16)
    (hst : t.session.session.standing = .closed) :
    (tellClose s t code).1.session.session.standing = .closed := by
  rw [tellClose_fst, ← hst]
  exact (s.handler.onClose t.desk.app code).standing_run_of_ne t.session.session t.desk.outbox
    (by simp [hst])

theorem modest_peerClose (s : Service α) (h : Modest t) : Modest (peerClose s t).1 := by
  unfold peerClose
  cases hst : t.session.session.standing with
  | connected => exact h.of_asks (by simp [hst]) (asks_tellClose s _ _)
  | expectClose =>
    have hstanding := standing_tellClose s
      (onSession (fun w => { w with standing := .closed }) t)
      (answerCode t.session.parser.payload) rfl
    have hasks := asks_tellClose s
      (onSession (fun w => { w with standing := .closed }) t)
      (answerCode t.session.parser.payload)
    simp only
    generalize tellClose s _ _ = r at hstanding hasks ⊢
    obtain ⟨u, e | ⟨⟩⟩ := r <;>
      exact ⟨(transition_eq hasks).trans h.stays, fun _ => hstanding⟩
  | closeReceived => exact h
  | closed => exact h
  | failed => exact h

theorem modest_completeFrame (s : Service α) (h : Modest t) : Modest (completeFrame s t).1 := by
  have hdeliver (flags : Flags) : Modest (deliver s t flags) := by
    by_cases hst : t.session.session.standing = .connected
    · exact h.of_asks (by simp [hst]) (asks_deliver s t flags)
    · rw [deliver, if_pos hst]
      exact h
  unfold completeFrame
  cases t.session.parser.opcode with
  | continuation => exact hdeliver _
  | text => exact hdeliver _
  | binary => exact hdeliver _
  | close => exact modest_peerClose s h
  | ping =>
    simp only [answerPing]
    split
    · exact ⟨h.stays, h.closed⟩
    · exact h
  | pong => exact h

theorem modest_readFrames (s : Service α) (n : Nat) (src : Bytes) (h : Modest t) :
    Modest (readFrames s n t src).1 := by
  induction n generalizing t src with
  | zero => exact h
  | succ n ih =>
    rw [readFrames]
    by_cases hstop : src.isEmpty || t.session.deaf
    · rw [if_pos hstop]
      exact h
    rw [if_neg hstop]
    have hst : t.session.session.standing ≠ .closed := by
      rw [Bool.or_eq_true, not_or] at hstop
      exact fun hst => hstop.2 (by simp [deaf, hst])
    rcases t.session.parser.parse src with ⟨p, v | rest⟩
    · exact h.of_asks hst (asks_fail _ _)
    have hparsed : Modest (t.modify fun l => { l with parser := p }) := ⟨h.stays, h.closed⟩
    by_cases hp : p.isComplete
    · simp only [hp, if_true]
      have hframe := modest_completeFrame s hparsed
      generalize completeFrame s _ = r at hframe ⊢
      obtain ⟨u, e | ⟨⟩⟩ := r
      · exact hframe
      · exact ih (t := u.modify fun l => { l with parser := l.parser.reset }) rest
          ⟨hframe.stays, hframe.closed⟩
    · simp only [hp, Bool.false_eq_true, if_false]
      exact ih rest hparsed

theorem modest_read (s : Service α) (src : Bytes) (h : Modest t) : Modest (read s t src).1 := by
  have hframes := modest_readFrames s (src.length + 1) src h
  unfold read
  generalize readFrames s (src.length + 1) t src = r at hframes ⊢
  obtain ⟨u, e | ⟨⟩⟩ := r
  · exact hframes
  · exact ⟨(transition_eq (asks_arm u)).trans hframes.stays, fun hc => by
      rw [session_arm]
      exact hframes.closed ((close_eq (asks_arm u)).symm.trans hc)⟩

/-- A deaf connection is asked for nothing new. -/
theorem read_of_deaf (s : Service α) (src : Bytes) (h : t.session.deaf) :
    (read s t src).1 = arm t := by
  simp [read, readFrames, h]

end Asks

/-! ### What is queued -/

/-- A turn with the notes of an event that is just over. -/
def noted (t : Turn α π) : Turn (α × List Note) π :=
  { t with desk := withNotes t.desk [⟨.rest, t.session.session.standing⟩] }

/-- What goes by steps of the machine only adds to the queue. -/
theorem out_of_steps {t u : Turn (α × List Note) π} (h : Steps (scene t) (scene u)) :
    ∃ more, (plain u).session.session.out.toBytes =
      (plain t).session.session.out.toBytes ++ more := h.extends

theorem out_read (s : Service α) (t : Turn α π) (src : Bytes) :
    ∃ more, (read s t src).1.session.session.out.toBytes =
      t.session.session.out.toBytes ++ more := by
  have hplain := congrArg Prod.fst (plain_read s (noted t) src)
  rw [← show plain (noted t) = t from rfl, ← hplain]
  exact out_of_steps (steps_read s src (.inl rfl))

theorem out_ready (s : Service α) (t : Turn α π)
    (hst : t.session.session.standing = .connected) :
    ∃ more, (ready s t).session.session.out.toBytes =
      t.session.session.out.toBytes ++ more := by
  have hplain := plain_ready s (noted t)
  rw [← show plain (noted t) = t from rfl, ← hplain]
  exact out_of_steps (steps_ready s hst)

theorem out_wakeup (t : Turn α π) (items : List Item) :
    ∃ more, (wakeup t items).session.session.out.toBytes =
      t.session.session.out.toBytes ++ more := by
  have hplain := plain_wakeup (noted t) items
  rw [← show plain (noted t) = t from rfl, ← hplain]
  exact out_of_steps (steps_wakeup _ items)

theorem out_stop (t : Turn α π) :
    ∃ more, (stop t).session.session.out.toBytes = t.session.session.out.toBytes ++ more := by
  have hplain := plain_stop (noted t)
  rw [← show plain (noted t) = t from rfl, ← hplain]
  exact out_of_steps (steps_stop _)

theorem write_eq (t : Turn α π) (socket : Net.Sender τ) (io : τ) :
    let sent := Net.sendChain socket io t.session.session.out t.ctx.maxIovec
    (write t socket io).1.session.session.out = sent.2.1 ∧ (write t socket io).2.1 = sent.1 := by
  unfold write
  rcases Net.sendChain socket io t.session.session.out t.ctx.maxIovec with
    ⟨io', out, fault | ⟨⟨⟩ | ⟨⟩⟩⟩
  · exact ⟨rfl, rfl⟩
  · dsimp only
    split <;> exact ⟨rfl, rfl⟩
  · exact ⟨rfl, rfl⟩

/-- What the socket takes when a session sends. -/
def taken (t : Turn α π) (socket : Net.Sender τ) (io : τ) : Bytes :=
  (write t socket.recorded (io, [])).2.1.2

/-- What the socket took and what still waits are together what waited. -/
theorem taken_append_out {socket : Net.Sender τ} (hsocket : socket.Honest) (t : Turn α π) (io : τ) :
    taken t socket io ++ (write t socket io).1.session.session.out.toBytes =
      t.session.session.out.toBytes := by
  have hplain := Net.sendChain_plain socket (io, []) t.session.session.out t.ctx.maxIovec
  have hout := congrArg (·.2.1) hplain
  simp only [Prod.map] at hout
  rw [taken, (write_eq t socket.recorded (io, [])).2, (write_eq t socket io).1, ← hout]
  exact Net.sendChain_recorded hsocket (io, []) t.session.session.out t.ctx.maxIovec

/-- When a read makes the connection ask to be closed, nothing is left unsent exactly if nothing was
before the read, with the close frame behind us. -/
theorem unsent_of_close (s : Service α) (t : Turn α π) (src : Bytes) (h : Modest t)
    (hopen : t.ctx.close = false) (hclose : (read s t src).1.ctx.close = true) :
    (read s t src).1.session.session.out.toBytes = [] ↔
      t.session.session.standing = .expectClose ∧ t.session.session.out.toBytes = [] := by
  have hclosed : (read s t src).1.session.session.standing = .closed :=
    (modest_read s src h).closed hclose
  have hsteps : Steps (scene (noted t)) (scene (read s.recorded (noted t) src).1) :=
    steps_read s src (.inl rfl)
  have hscene : (scene (read s.recorded (noted t) src).1).session =
      (read s t src).1.session.session :=
    congrArg (·.1.session.session) (plain_read s (noted t) src)
  by_cases hst : t.session.session.standing = .connected
  · have hne := hsteps.out_ne_nil (a := scene (noted t)) hst (by rw [hscene, hclosed]; simp)
    rw [hscene] at hne
    simp [hst, hne]
  · obtain ⟨-, hout, hawaited⟩ := Steps.closing hsteps (a := scene (noted t)) hst
    rw [hscene] at hout hawaited
    have hexpect : t.session.session.standing = .expectClose := by
      rcases hawaited (.inr hclosed) with h | h
      · exact h
      · have hdeaf : t.session.deaf = true := by
          have h : t.session.session.standing = .closed := h
          simp [deaf, h]
        rw [read_of_deaf s src hdeaf, close_eq (asks_arm t), hopen] at hclose
        cases hclose
    rw [hout]
    simp [hexpect, noted, scene]

end Link

end WireServer.WebSocket
