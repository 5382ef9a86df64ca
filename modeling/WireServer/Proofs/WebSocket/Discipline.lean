import WireServer.Proofs.Net.Sending
import WireServer.Proofs.WebSocket.Recording

/-! The discipline of the close handshake: whatever the application and the peer do, a connection
changes its session only by the steps of the handshake machine. What holds along those steps holds
of every run. -/

namespace WireServer.WebSocket

open Handshake Relation

variable {α π τ : Type}

/-! ### Programs -/

theorem Session.refusal?_eq_none {w : Session} (h : w.refusal? = none) :
    w.standing = .connected := by
  unfold refusal? at h
  split at h
  · assumption
  · cases h
  · cases h
  · cases h
  · cases h

theorem Session.frameFault?_eq_none {flags : Flags} {payload : Bytes}
    (h : frameFault? flags payload = none) : flags.opcode? ≠ some .close := by
  intro hop
  simp [frameFault?, hop] at h

theorem steps_sendFrame (w : Session) (l : List Note) (flags : Flags) (payload : Bytes) :
    Steps ⟨w, l⟩ ⟨(w.sendFrame flags payload).1, l⟩ := by
  unfold Session.sendFrame
  split
  · exact .refl
  · exact .refl
  · rename_i hsend hframe
    exact .single (.queue w l flags payload (Session.refusal?_eq_none hsend)
      (Session.frameFault?_eq_none hframe))

theorem steps_close (w : Session) (l : List Note) (code : UInt16) :
    Steps ⟨w, l⟩ ⟨(w.close code).1, l⟩ := by
  unfold Session.close
  split
  · exact .refl
  · rename_i hsend
    exact .single (.close w l code (Session.refusal?_eq_none hsend))

/-- A callback does to its session what the session lets it do. -/
theorem Program.steps (p : Program α) (w : Session) (o : Outbox) (l : List Note) :
    Steps ⟨w, l⟩ ⟨(p.run w o).1, l⟩ := by
  induction p generalizing w o with
  | done app outcome => exact .refl
  | sendFrame flags payload next ih => exact (steps_sendFrame w l flags payload).trans (ih _ _ _)
  | close code next ih => exact (steps_close w l code).trans (ih _ _ _)
  | post item next ih => exact ih _ _ _
  | look next ih => exact ih _ _ _ _
  | fetch next ih => exact ih _ _ _
  | attach a next ih => exact .head (.attach w l a) (ih _ _)

theorem Session.standing_sendFrame (w : Session) (flags : Flags) (payload : Bytes) :
    (w.sendFrame flags payload).1.standing = w.standing := by
  unfold sendFrame
  split <;> rfl

/-- A callback changes the standing only by closing a connected session. -/
theorem Program.standing_run (p : Program α) (w : Session) (o : Outbox) :
    (p.run w o).1.standing = w.standing ∨
      w.standing = .connected ∧ (p.run w o).1.standing = .expectClose := by
  induction p generalizing w o with
  | done app outcome => exact .inl rfl
  | sendFrame flags payload next ih =>
    have h := ih (w.sendFrame flags payload).2 (w.sendFrame flags payload).1 o
    rwa [Session.standing_sendFrame] at h
  | close code next ih =>
    have h := ih (w.close code).2 (w.close code).1 o
    rw [run]
    cases hsend : w.refusal? with
    | some cause =>
      have hsame : (w.close code).1 = w := by simp [Session.close, hsend]
      rwa [hsame] at h ⊢
    | none =>
      have hst : (w.close code).1.standing = .expectClose := by simp [Session.close, hsend]
      rcases h with h | h
      · exact .inr ⟨Session.refusal?_eq_none hsend, h.trans hst⟩
      · cases hst.symm.trans h.1
  | post item next ih => exact ih _ _ _
  | look next ih => exact ih _ _ _ _
  | fetch next ih => exact ih _ _ _
  | attach a next ih => exact ih _ _

theorem Program.standing_run_of_ne (p : Program α) (w : Session) (o : Outbox)
    (h : w.standing ≠ .connected) : (p.run w o).1.standing = w.standing := by
  rcases p.standing_run w o with hst | hst
  · exact hst
  · exact absurd hst.1 h

namespace Link

/-! ### One event -/

/-- The standing seen last is the one that the session has, or the session failed since. -/
def Seen (a : Scene) : Prop := seen a.notes = a.session.standing ∨ a.session.standing = .failed

/-- From one point to another by steps of the machine. -/
def Goes (t u : Turn (α × List Note) π) : Prop := Steps (scene t) (scene u) ∧ Seen (scene u)

variable {t u v : Turn (α × List Note) π}

theorem Goes.refl (h : Seen (scene t)) : Goes t t := ⟨.refl, h⟩

theorem Goes.trans (h : Goes t u) (h' : Goes u v) : Goes t v := ⟨h.1.trans h'.1, h'.2⟩

@[simp] theorem scene_arm (t : Turn (α × List Note) π) : scene (arm t) = scene t := by
  simp only [arm, apply_ite scene]
  split
  · rfl
  · split <;> rfl

/-- A failure in a session that is neither closed nor failed. -/
theorem goes_fail (code : UInt16) (h : t.session.deaf = false) : Goes t (fail t code) := by
  refine ⟨?_, .inr (by rw [fail, scene_arm]; rfl)⟩
  rw [fail, scene_arm]
  by_cases hst : t.session.session.standing = .connected
  · simp only [scene, Turn.modify, hst, if_true]
    exact .single (.abort t.session.session t.desk.app.2 code hst)
  · simp only [scene, Turn.modify, hst, if_false]
    refine .single (.fail t.session.session t.desk.app.2 ?_)
    cases hs : t.session.session.standing <;> simp [deaf, hs] at h hst ⊢

theorem scene_call (t : Turn (α × List Note) π) (m : Moment) (p : Program α) :
    scene (call t (p.noted m t.desk.app.2)).1 =
      ⟨(p.run t.session.session t.desk.outbox).1,
        t.desk.app.2 ++ [⟨m, t.session.session.standing⟩] ++
          [⟨.returned, (p.run t.session.session t.desk.outbox).1.standing⟩]⟩ := by
  simp only [call, Program.noted, Program.run, Program.run_recorded]
  rfl

/-- A callback that starts with what was noted last. -/
theorem steps_callback (t : Turn (α × List Note) π) (m : Moment) (p : Program α) :
    Steps ⟨t.session.session, t.desk.app.2 ++ [⟨m, t.session.session.standing⟩]⟩
      (scene (call t (p.noted m t.desk.app.2)).1) := by
  rw [scene_call]
  exact (p.steps _ _ _).trans (.single (.look _ _ .returned (.inl rfl)))

theorem seen_call (t : Turn (α × List Note) π) (m : Moment) (p : Program α) :
    Seen (scene (call t (p.noted m t.desk.app.2)).1) := by
  rw [scene_call]
  exact .inl (seen_append _ _)

theorem goes_call (m : Moment) (p : Program α) (hst : t.session.session.standing = .connected)
    (hm : m ≠ .closing) : Goes t (call t (p.noted m t.desk.app.2)).1 :=
  ⟨.head (.call _ _ m hst hm) (steps_callback t m p), seen_call t m p⟩

/-- Behind a callback that started connected, the session is not deaf yet. -/
theorem deaf_call (m : Moment) (p : Program α) (hst : t.session.session.standing = .connected) :
    (call t (p.noted m t.desk.app.2)).1.session.deaf = false := by
  have h := p.standing_run t.session.session t.desk.outbox
  have hcall : (call t (p.noted m t.desk.app.2)).1.session.session =
      (p.run t.session.session t.desk.outbox).1 :=
    congrArg Scene.session (scene_call t m p)
  rw [deaf, hcall]
  rcases h with h | h <;> simp [h, hst]

theorem goes_callOrFail (m : Moment) (p : Program α)
    (hst : t.session.session.standing = .connected) (hm : m ≠ .closing) :
    Goes t (callOrFail t (p.noted m t.desk.app.2)) := by
  have hcall := goes_call m p hst hm
  have hdeaf := deaf_call m p hst
  unfold callOrFail
  generalize call t (p.noted m t.desk.app.2) = r at hcall hdeaf ⊢
  obtain ⟨u, outcome⟩ := r
  simp only
  split
  · exact hcall.trans (goes_fail _ hdeaf)
  · exact hcall

variable (s : Service α)

theorem goes_deliverBuffered (flags : Flags) (hst : t.session.session.standing = .connected)
    (h : Seen (scene t)) : Goes t (deliverBuffered s.recorded t flags) := by
  have hdeaf : t.session.deaf = false := by simp [deaf, hst]
  unfold deliverBuffered
  simp only
  split
  · exact goes_fail _ hdeaf
  split
  · exact Goes.refl h
  rw [recorded_onMessage]
  generalize s.handler.onMessage _ _ _ = p
  have hcall := goes_call .message p hst (by simp)
  have hdeaf := deaf_call .message p hst
  generalize call t (p.noted .message t.desk.app.2) = r at hcall hdeaf ⊢
  obtain ⟨u, outcome⟩ := r
  simp only
  split
  · exact hcall.trans (goes_fail _ hdeaf)
  · exact hcall

theorem goes_deliver (flags : Flags) (h : Seen (scene t)) :
    Goes t (deliver s.recorded t flags) := by
  unfold deliver
  by_cases hst : t.session.session.standing = .connected
  · rw [if_neg (by simpa using hst)]
    split
    · exact goes_deliverBuffered s flags hst h
    · rw [recorded_onMessage]
      exact goes_callOrFail .message _ hst (by simp)
  · rw [if_pos hst]
    exact Goes.refl h

/-- How the callback ended does not matter to the session. -/
theorem tellClose_fst {β : Type} (s : Service β) (t : Turn β π) (code : UInt16) :
    (tellClose s t code).1 = (call t (s.handler.onClose t.desk.app code)).1 := by
  unfold tellClose
  rcases call t (s.handler.onClose t.desk.app code) with ⟨u, outcome⟩
  cases outcome <;> rfl

/-- The application is told, which is noted first. -/
theorem goes_tellClose (code : UInt16)
    (h : Steps (scene t) ⟨u.session.session, u.desk.app.2 ++
      [⟨.closing, u.session.session.standing⟩]⟩) : Goes t (tellClose s.recorded u code).1 := by
  rw [tellClose_fst, recorded_onClose]
  exact ⟨h.trans (steps_callback u .closing _), seen_call u .closing _⟩

theorem goes_peerClose (h : Seen (scene t)) : Goes t (peerClose s.recorded t).1 := by
  unfold peerClose
  cases hst : t.session.session.standing with
  | connected =>
    refine goes_tellClose s _ (.single ?_)
    exact .answer t.session.session t.desk.app.2 _ hst
  | expectClose =>
    have hseen : seen t.desk.app.2 = .expectClose := by
      rcases h with h | h
      · exact h.trans hst
      · cases hst.symm.trans h
    have hgoes : Goes t (tellClose s.recorded
        (onSession (fun w => { w with standing := .closed }) t)
          (answerCode t.session.parser.payload)).1 :=
      goes_tellClose s _ (.single (.complete t.session.session t.desk.app.2 hst hseen))
    simp only
    generalize tellClose s.recorded _ _ = r at hgoes ⊢
    obtain ⟨u, e | ⟨⟩⟩ := r <;> exact hgoes
  | closeReceived => exact Goes.refl h
  | closed => exact Goes.refl h
  | failed => exact Goes.refl h

theorem goes_answerPing (flags : Flags) (h : Seen (scene t)) : Goes t (answerPing t flags) := by
  unfold answerPing
  split
  · rename_i hst
    refine ⟨.single (.queue t.session.session t.desk.app.2 _ _ hst ?_), h⟩
    simp [Flags.opcode?_withOpcode]
  · exact Goes.refl h

theorem goes_completeFrame (h : Seen (scene t)) : Goes t (completeFrame s.recorded t).1 := by
  unfold completeFrame
  cases t.session.parser.opcode with
  | continuation => exact goes_deliver s _ h
  | text => exact goes_deliver s _ h
  | binary => exact goes_deliver s _ h
  | close => exact goes_peerClose s h
  | ping => exact goes_answerPing _ h
  | pong => exact Goes.refl h

theorem goes_readFrames (n : Nat) (src : Bytes) (h : Seen (scene t)) :
    Goes t (readFrames s.recorded n t src).1 := by
  induction n generalizing t src with
  | zero => exact Goes.refl h
  | succ n ih =>
    rw [readFrames]
    by_cases hstop : src.isEmpty || t.session.deaf
    · rw [if_pos hstop]
      exact Goes.refl h
    rw [if_neg hstop]
    have hdeaf : t.session.deaf = false := by
      rw [Bool.or_eq_true, not_or] at hstop
      simpa using hstop.2
    rcases t.session.parser.parse src with ⟨p, v | rest⟩
    · exact goes_fail v.closeCode (t := t.modify fun l => { l with parser := p }) hdeaf
    · by_cases hp : p.isComplete
      · simp only [hp, if_true]
        have hframe := goes_completeFrame s (t := t.modify fun l => { l with parser := p }) h
        generalize completeFrame s.recorded _ = r at hframe ⊢
        obtain ⟨u, e | ⟨⟩⟩ := r
        · exact hframe
        · exact hframe.trans
            (ih (t := u.modify fun l => { l with parser := l.parser.reset }) rest hframe.2)
      · simp only [hp, Bool.false_eq_true, if_false]
        exact ih (t := t.modify fun l => { l with parser := p }) rest h

theorem steps_read (src : Bytes) (h : Seen (scene t)) :
    Steps (scene t) (scene (read s.recorded t src).1) := by
  have hframes := (goes_readFrames s (src.length + 1) src h).1
  unfold read
  generalize readFrames s.recorded (src.length + 1) t src = r at hframes ⊢
  obtain ⟨u, e | ⟨⟩⟩ := r
  · exact hframes
  · simpa using hframes

theorem steps_stop (t : Turn (α × List Note) π) : Steps (scene t) (scene (stop t)) := by
  rw [stop, scene_arm]
  by_cases hst : t.session.session.standing = .connected
  · simp only [scene, onSession, Turn.modify, hst, if_true]
    exact .single (.close t.session.session t.desk.app.2 _ hst)
  · simp only [scene, onSession, Turn.modify, hst, if_false]
    exact .refl

theorem steps_ready (hst : t.session.session.standing = .connected) :
    Steps (scene t) (scene (ready s.recorded t)) := by
  have hcall := (goes_callOrFail .connecting (s.handler.onConnect t.desk.app.1) hst (by simp)).1
  unfold ready
  rw [recorded_onConnect]
  generalize callOrFail t _ = u at hcall ⊢
  by_cases hstop : u.ctx.stopping
  · simp only [hstop, if_true]
    exact hcall.trans (steps_stop u)
  · simp only [hstop, Bool.false_eq_true, if_false, scene_arm]
    exact hcall

theorem steps_items (items : List Item) (w : Session) (l : List Note) :
    Steps ⟨w, l⟩ ⟨items.foldl applyItem w, l⟩ := by
  induction items generalizing w with
  | nil => exact .refl
  | cons item items ih =>
    cases item with
    | frame flags payload => exact (steps_sendFrame w l flags payload).trans (ih _)
    | close code => exact (steps_close w l code).trans (ih _)
    | answer slot part => exact ih w

theorem steps_wakeup (t : Turn (α × List Note) π) (items : List Item) :
    Steps (scene t) (scene (wakeup t items)) := by
  rw [wakeup, scene_arm]
  exact steps_items items t.session.session t.desk.app.2

/-- Sending touches nothing but the front of the queue. -/
theorem scene_write (t : Turn (α × List Note) π) (socket : Net.Sender τ) (io : τ) :
    ∃ out, scene (write t socket io).1 = ⟨{ t.session.session with out }, t.desk.app.2⟩ ∧
      out.toBytes <:+ t.session.session.out.toBytes := by
  have hsuffix := Net.sendChain_suffix socket io t.session.session.out t.ctx.maxIovec
  unfold write
  rcases hsend : Net.sendChain socket io t.session.session.out t.ctx.maxIovec with
    ⟨io', out, fault | ⟨⟨⟩ | ⟨⟩⟩⟩
  all_goals
    rw [hsend] at hsuffix
    refine ⟨out, ?_, hsuffix⟩
  · rfl
  · simp only
    split <;> rfl
  · rfl

/-! ### Runs -/

/-- What holds of a recorded connection between two events. -/
structure Kept (r : Record α π) : Prop where
  sound : Sound (scene r.turn)
  rested : seen r.turn.desk.app.2 = r.turn.session.session.standing
  frames : ∃ fs, r.queued = fs.flatMap Frame.wire ∧
    Disciplined fs r.turn.session.session.standing
  waiting : r.turn.session.session.out.toBytes <:+ r.queued

/-- An event that goes by steps of the machine. -/
theorem Kept.of_steps {r : Record α π} (h : Kept r) {t : Turn (α × List Note) π}
    (hsteps : Steps (scene r.turn) (scene t)) :
    Kept { turn := rest t, queued := r.queued ++
      t.session.session.out.toBytes.drop r.turn.session.session.out.total } := by
  have hrest : Steps (scene t) (scene (rest t)) := .single (.look _ _ .rest (.inr rfl))
  obtain ⟨fs, hfs, hdisc⟩ := h.frames
  obtain ⟨gs, hout, hgs⟩ := hsteps.queued fs hdisc
  have hnew : t.session.session.out.toBytes.drop r.turn.session.session.out.total =
      gs.flatMap Frame.wire := by
    simp only [scene] at hout
    rw [hout, Net.Chain.total, List.drop_left]
  refine ⟨Steps.sound (hsteps.trans hrest) h.sound, seen_append _ _, ⟨fs ++ gs, ?_, hgs⟩, ?_⟩
  · rw [hnew, hfs, List.flatMap_append]
  · obtain ⟨gone, hgone⟩ := h.waiting
    refine ⟨gone, ?_⟩
    simp only [scene] at hout
    rw [hnew, ← hgone, List.append_assoc]
    exact congrArg (gone ++ ·) hout

theorem Kept.write {r : Record α π} (h : Kept r) (socket : Net.Sender τ) (io : τ) :
    Kept { turn := rest (Link.write r.turn socket io).1, queued := r.queued ++ [] } := by
  obtain ⟨out, hscene, hsuffix⟩ := scene_write r.turn socket io
  have hsession : (Link.write r.turn socket io).1.session.session =
      { r.turn.session.session with out } := congrArg Scene.session hscene
  have hsound : Sound (scene (Link.write r.turn socket io).1) := by
    rw [hscene]
    exact h.sound.move h.sound.last h.sound.untold
  have hrest : Steps (scene (Link.write r.turn socket io).1)
      (scene (rest (Link.write r.turn socket io).1)) := .single (.look _ _ .rest (.inr rfl))
  refine ⟨Steps.sound hrest hsound, seen_append _ _, ?_, ?_⟩
  · simp only [rest, hsession, List.append_nil]
    exact h.frames
  · simp only [rest, hsession, List.append_nil]
    exact hsuffix.trans h.waiting

theorem Kept.step {r : Record α π} (h : Kept r) (socket : Net.Sender τ) (e : Event τ α π) :
    Kept (r.step s socket e) := by
  cases e with
  | read src => exact h.of_steps (steps_read s src (.inl h.rested))
  | wakeup items => exact h.of_steps (steps_wakeup r.turn items)
  | write io => exact h.write socket io
  | stop => exact h.of_steps (steps_stop r.turn)
  | outside ctx desk => exact h.of_steps .refl

theorem kept_start (ctx : Context π) (desk : Desk α) : Kept (Record.start s ctx desk) := by
  have hfresh : Kept (α := α) (π := π)
      { turn := ⟨ctx, new s.recorded, withNotes desk []⟩, queued := [] } := by
    refine ⟨⟨.singleton _, .inl rfl, nofun, Nat.zero_le _, fun _ => rfl⟩, rfl,
      ⟨[], rfl, ?_⟩, ?_⟩
    · exact disciplined_nil
    · exact List.suffix_rfl
  exact hfresh.of_steps (steps_ready s rfl)

theorem kept_run (socket : Net.Sender τ) (ctx : Context π) (desk : Desk α)
    (events : List (Event τ α π)) : Kept (Record.run s socket ctx desk events) := by
  have h (r : Record α π) (hr : Kept r) : Kept (events.foldl (Record.step s socket) r) := by
    induction events generalizing r with
    | nil => exact hr
    | cons e events ih => exact ih _ (hr.step s socket e)
  exact h _ (kept_start s ctx desk)

/-- In every run of a connection, whatever its application does: at most one close frame is queued,
no frame behind it, and it is there exactly once the session is no longer connected; the standing
seen at one point is the standing seen before, or one move away from it; messages are delivered
while connected only; and the application is told of a close at most once. The bytes queued tell
which frames they are, as long as payload lengths fit in 64 bits. -/
theorem close_discipline (socket : Net.Sender τ) (ctx : Context π) (desk : Desk α)
    (events : List (Event τ α π)) :
    let r := Record.run s socket ctx desk events
    plain r.turn = run s socket ctx desk events ∧
      (∃ fs : List Frame, r.queued = fs.flatMap Frame.wire ∧
        (∀ gs : List Frame, (∀ f ∈ fs ++ gs, f.payload.length < 0x10000000000000000) →
          r.queued = gs.flatMap Frame.wire → gs = fs) ∧
        (∀ f ∈ fs.dropLast, f.isClose = false) ∧
        ((∃ f ∈ fs, f.isClose) ↔ r.turn.session.session.standing ≠ .connected)) ∧
      List.IsChain Keeps (path r.turn.desk.app.2) ∧
      (∀ n ∈ r.turn.desk.app.2, n.moment = .message → n.standing = .connected) ∧
      told r.turn.desk.app.2 ≤ 1 := by
  intro r
  have h : Kept r := kept_run s socket ctx desk events
  obtain ⟨fs, hqueued, hdisc⟩ := h.frames
  have honly (gs : List Frame) (hfit : ∀ f ∈ fs ++ gs, f.payload.length < 0x10000000000000000)
      (hgs : r.queued = gs.flatMap Frame.wire) : gs = fs := by
    rw [List.forall_mem_append] at hfit
    exact Frame.wire_injective hfit.2 hfit.1 (hgs.symm.trans hqueued)
  exact ⟨Record.plain_run s socket ctx desk events, ⟨fs, hqueued, honly, hdisc⟩, h.sound.chain,
    h.sound.messages, h.sound.once⟩

end Link

end WireServer.WebSocket
