import WireServer.Proofs.WebSocket.Closing

/-! The last words of a WebSocket session. A connection asks to half-close only behind them, with
everything sent, and a session that had them queues nothing more. -/

namespace WireServer.WebSocket

open Handshake Relation

variable {α π τ : Type}

/-- What a callback can do to a session: one that is no longer connected queues nothing, and one
that is still connected did not have its last words. -/
structure Follows (v w : Session) : Prop where
  quiet : v.standing ≠ .connected → w.standing ≠ .connected ∧ w.out = v.out
  words : w.standing = .connected → w.lastWords = v.lastWords

namespace Handshake

theorem Step.words {a b : Scene} (h : Step a b) (hb : b.session.standing = .connected) :
    b.session.lastWords = a.session.lastWords := by
  cases h <;> first | rfl | cases hb

theorem Steps.follows {a b : Scene} (h : Steps a b) : Follows a.session b.session := by
  refine ⟨fun ha => ⟨(h.closing ha).1, (h.closing ha).2.1⟩, fun hb => ?_⟩
  induction h with
  | refl => rfl
  | tail _ hstep ih =>
    rename_i c d _
    have hc : c.session.standing = .connected := by
      by_contra hc
      exact (hstep.closing hc).1 hb
    exact (hstep.words hb).trans (ih hc)

end Handshake

namespace Link

/-- Nothing is asked of the sending side before the last words, nor while output waits, and another
protocol is never asked for. -/
structure Wary (t : Turn α π) : Prop where
  connected : t.session.session.standing = .connected →
    t.session.session.lastWords = false ∧ t.ctx.shutdown = false
  sent : t.ctx.shutdown = true → t.session.session.out.total = 0
  stays : t.ctx.transition = none

section Wary

variable {t u : Turn α π} (s : Service α)

theorem Wary.unasked (h : Wary t) (hst : t.session.session.standing = .connected) {P : Prop}
    (hasked : t.ctx.shutdown = true) : P :=
  nomatch (h.connected hst).2.symm.trans hasked

theorem Wary.follows (h : Wary t) (hu : Follows t.session.session u.session.session)
    (hctx : u.ctx = t.ctx) : Wary u := by
  refine ⟨fun hst => ?_, fun hasked => ?_, by rw [hctx, h.stays]⟩
  · have ht : t.session.session.standing = .connected := by
      by_contra ht
      exact (hu.quiet ht).1 hst
    rw [hu.words hst, hctx]
    exact h.connected ht
  · rw [hctx] at hasked
    have ht : t.session.session.standing ≠ .connected := fun ht => h.unasked ht hasked
    rw [(hu.quiet ht).2]
    exact h.sent hasked

theorem Wary.onSession (h : Wary t) {f : Session → Session}
    (hf : Follows t.session.session (f t.session.session)) : Wary (onSession f t) :=
  h.follows hf rfl

theorem Wary.arm (h : Wary t) : Wary (arm t) := by
  unfold Link.arm
  split
  · exact ⟨h.connected, h.sent, h.stays⟩
  rename_i hsent
  split
  · rename_i hwords
    exact ⟨fun hst => (nomatch (h.connected hst).1.symm.trans hwords),
      fun _ => Nat.eq_zero_of_not_pos hsent, h.stays⟩
  · exact h

theorem Wary.fail (h : Wary t) (code : UInt16) : Wary (fail t code) := by
  unfold Link.fail
  refine Wary.arm ⟨nofun, fun hasked => ?_, h.stays⟩
  have ht : t.session.session.standing ≠ .connected := fun ht => h.unasked ht hasked
  simp only [Turn.modify, if_neg ht]
  exact h.sent hasked

theorem Wary.call (h : Wary t) (p : Program α) : Wary (call t p).1 :=
  h.follows (p.steps t.session.session t.desk.outbox []).follows rfl

theorem Wary.callOrFail (h : Wary t) (p : Program α) : Wary (callOrFail t p) := by
  unfold Link.callOrFail
  dsimp only
  split
  · exact (h.call p).fail _
  · exact h.call p

theorem Wary.deliver (h : Wary t) (flags : Flags) : Wary (deliver s t flags) := by
  unfold Link.deliver deliverBuffered
  dsimp only
  split
  · exact h
  split
  · split
    · exact h.fail _
    split
    · exact ⟨h.connected, h.sent, h.stays⟩
    have hcall := h.call (s.handler.onMessage t.desk.app
      (.new true (t.session.parser.messageKind.getD .binary).opcode)
      (t.session.message ++ t.session.parser.payload))
    split
    · exact Wary.fail ⟨hcall.connected, hcall.sent, hcall.stays⟩ _
    · exact ⟨hcall.connected, hcall.sent, hcall.stays⟩
  · exact h.callOrFail _

theorem Wary.tellClose (h : Wary t) (code : UInt16) : Wary (tellClose s t code).1 := by
  rw [tellClose_fst]
  exact h.call _

theorem Wary.peerClose (h : Wary t) : Wary (peerClose s t).1 := by
  unfold Link.peerClose
  cases hst : t.session.session.standing with
  | connected =>
    have hanswered : Wary (Link.onSession (fun w =>
        { w.queueClose (answerCode t.session.parser.payload) with
          standing := .closeReceived, lastWords := true }) t) :=
      ⟨nofun, h.unasked hst, h.stays⟩
    exact hanswered.tellClose s _
  | expectClose =>
    have htold := Wary.tellClose s (t := Link.onSession (fun w => { w with standing := .closed }) t)
      ⟨nofun, h.sent, h.stays⟩ (answerCode t.session.parser.payload)
    dsimp only
    generalize Link.tellClose s _ _ = r at htold ⊢
    obtain ⟨u, e | ⟨⟩⟩ := r
    · exact htold
    · exact ⟨htold.connected, htold.sent, htold.stays⟩
  | closeReceived | closed | failed => exact h

theorem Wary.completeFrame (h : Wary t) : Wary (completeFrame s t).1 := by
  unfold Link.completeFrame
  cases t.session.parser.opcode with
  | continuation | text | binary => exact h.deliver s _
  | close => exact h.peerClose s
  | ping =>
    dsimp only [answerPing]
    split
    · rename_i hst
      exact ⟨fun _ => h.connected hst, h.unasked hst, h.stays⟩
    · exact h
  | pong => exact h

theorem Wary.readFrames (h : Wary t) (n : Nat) (src : Bytes) : Wary (readFrames s n t src).1 := by
  induction n generalizing t src with
  | zero => exact h
  | succ n ih =>
    unfold Link.readFrames
    split
    · exact h
    have hparsed (p : Parser) : Wary (t.modify fun l => { l with parser := p }) :=
      ⟨h.connected, h.sent, h.stays⟩
    rcases t.session.parser.parse src with ⟨p, v | rest⟩
    · exact (hparsed p).fail _
    dsimp only
    split
    · have hframe := (hparsed p).completeFrame s
      generalize Link.completeFrame s _ = r at hframe ⊢
      obtain ⟨u, e | ⟨⟩⟩ := r
      · exact hframe
      · exact ih (t := u.modify fun l => { l with parser := l.parser.reset })
          ⟨hframe.connected, hframe.sent, hframe.stays⟩ rest
    · exact ih (hparsed p) rest

/-- The close handshake starts, unless it did. -/
theorem Wary.leave (h : Wary t) : Wary (Link.onSession (fun w =>
    if w.standing = .connected then
      { w.queueClose CloseCode.goingAway with standing := .expectClose }
    else w) t) := by
  refine h.onSession ?_
  split
  · rename_i hst
    exact ⟨fun ht => absurd hst ht, nofun⟩
  · exact ⟨fun ht => ⟨ht, rfl⟩, fun _ => rfl⟩

end Wary

/-! ### One callback -/

/-- What holds behind every callback: unsent output waits for the socket. -/
structure Poised (t : Turn α π) : Prop extends Wary t where
  armed : 0 < t.session.session.out.total → t.ctx.tx = true

section Callback

variable {t u : Turn α π} (s : Service α)

theorem Wary.poised (h : Wary t) : Poised (Link.arm t) := by
  refine ⟨h.arm, fun hwaits => ?_⟩
  rw [session_arm] at hwaits
  rw [Link.arm, if_pos hwaits]
  rfl

theorem Poised.read (h : Wary t) {src : Bytes} (hread : read s t src = (u, .ok ())) :
    Poised u := by
  have hframes := h.readFrames s (src.length + 1) src
  unfold Link.read at hread
  generalize readFrames s _ t src = r at hframes hread
  obtain ⟨v, e | ⟨⟩⟩ := r
  · cases hread
  · cases hread
    exact hframes.poised

theorem Poised.wakeup (h : Wary t) (items : List Item) : Poised (wakeup t items) :=
  (h.onSession (steps_items items t.session.session []).follows).poised

theorem Poised.stop (h : Wary t) : Poised (stop t) := h.leave.poised

theorem Poised.ready (h : Wary t) : Poised (ready s t) := by
  have hcall := h.callOrFail (s.handler.onConnect t.desk.app)
  unfold Link.ready
  dsimp only
  split
  · exact .stop hcall
  · exact hcall.poised

variable {socket : Net.Sender τ} {io io' : τ} {status : WriteStatus}

/-- A write that comes back has sent everything, or the rest waits. -/
theorem Poised.write (h : Wary t) (htx : t.ctx.tx = true) (hcalm : t.ctx.shutdown = false)
    (hwrite : write t socket io = (u, io', .ok status)) : Poised u := by
  have hstatus := Net.sendChain_status socket io t.session.session.out t.ctx.maxIovec
  unfold Link.write at hwrite
  rcases hsend : Net.sendChain socket io t.session.session.out t.ctx.maxIovec with
    ⟨io'', out, fault | _ | _⟩
  all_goals
    rw [hsend] at hstatus hwrite
    cases hwrite
  · obtain rfl : out = {} := hstatus.1 rfl
    split
    · rename_i hwords
      refine ⟨⟨fun hst => ?_, fun _ => rfl, h.stays⟩, nofun⟩
      exact nomatch (h.connected hst).1.symm.trans hwords
    · exact ⟨⟨h.connected, fun _ => rfl, h.stays⟩, nofun⟩
  · exact ⟨⟨h.connected, fun hasked => (nomatch hcalm.symm.trans hasked), h.stays⟩, fun _ => htx⟩

/-- A write that answers so leaves nothing unsent. -/
theorem out_of_flushed (hwrite : write t socket io = (u, io', .ok .flushed)) :
    u.session.session.out = {} := by
  have hstatus := Net.sendChain_status socket io t.session.session.out t.ctx.maxIovec
  unfold Link.write at hwrite
  rcases hsend : Net.sendChain socket io t.session.session.out t.ctx.maxIovec with
    ⟨io'', out, fault | _ | _⟩
  all_goals
    rw [hsend] at hstatus hwrite
    cases hwrite
  split <;> exact hstatus.1 rfl

end Callback

end Link

end WireServer.WebSocket
