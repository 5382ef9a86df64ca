import WireServer.Connection.Binding
import WireServer.Proofs.Connection.Chronicle
import WireServer.Proofs.Http.Parting
import WireServer.Proofs.WebSocket.LastWords

/-! What every bound session sees to, whichever protocol it speaks. Unsent output waits for the
socket, and a half-close is asked for only by a session that is done: everything is sent, no
response is in line, and nothing more is queued. -/

namespace WireServer

variable {τ α π : Type}

namespace Mqtt.Session

/-- What holds behind every callback. -/
structure Poised (t : Turn α π) : Prop where
  armed : 0 < t.session.out.total → t.ctx.tx = true
  sent : t.ctx.shutdown = true → t.session.out.total = 0
  stays : t.ctx.transition = none

section Callback

variable {t u : Turn α π} {src : Bytes}

theorem Poised.of_calm (hcalm : t.ctx.Calm) : Poised (arm t) := by
  unfold arm
  split
  · exact ⟨fun _ => rfl, hcalm.unasked, hcalm.transition⟩
  rename_i hsent
  split
  · exact ⟨fun hwaits => absurd hwaits hsent, fun _ => Nat.eq_zero_of_not_pos hsent,
      hcalm.transition⟩
  · exact ⟨fun hwaits => absurd hwaits hsent, hcalm.unasked, hcalm.transition⟩

theorem Poised.read {p : Service} (hcalm : t.ctx.Calm) (hread : read p t src = (u, .ok ())) :
    Poised u := by
  unfold Session.read at hread
  rcases hpackets : t.session.readPackets p.maxPacket (src.length + 1) src with ⟨s, e | ⟨⟩⟩ <;>
    rw [hpackets] at hread <;> cases hread
  exact .of_calm (t := { t with session := s }) hcalm

theorem Poised.stop (hcalm : t.ctx.Calm) : Poised (stop t) :=
  .of_calm (t := t.modify fun s => { s with disconnecting := true }) hcalm

variable {socket : Net.Sender τ} {io io' : τ} {status : WriteStatus}

/-- A write that comes back has sent everything, or the rest waits. -/
theorem Poised.write (hcalm : t.ctx.Calm) (htx : t.ctx.tx = true)
    (hwrite : write t socket io = (u, io', .ok status)) :
    Poised u := by
  have hstatus := Net.sendChain_status socket io t.session.out t.ctx.maxIovec
  unfold Session.write at hwrite
  rcases hsend : Net.sendChain socket io t.session.out t.ctx.maxIovec with
    ⟨io'', out, fault | _ | _⟩
  all_goals
    rw [hsend] at hstatus hwrite
    cases hwrite
  · obtain rfl : out = {} := hstatus.1 rfl
    split
    · exact ⟨nofun, fun _ => rfl, hcalm.transition⟩
    · exact ⟨nofun, fun _ => rfl, hcalm.transition⟩
  · exact ⟨fun _ => htx, hcalm.unasked, hcalm.transition⟩

/-- A write that answers so leaves nothing unsent. -/
theorem out_of_flushed (hwrite : write t socket io = (u, io', .ok .flushed)) :
    u.session.out = {} := by
  have hstatus := Net.sendChain_status socket io t.session.out t.ctx.maxIovec
  unfold Session.write at hwrite
  rcases hsend : Net.sendChain socket io t.session.out t.ctx.maxIovec with
    ⟨io'', out, fault | _ | _⟩
  all_goals
    rw [hsend] at hstatus hwrite
    cases hwrite
  split <;> exact hstatus.1 rfl

end Callback

end Mqtt.Session

namespace Binding

/-- What waits to be sent. -/
def out : Binding α → Net.Chain
  | .http _ m => m.out
  | .webSocket _ l => l.session.out
  | .mqtt _ m => m.out

/-- No byte is unsent, and no response is in line. -/
structure Drained (b : Binding α) : Prop where
  sent : b.out.total = 0
  answered : ∀ s m, b = .http s m → m.pending = []

/-- Everything is sent, and nothing more is queued: no response is in line or was the last one, and
the close handshake is under way or over. -/
def Done : Binding α → Prop
  | .http _ m => m.out.total = 0 ∧ m.pending = [] ∧ m.ending = none
  | .webSocket _ l => l.session.out.total = 0 ∧ l.session.standing ≠ .connected
  | .mqtt _ m => m.out.total = 0

theorem Done.drained {b : Binding α} (h : b.Done) : b.Drained := by
  cases b with
  | http s m =>
    refine ⟨h.1, fun _ _ hm => ?_⟩
    cases hm
    exact h.2.1
  | webSocket s l => exact ⟨h.1, fun _ _ hm => by cases hm⟩
  | mqtt s m => exact ⟨h, fun _ _ hm => by cases hm⟩

/-- What holds behind every callback. -/
def Tidy (t : Turn α) : Prop :=
  match t.session with
  | .http _ m => Http.Session.Poised False (t.around m)
  | .webSocket _ l => WebSocket.Link.Poised (t.around l)
  | .mqtt _ m => Mqtt.Session.Poised (t.around m)

section Tidy

variable {ctx ctx' : Context (Successor α)} {b : Binding α} {desk desk' : Desk α}

/-- Unsent output waits for the socket. -/
theorem Tidy.armed (h : Tidy ⟨ctx, b, desk⟩) (hwaits : 0 < b.out.total) : ctx.tx = true := by
  cases b with
  | http s m => exact Http.Session.Poised.armed h hwaits
  | webSocket s l => exact WebSocket.Link.Poised.armed h hwaits
  | mqtt s m => exact Mqtt.Session.Poised.armed h hwaits

/-- A half-close is asked for only when nothing is left to do. -/
theorem Tidy.done (h : Tidy ⟨ctx, b, desk⟩) (hasked : ctx.shutdown = true) : b.Done := by
  cases b with
  | http s m => exact Http.Session.Poised.finished h hasked
  | webSocket s l =>
    have hl := WebSocket.Link.Poised.toWary h
    exact ⟨hl.sent hasked, fun hst => hl.unasked hst hasked⟩
  | mqtt s m => exact Mqtt.Session.Poised.sent h hasked

/-- Nobody asks for a half-close and for another protocol at once. -/
theorem Tidy.either (h : Tidy ⟨ctx, b, desk⟩) (hasked : ctx.transition.isSome) :
    ctx.shutdown = false := by
  have hstays {P : Prop} (hnone : ctx.transition = none) : P := by simp [hnone] at hasked
  cases b with
  | http s m => exact Http.Session.Poised.either h hasked
  | webSocket s l => exact hstays (WebSocket.Link.Wary.stays (WebSocket.Link.Poised.toWary h))
  | mqtt s m => exact hstays (Mqtt.Session.Poised.stays h)

/-- Requests are taken back, and those of others do not matter. -/
theorem Tidy.recast (h : Tidy ⟨ctx, b, desk⟩) (htx : 0 < b.out.total → ctx'.tx = true)
    (hshutdown : ctx'.shutdown = true → ctx.shutdown = true) (hstays : ctx'.transition = none) :
    Tidy ⟨ctx', b, desk'⟩ := by
  have hnone {P : Prop} (hasked : ctx'.transition.isSome) : P := by simp [hstays] at hasked
  cases b with
  | http s m =>
    have hm : Http.Session.Poised False ⟨ctx, m, desk⟩ := h
    exact ⟨hm.coherent, hm.waiting, htx, fun hasked => hm.finished (hshutdown hasked), hnone,
      False.elim, False.elim⟩
  | webSocket s l =>
    have hl : WebSocket.Link.Poised ⟨ctx, l, desk⟩ := h
    refine ⟨⟨fun hst => ⟨(hl.connected hst).1, ?_⟩, fun hasked => hl.sent (hshutdown hasked),
      hstays⟩, htx⟩
    exact Bool.eq_false_iff.2 fun hasked => hl.unasked hst (hshutdown hasked)
  | mqtt s m =>
    have hm : Mqtt.Session.Poised ⟨ctx, m, desk⟩ := h
    exact ⟨htx, fun hasked => hm.sent (hshutdown hasked), hstays⟩

/-- Without unsent output, nothing has to wait for the socket. -/
theorem Tidy.disarm (h : Tidy ⟨ctx, b, desk⟩) (hsent : b.out.total = 0) :
    Tidy ⟨{ ctx with tx := false }, b, desk⟩ := by
  have hnone {P : Prop} (hwaits : 0 < b.out.total) : P := by omega
  cases b with
  | http s m => exact Http.Session.Poised.disarm h hsent
  | webSocket s l =>
    have hl : WebSocket.Link.Poised ⟨ctx, l, desk⟩ := h
    exact ⟨⟨hl.connected, hl.sent, hl.stays⟩, hnone⟩
  | mqtt s m =>
    have hm : Mqtt.Session.Poised ⟨ctx, m, desk⟩ := h
    exact ⟨hnone, hm.sent, hm.stays⟩

theorem tidy_new (s : Service α) (hcalm : ctx.Calm) : Tidy ⟨ctx, .new s, desk⟩ := by
  cases s with
  | http s =>
    exact ⟨Http.Session.coherent_new s, nofun, nofun, hcalm.unasked, hcalm.stays, False.elim,
      False.elim⟩
  | webSocket s => exact ⟨⟨fun _ => ⟨rfl, hcalm.shutdown⟩, hcalm.unasked, hcalm.transition⟩, nofun⟩
  | mqtt s => exact ⟨nofun, hcalm.unasked, hcalm.transition⟩

theorem ctx_takeLeftover (t : Turn α) : (takeLeftover t).1.ctx = t.ctx := by
  unfold takeLeftover
  split <;> rfl

/-- A callback was made, and no other protocol is to take over. -/
def Stays (t : Turn α) : Prop := Tidy t ∧ t.ctx.transition = none

theorem Tidy.ready (h : Tidy ⟨ctx, b, desk⟩) (hcalm : ctx.Calm) : Stays (ready ⟨ctx, b, desk⟩) := by
  cases b with
  | http s m => exact ⟨h, hcalm.transition⟩
  | webSocket s l =>
    have hl := WebSocket.Link.Poised.ready s (WebSocket.Link.Poised.toWary h)
    exact ⟨hl, hl.stays⟩
  | mqtt s m => exact ⟨h, hcalm.transition⟩

theorem Tidy.read (h : Tidy ⟨ctx, b, desk⟩) (hcalm : ctx.Calm) {src : Bytes} {u : Turn α}
    (hread : read ⟨ctx, b, desk⟩ src = (u, .ok ())) : Stays u := by
  cases b with
  | http s m =>
    cases hread
    exact Http.Session.Poised.read s h hcalm src
  | webSocket s l =>
    simp only [Binding.read] at hread
    rcases hl : WebSocket.Link.read s _ src with ⟨v, e | ⟨⟩⟩ <;> rw [hl] at hread <;> cases hread
    have hv := WebSocket.Link.Poised.read s (WebSocket.Link.Poised.toWary h) hl
    exact ⟨hv, hv.stays⟩
  | mqtt s m =>
    simp only [Binding.read] at hread
    rcases hm : Mqtt.Session.read s _ src with ⟨v, e | ⟨⟩⟩ <;> rw [hm] at hread <;> cases hread
    have hv := Mqtt.Session.Poised.read hcalm hm
    exact ⟨hv, hv.stays⟩

theorem Tidy.wakeup (h : Tidy ⟨ctx, b, desk⟩) (hcalm : ctx.Calm) (items : List Item) :
    Stays (wakeup ⟨ctx, b, desk⟩ items) := by
  cases b with
  | http s m => exact Http.Session.Poised.wakeup h hcalm items
  | webSocket s l =>
    have hl := WebSocket.Link.Poised.wakeup (WebSocket.Link.Poised.toWary h) items
    exact ⟨hl, hl.stays⟩
  | mqtt s m => exact ⟨h, hcalm.transition⟩

theorem Tidy.stop (h : Tidy ⟨ctx, b, desk⟩) (hcalm : ctx.Calm) : Stays (stop ⟨ctx, b, desk⟩) := by
  cases b with
  | http s m => exact Http.Session.Poised.stop h hcalm False.elim
  | webSocket s l =>
    have hl := WebSocket.Link.Poised.stop (WebSocket.Link.Poised.toWary h)
    exact ⟨hl, hl.stays⟩
  | mqtt s m =>
    have hm := Mqtt.Session.Poised.stop (t := (⟨ctx, m, desk⟩ : Mqtt.Session.Turn α _)) hcalm
    exact ⟨hm, hm.stays⟩

/-- A write that answers so leaves nothing unsent. -/
theorem out_of_flushed {socket : Net.Sender τ} {io io' : τ} {t u : Turn α}
    (hwrite : write t socket io = (u, io', .ok .flushed)) : u.session.out = {} := by
  unfold Binding.write at hwrite
  split at hwrite
  · rcases hm : Http.Session.write _ socket io with ⟨v, io'', result⟩
    rw [hm] at hwrite
    cases hwrite
    exact Http.Session.out_of_flushed hm
  · rcases hl : WebSocket.Link.write _ socket io with ⟨v, io'', result⟩
    rw [hl] at hwrite
    cases hwrite
    exact WebSocket.Link.out_of_flushed hl
  · rcases hm : Mqtt.Session.write _ socket io with ⟨v, io'', result⟩
    rw [hm] at hwrite
    cases hwrite
    exact Mqtt.Session.out_of_flushed hm

/-- A write that comes back has sent everything, or the rest waits. -/
theorem Tidy.write (h : Tidy ⟨ctx, b, desk⟩) (hcalm : ctx.Calm) (htx : ctx.tx = true)
    {socket : Net.Sender τ} {io io' : τ} {u : Turn α} {status : WriteStatus}
    (hwrite : write ⟨ctx, b, desk⟩ socket io = (u, io', .ok status)) : Tidy u := by
  cases b with
  | http s m =>
    simp only [Binding.write] at hwrite
    rcases hm : Http.Session.write _ socket io with ⟨v, io'', result⟩
    rw [hm] at hwrite
    cases hwrite
    exact Http.Session.Poised.write h hcalm htx hm
  | webSocket s l =>
    simp only [Binding.write] at hwrite
    rcases hl : WebSocket.Link.write _ socket io with ⟨v, io'', result⟩
    rw [hl] at hwrite
    cases hwrite
    exact WebSocket.Link.Poised.write (WebSocket.Link.Poised.toWary h) htx hcalm.shutdown hl
  | mqtt s m =>
    simp only [Binding.write] at hwrite
    rcases hm : Mqtt.Session.write _ socket io with ⟨v, io'', result⟩
    rw [hm] at hwrite
    cases hwrite
    exact Mqtt.Session.Poised.write hcalm htx hm

theorem out_of_send {socket : Net.Sender τ} {io io' : τ} {t u : Turn α}
    (hsend : send t socket io = (u, io', .ok .flushed)) : u.session.out = {} := by
  unfold send at hsend
  split at hsend
  · rename_i hwrite
    have hout := out_of_flushed hwrite
    cases hsend
    exact hout
  · exact out_of_flushed hsend

/-- Once everything is sent, nothing waits for the socket any more. -/
theorem Tidy.send (h : Tidy ⟨ctx, b, desk⟩) (hcalm : ctx.Calm) (htx : ctx.tx = true)
    {socket : Net.Sender τ} {io io' : τ} {u : Turn α} {status : WriteStatus}
    (hsend : send ⟨ctx, b, desk⟩ socket io = (u, io', .ok status)) : Tidy u := by
  unfold Binding.send at hsend
  split at hsend
  · rename_i hwrite
    cases hsend
    exact (h.write hcalm htx hwrite).disarm (by rw [out_of_flushed hwrite]; rfl)
  · exact h.write hcalm htx hsend

/-- Behind the end of a session, the outbox changes nothing. -/
theorem Done.wakeup (h : b.Done) (items : List Item) :
    (Binding.wakeup ⟨ctx, b, desk⟩ items).session.Done := by
  cases b with
  | http s m =>
    obtain ⟨hsent, hpending, hending⟩ := h
    have hsame : Http.Session.wakeup (⟨ctx, m, desk⟩ : Http.Session.Turn α _) items =
        ⟨ctx, m, desk⟩ := by
      simp only [Http.Session.wakeup, Turn.modify, Http.Session.arm, hsent,
        Http.Session.foldl_applyItem_of_unanswered hpending,
        Http.Session.flushReady_of_unanswered hpending]
      exact Http.Session.finishUp_of_none hending
    simp only [Binding.wakeup, Turn.around, hsame]
    exact ⟨hsent, hpending, hending⟩
  | webSocket s l =>
    have hl := (WebSocket.Link.steps_items items l.session []).follows.quiet h.2
    simp only [Binding.wakeup, Turn.wrap, Turn.around, WebSocket.Link.wakeup,
      WebSocket.Link.session_arm]
    exact ⟨(congrArg Net.Chain.total hl.2).trans h.1, hl.1⟩
  | mqtt s m => exact h

end Tidy

end Binding

end WireServer
