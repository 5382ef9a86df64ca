import WireServer.Connection.Binding
import WireServer.Proofs.Connection.Trace
import WireServer.Proofs.WebSocket.Closing

/-! The books of a connection's WebSocket session: what its calls queued, what the socket took, and
what still waits. No call breaks the balance, and no other session has any part in it. -/

namespace WireServer.Binding

open Connection WebSocket

variable {τ α : Type}

/-- A call of a bound session. -/
abbrev Call (τ α : Type) := Connection.Call τ (Binding α) α (Successor α)

abbrev Trace (τ α : Type) := Connection.Trace τ (Binding α) α (Successor α)

def link? : Binding α → Option Link
  | .webSocket _ l => some l
  | _ => none

@[simp] theorem link?_http (s : Http.Service α (Successor α)) (m : Http.Session (Successor α)) :
    link? (.http s m) = none := rfl

@[simp] theorem link?_webSocket (s : WebSocket.Service α) (l : Link) :
    link? (.webSocket s l) = some l := rfl

@[simp] theorem link?_mqtt (s : Mqtt.Service) (m : Mqtt.Session) :
    link? (.mqtt s m : Binding α) = none := rfl

@[simp] theorem session_wrap {ρ σ π : Type} (t : WireServer.Turn σ α π) (f : σ → ρ) :
    (t.wrap f).session = f t.session := rfl

/-- The output of a WebSocket session that waits for the socket. -/
def waiting (b : Binding α) : Bytes := (b.link?.map (·.session.out.toBytes)).getD []

/-- What a call put into the queue of a WebSocket session. Sending only takes from its front. -/
def queuedBy (c : Call τ α) : Bytes :=
  match c.reason with
  | .write _ => []
  | _ => (waiting c.after.session).drop (waiting c.before.session).length

/-- What the socket took from a WebSocket session in a call. -/
def sentBy (socket : Net.Sender τ) (c : Call τ α) : Bytes :=
  match c.reason, c.before.session with
  | .write io, .webSocket _ l => Link.taken (c.before.around l) socket io
  | _, _ => []

def queued (calls : Trace τ α) : Bytes := calls.flatMap queuedBy

def sent (socket : Net.Sender τ) (calls : Trace τ α) : Bytes := calls.flatMap (sentBy socket)

@[simp] theorem queued_concat (calls : Trace τ α) (c : Call τ α) :
    queued (calls ++ [c]) = queued calls ++ queuedBy c := by
  simp [queued]

@[simp] theorem sent_concat (socket : Net.Sender τ) (calls : Trace τ α) (c : Call τ α) :
    sent socket (calls ++ [c]) = sent socket calls ++ sentBy socket c := by
  simp [sent]

@[simp] theorem waiting_webSocket (s : WebSocket.Service α) (l : Link) :
    waiting (.webSocket s l) = l.session.out.toBytes := rfl

theorem waiting_of_link? {b : Binding α} (h : b.link? = none) : b.waiting = [] := by
  rw [waiting, h]
  rfl

/-- Nothing is asked of the connection that a WebSocket session would have to answer for. -/
structure Unasked (t : Turn α) : Prop where
  stays : ∀ l ∈ t.session.link?, t.ctx.transition = none
  unclosed : t.ctx.close = false

theorem Unasked.modest {t : Turn α} (h : Unasked t) {s : WebSocket.Service α} {l : Link}
    (hs : t.session = .webSocket s l) {u : Link.Turn α (Successor α)}
    (hasks : Link.asks u = Link.asks (t.around l)) : Link.Modest u :=
  .of_open ((Link.transition_eq hasks).trans (h.stays l (by simp [hs])))
    ((Link.close_eq hasks).trans h.unclosed)

/-- A read in which a WebSocket session makes the connection close at once. -/
structure Closes (c : Call τ α) (l : Link) : Prop where
  read : ∃ src, c.reason = .read src
  session : c.before.session.link? = some l
  before : c.before.ctx.close = false
  after : c.after.ctx.close = true

/-- A call that keeps the books, and leaves no request that a WebSocket session does not leave. -/
structure Orderly (socket : Net.Sender τ) (c : Call τ α) : Prop where
  /-- What waited and what came is what went and what waits. -/
  flow : waiting c.before.session ++ queuedBy c = sentBy socket c ++ waiting c.after.session
  /-- A WebSocket session stays one. -/
  kind : c.after.session.link? = none → c.before.session.link? = none
  modest : ∀ l ∈ c.after.session.link?, Link.Modest (c.after.around l)
  /-- With a close, nothing waits exactly if the close frame had been sent before. -/
  closing : ∀ l, Closes c l → (waiting c.after.session = [] ↔
    l.session.standing = .expectClose ∧ l.session.out.toBytes = [])

variable {socket : Net.Sender τ} {r : Reason τ} {t u : Turn α}

/-- Sessions of other protocols have no part in the books. -/
theorem Orderly.of_other (ht : t.session.link? = none) (hu : u.session.link? = none) :
    Orderly socket ⟨r, t, u⟩ := by
  have hsent : sentBy socket ⟨r, t, u⟩ = [] := by
    obtain ⟨ctx, _ | _ | _, desk⟩ := t
    · cases r <;> rfl
    · cases ht
    · cases r <;> rfl
  refine ⟨?_, fun _ => ht, by simp [hu], fun l hc => ?_⟩
  · rw [hsent, waiting_of_link? ht, waiting_of_link? hu, queuedBy]
    cases r <;> simp [waiting_of_link? hu]
  · cases ht.symm.trans hc.session

/-- A call that only adds to the queue. -/
theorem Orderly.of_more {s : WebSocket.Service α} {l l' : Link} (hr : ∀ io, r ≠ .write io)
    (ht : t.session = .webSocket s l) (hu : u.session = .webSocket s l')
    (hmore : ∃ more, l'.session.out.toBytes = l.session.out.toBytes ++ more)
    (hmodest : Link.Modest (u.around l'))
    (hclosing : ∀ src, r = .read src → t.ctx.close = false → u.ctx.close = true →
      (l'.session.out.toBytes = [] ↔
        l.session.standing = .expectClose ∧ l.session.out.toBytes = [])) :
    Orderly socket ⟨r, t, u⟩ := by
  have hsent : sentBy socket ⟨r, t, u⟩ = [] := by
    cases r with
    | write io => exact absurd rfl (hr io)
    | _ => rfl
  have hqueued : queuedBy ⟨r, t, u⟩ =
      l'.session.out.toBytes.drop l.session.out.toBytes.length := by
    cases r with
    | write io => exact absurd rfl (hr io)
    | _ => simp [queuedBy, ht, hu]
  obtain ⟨more, hmore⟩ := hmore
  refine ⟨?_, by simp [hu], by simpa [hu] using hmodest, fun k hc => ?_⟩
  · rw [hsent, hqueued, ht, hu, waiting_webSocket, waiting_webSocket, hmore, List.drop_left,
      List.nil_append]
  · obtain ⟨src, hread⟩ := hc.read
    have hsession : (Binding.webSocket s l).link? = some k := ht ▸ hc.session
    cases hsession
    rw [hu]
    exact hclosing src hread hc.before hc.after

/-! ### The calls, one by one -/

theorem orderly_ready {s : Service α} (h : Unasked t) (hs : t.session = .new s) :
    Orderly socket ⟨.ready, t, ready t⟩ := by
  cases s with
  | http s => exact .of_other (by simp [hs, new]) (by simp [ready, hs, new])
  | mqtt s => exact .of_other (by simp [hs, new]) (by simp [ready, hs, new])
  | webSocket s =>
    have hready : ready t = (Link.ready s (t.around (Link.new s))).wrap (.webSocket s) := by
      simp [ready, hs, new]
    rw [hready]
    exact .of_more (by simp) hs rfl (Link.out_ready s (t.around (Link.new s)) rfl)
      (h.modest hs (Link.asks_ready s _)) (by simp)

theorem orderly_read (h : Unasked t) (src : Bytes) :
    Orderly socket ⟨.read src, t, (read t src).1⟩ := by
  cases hs : t.session with
  | http s m => exact .of_other (by simp [hs]) (by simp [read, hs])
  | mqtt s m => exact .of_other (by simp [hs]) (by simp [read, hs])
  | webSocket s l =>
    have hread : (read t src).1 = (Link.read s (t.around l) src).1.wrap (.webSocket s) := by
      simp [read, hs]
    rw [hread]
    exact .of_more (by simp) hs rfl (Link.out_read s (t.around l) src)
      (Link.modest_read s src (h.modest hs rfl)) fun _ _ _ hclose =>
        Link.unsent_of_close s (t.around l) src (h.modest hs rfl) h.unclosed hclose

theorem orderly_wakeup (h : Unasked t) (items : List Item) :
    Orderly socket ⟨.wakeup items, t, wakeup t items⟩ := by
  cases hs : t.session with
  | http s m => exact .of_other (by simp [hs]) (by simp [wakeup, hs])
  | mqtt s m => exact .of_other (by simp [hs]) (by simp [wakeup, hs])
  | webSocket s l =>
    have hwakeup : wakeup t items = (Link.wakeup (t.around l) items).wrap (.webSocket s) := by
      simp [wakeup, hs]
    rw [hwakeup]
    exact .of_more (by simp) hs rfl (Link.out_wakeup (t.around l) items)
      (h.modest hs (Link.asks_wakeup (t.around l) items)) (by simp)

theorem orderly_stop (h : Unasked t) : Orderly socket ⟨.stop, t, stop t⟩ := by
  cases hs : t.session with
  | http s m => exact .of_other (by simp [hs]) (by simp [stop, hs])
  | mqtt s m => exact .of_other (by simp [hs]) (by simp [stop, hs])
  | webSocket s l =>
    have hstop : stop t = (Link.stop (t.around l)).wrap (.webSocket s) := by simp [stop, hs]
    rw [hstop]
    exact .of_more (by simp) hs rfl (Link.out_stop (t.around l))
      (h.modest hs (Link.asks_stop (t.around l))) (by simp)

/-- Sending the last of the output only lets go of the socket. -/
theorem send_eq (t : Turn α) (socket : Net.Sender τ) (io : τ) :
    ∃ tx, (send t socket io).1 =
      { (write t socket io).1 with ctx := { (write t socket io).1.ctx with tx } } := by
  unfold send
  rcases write t socket io with ⟨u, io', e | ⟨⟨⟩ | ⟨⟩⟩⟩
  · exact ⟨u.ctx.tx, rfl⟩
  · exact ⟨false, rfl⟩
  · exact ⟨u.ctx.tx, rfl⟩

theorem orderly_send (hsocket : socket.Honest) (h : Unasked t) (io : τ) :
    Orderly socket ⟨.write io, t, (send t socket io).1⟩ := by
  obtain ⟨tx, hsend⟩ := send_eq t socket io
  rw [hsend]
  cases hs : t.session with
  | http s m => exact .of_other (by simp [hs]) (by simp [write, hs])
  | mqtt s m => exact .of_other (by simp [hs]) (by simp [write, hs])
  | webSocket s l =>
    have hwrite : (write t socket io).1 =
        (Link.write (t.around l) socket io).1.wrap (.webSocket s) := by
      simp [write, hs]
    refine ⟨?_, by simp [hwrite], ?_, fun k hc => ?_⟩
    · have hflow := Link.taken_append_out hsocket (t.around l) io
      simp only [queuedBy, sentBy, hs, hwrite, List.append_nil]
      exact hflow.symm
    · intro l' _
      rw [hwrite]
      exact h.modest hs (Link.asks_write (t.around l) socket io)
    · obtain ⟨src, hread⟩ := hc.read
      cases hread

end WireServer.Binding
