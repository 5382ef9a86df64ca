import WireServer.Proofs.Connection.Unsent

/-! What goes over the socket of a connection. An observed connection runs on the same socket with
a record of all the bytes that it received and sent. Nothing else changes. -/

namespace WireServer

namespace Net

variable {σ : Type}

/-- All bytes that went over a socket, in either direction. -/
structure Traffic where
  received : Bytes := []
  sent : Bytes := []

/-- The same socket with its traffic. -/
def Socket.recorded (s : Socket σ) : Socket (σ × Traffic) where
  send io slices :=
    match s.send io.1 slices with
    | (i, .accepted n) =>
      ((i, { io.2 with sent := io.2.sent ++ slices.flatten.take n }), .accepted n)
    | (i, .failed fault) => ((i, io.2), .failed fault)
  recv io room :=
    match s.recv io.1 room with
    | (i, .data bytes) => ((i, { io.2 with received := io.2.received ++ bytes }), .data bytes)
    | (i, .failed fault) => ((i, io.2), .failed fault)
  shutdownWrite io := (s.shutdownWrite io.1).map (·, io.2)
  readable io := s.readable io.1
  writable io := s.writable io.1
  backlog io := s.backlog io.1

section Recorded

variable (s : Socket σ)

theorem Socket.send_recorded (io : σ × Traffic) (slices : List Bytes) :
    Prod.map Prod.fst id (s.recorded.send io slices) = s.send io.1 slices := by
  simp only [recorded]
  rcases s.send io.1 slices with ⟨i, n | fault⟩ <;> rfl

theorem Socket.recv_recorded (io : σ × Traffic) (room : Nat) :
    Prod.map Prod.fst id (s.recorded.recv io room) = s.recv io.1 room := by
  simp only [recorded]
  rcases s.recv io.1 room with ⟨i, bytes | fault⟩ <;> rfl

variable {s}

theorem Socket.honest_recorded (hs : s.toSender.Honest) : s.recorded.toSender.Honest := by
  intro io slices n hn
  have hplain := congrArg Prod.snd (s.send_recorded io slices)
  exact hs io.1 slices n (hplain.symm.trans hn)

theorem Socket.logs_recorded (hs : s.toSender.Honest) :
    s.recorded.toSender.Logs fun io => io.2.sent := by
  intro io slices
  have hhonest := hs io.1 slices
  simp only [recorded]
  rcases hsend : s.send io.1 slices with ⟨i, n | fault⟩
  · exact ⟨hhonest n (by rw [hsend]), rfl⟩
  · rfl

theorem Socket.received_send (io : σ × Traffic) (slices : List Bytes) :
    (s.recorded.send io slices).1.2.received = io.2.received := by
  simp only [recorded]
  rcases s.send io.1 slices with ⟨i, n | fault⟩ <;> rfl

theorem Socket.traffic_recv (io : σ × Traffic) (room : Nat) :
    match s.recorded.recv io room with
    | (io', .data bytes) => io'.2 = { io.2 with received := io.2.received ++ bytes }
    | (io', .failed _) => io'.2 = io.2 := by
  simp only [recorded]
  rcases s.recv io.1 room with ⟨i, bytes | fault⟩ <;> rfl

theorem Socket.traffic_shutdownWrite (io : σ × Traffic) :
    ∀ io' ∈ s.recorded.shutdownWrite io, io'.2 = io.2 := by
  intro io' hio'
  obtain ⟨i, -, rfl⟩ := Option.map_eq_some_iff.1 hio'
  rfl

end Recorded

end Net

namespace Binding

variable {τ α : Type}

/-- Recording does not change what a session sends. -/
theorem send_recorded (t : Turn α) (socket : Net.Socket τ) (io : τ × Net.Traffic) :
    Prod.map id (Prod.map Prod.fst id) (send t socket.recorded.toSender io) =
      send t socket.toSender io.1 := by
  have hchain := Net.sendChain_map Prod.fst socket.send_recorded io
  have hwrite : Prod.map id (Prod.map Prod.fst id) (write t socket.recorded.toSender io) =
      write t socket.toSender io.1 := by
    cases hs : t.session with
    | http s m =>
      simp only [write, hs, Http.Session.write, ← hchain]
      rcases Net.sendChain _ io _ _ with ⟨io', out, fault | ⟨⟨⟩ | ⟨⟩⟩⟩ <;> rfl
    | webSocket s l =>
      simp only [write, hs, WebSocket.Link.write, ← hchain]
      rcases Net.sendChain _ io _ _ with ⟨io', out, fault | ⟨⟨⟩ | ⟨⟩⟩⟩ <;> rfl
    | mqtt s m =>
      simp only [write, hs, Mqtt.Session.write, ← hchain]
      rcases Net.sendChain _ io _ _ with ⟨io', out, fault | ⟨⟨⟩ | ⟨⟩⟩⟩ <;> rfl
  unfold send
  rw [← hwrite]
  rcases write t socket.recorded.toSender io with ⟨u, io', e | ⟨⟨⟩ | ⟨⟩⟩⟩ <;> rfl

/-- A session sends by sending a chain. -/
theorem exists_sendChain (t : Turn α) (socket : Net.Sender τ) (io : τ) :
    ∃ c, (send t socket io).2.1 = (Net.sendChain socket io c t.ctx.maxIovec).1 := by
  have hwrite : ∃ c, (write t socket io).2.1 = (Net.sendChain socket io c t.ctx.maxIovec).1 := by
    cases hs : t.session with
    | http s m =>
      refine ⟨m.flushReady.out, ?_⟩
      simp only [write, hs, Http.Session.write, WireServer.Turn.modify, WireServer.Turn.around]
      rcases Net.sendChain socket io m.flushReady.out t.ctx.maxIovec with
        ⟨io', out, fault | ⟨⟨⟩ | ⟨⟩⟩⟩ <;> rfl
    | webSocket s l =>
      refine ⟨l.session.out, ?_⟩
      simp only [write, hs]
      exact (WebSocket.Link.write_eq (t.around l) socket io).2
    | mqtt s m =>
      refine ⟨m.out, ?_⟩
      simp only [write, hs, Mqtt.Session.write, WireServer.Turn.modify, WireServer.Turn.around]
      rcases Net.sendChain socket io m.out t.ctx.maxIovec with
        ⟨io', out, fault | ⟨⟨⟩ | ⟨⟩⟩⟩ <;> rfl
  obtain ⟨c, hc⟩ := hwrite
  refine ⟨c, ?_⟩
  rw [← hc]
  unfold send
  rcases write t socket io with ⟨u, io', e | ⟨⟨⟩ | ⟨⟩⟩⟩ <;> rfl

end Binding

namespace Connection

open Net

/-! ### What the socket goes through -/

/-- A relation between states of the socket that all operations of the host keep to. -/
structure Host.Respects {τ σ α π : Type} (h : Host τ σ α π) (R : τ → τ → Prop) : Prop where
  refl : ∀ io, R io io
  trans : ∀ {a b c}, R a b → R b c → R a c
  recv : ∀ io room, R io (h.socket.recv io room).1
  shutdownWrite : ∀ io, ∀ io' ∈ h.socket.shutdownWrite io, R io io'
  write : ∀ t io, R io (h.protocol.write t io).2.1

section Respects

variable {τ σ α π : Type} {h : Host τ σ α π} {R : τ → τ → Prop}

@[simp] theorem io_release (h : Host τ σ α π) (c : Connection τ σ α π) :
    (c.release h).io = c.io := by
  unfold release dismiss
  split <;> rfl

@[simp] theorem io_close (h : Host τ σ α π) (c : Connection τ σ α π) : (c.close h).io = c.io := by
  unfold close
  split
  · rfl
  · exact io_release h _

/-- Receiving again and again goes no further than receiving does. -/
theorem drain_induction (hrefl : ∀ io, R io io) (htrans : ∀ {a b c}, R a b → R b c → R a c)
    (hrecv : ∀ io room, R io (h.socket.recv io room).1) (n : Nat) (io : τ) :
    R io (drain h n io) := by
  induction n generalizing io with
  | zero => exact hrefl io
  | succ n ih =>
    have hfirst := hrecv io h.recvBuffer
    rw [drain]
    split <;> rename_i hdata <;> rw [hdata] at hfirst
    · exact hfirst
    · exact htrans hfirst (ih _)
    · exact htrans hfirst (ih _)
    · exact hfirst

variable (hr : h.Respects R) (c : Connection τ σ α π)

include hr

theorem respects_close : R c.io (c.close h).io := by
  rw [io_close]
  exact hr.refl _

theorem respects_callback {f : Turn σ α π → Turn σ α π × Except Failure Unit}
    {next : Connection τ σ α π → Connection τ σ α π} (hnext : ∀ d, R d.io (next d).io) :
    R c.io (callback h f next c).io := by
  unfold callback
  split
  · exact hr.refl _
  split
  · exact hnext (c.put _)
  · exact respects_close hr (c.put _)

theorem respects_settle : R c.io (c.settle h).io := by
  unfold settle halfClose
  split
  · exact respects_close hr c
  dsimp only
  split
  · split
    · exact respects_close hr { c with
        ctx := { c.ctx with shutdown := false }
        desk := { c.desk with app := h.onHalfClose c.desk.app } }
    · rename_i io hio
      exact hr.shutdownWrite c.io io hio
  · exact hr.refl _

section Next

variable {next : Connection τ σ α π → Connection τ σ α π} (hnext : ∀ d, R d.io (next d).io)

include hnext

theorem respects_feed (data : Bytes) : R c.io (feed h data next c).io := by
  have hfeed (n : Nat) (data : Bytes) (d : Connection τ σ α π) :
      R d.io (feedUpTo h next n data d).io := by
    induction n generalizing data d with
    | zero => exact hr.refl _
    | succ n ih =>
      unfold feedUpTo
      split
      · exact hr.refl _
      split
      · exact hr.refl _
      split
      · exact respects_close hr (d.put _)
      · dsimp only
        split
        · exact hnext (d.put _)
        · exact hr.trans (hnext (d.put _)) (ih _ _)
  exact hfeed _ data c

theorem respects_install (successor : π) : R c.io (c.install h next successor).io := by
  unfold install
  split
  · rename_i t s _
    exact respects_callback hr { c with ctx := t.ctx, session := some s, desk := t.desk } hnext
  · rename_i t _ _
    exact respects_close hr { c with ctx := t.ctx, desk := t.desk }

theorem respects_switch (successor : π) : R c.io (c.switch h next successor).io := by
  have hdismiss (d : Connection τ σ α π) : (d.dismiss h).1.io = d.io := io_release h d
  unfold switch
  split
  · exact hr.refl _
  split
  rename_i t leftover _
  have hgone := hdismiss (c.put t)
  split <;> rename_i hd <;> rw [hd] at hgone
  · refine hr.trans (hgone ▸ respects_install hr _ hnext successor) ?_
    unfold resume
    split
    · exact hr.refl _
    · exact respects_feed hr _ hnext _
  · exact hgone ▸ respects_close hr _

end Next

theorem respects_apply : R c.io (c.apply h).io := by
  have hupTo (n : Nat) (d : Connection τ σ α π) : R d.io (d.applyUpTo h n).io := by
    induction n generalizing d with
    | zero => exact respects_settle hr d
    | succ n ih =>
      unfold applyUpTo
      split
      · exact respects_close hr d
      split
      · exact respects_settle hr d
      · exact hr.trans
          (respects_switch hr { d with ctx := { d.ctx with transition := none } } ih _)
          (respects_settle hr _)
  exact hupTo _ c

theorem respects_onReadable : R c.io (c.onReadable h).io := by
  unfold onReadable
  split
  · rw [io_close]
    exact drain_induction hr.refl hr.trans hr.recv _ _
  have hrecv := hr.recv c.io h.recvBuffer
  split <;> rename_i hdata <;> rw [hdata] at hrecv
  · rw [io_close]
    exact hrecv
  · exact hr.trans hrecv (respects_feed hr { c with io := _ } (respects_apply hr) _)
  · split
    · exact hrecv
    · rw [io_close]
      exact hrecv

theorem respects_onWritable : R c.io (c.onWritable h).io := by
  unfold onWritable
  split
  · exact hr.refl _
  rename_i s _
  have hwrite := hr.write ⟨c.ctx, s, c.desk⟩ c.io
  split <;> rename_i hsent <;> rw [hsent] at hwrite
  · exact hr.trans hwrite (respects_apply hr ({ c with io := _ }.put _))
  · rw [io_close]
    exact hwrite

theorem respects_handle (now : Nat) (e : Event) : R c.io (c.handle h now e).io := by
  have hstop : R c.io (c.onStop h).io := by
    unfold onStop
    simp only
    split
    · exact respects_callback hr { c with ctx := { c.ctx with stopping := true } }
        (respects_apply hr)
    · exact hr.refl _
  have hwakeup : R c.io (c.onWakeup h).io := by
    unfold onWakeup
    split
    · exact hr.refl _
    · exact hr.refl _
    · rename_i o items _ _
      exact respects_callback hr (c.setOutbox o) (respects_apply hr)
  unfold handle
  split
  · exact hr.refl _
  cases e with
  | stop => exact hstop
  | wakeup => exact hwakeup
  | readable broken =>
    cases broken with
    | none => exact respects_onReadable hr { c with lastActive := now }
    | some fault => exact respects_close hr c
  | writable broken =>
    cases broken with
    | none => exact respects_onWritable hr { c with lastActive := now }
    | some fault => exact respects_close hr c
  | idle => exact respects_close hr c

end Respects

/-! ### The observed connection -/

variable {τ α : Type}

/-- The same host on a socket that is recorded. -/
def Host.observed (h : Host τ (Binding α) α (Successor α)) :
    Host (τ × Traffic) (Binding α) α (Successor α) where
  socket := h.socket.recorded
  protocol := Binding.protocol h.socket.recorded.toSender
  idleTimeout := h.idleTimeout
  recvBuffer := h.recvBuffer
  onOpen := h.onOpen
  onClose := h.onClose
  onHalfClose := h.onHalfClose
  further := h.further

/-- The connection without the record. -/
def unobserved {σ π : Type} (c : Connection (τ × Traffic) σ α π) : Connection τ σ α π :=
  c.map Prod.fst id

variable {h : Host τ (Binding α) α (Successor α)}

theorem Serves.observed (hh : Serves h) : Serves h.observed :=
  ⟨rfl, Socket.honest_recorded hh.honest⟩

theorem projects_observed (hh : Serves h) : h.observed.Projects h Prod.fst id where
  protocol := by
    rw [hh.protocol]
    refine ⟨fun _ _ => rfl, fun _ => rfl, fun _ _ => rfl, fun t io => ?_, fun _ _ => rfl,
      fun _ => rfl, fun _ => rfl, fun _ => rfl⟩
    exact Binding.send_recorded t h.socket io
  recv io room := h.socket.recv_recorded io room
  shutdownWrite io := by
    simp only [Host.observed, Socket.recorded]
    rcases h.socket.shutdownWrite io.1 with _ | i <;> rfl
  backlog _ := rfl
  recvBuffer := rfl
  onOpen _ _ := rfl
  onClose _ _ := rfl
  onHalfClose _ := rfl
  further := rfl

/-- Sending receives nothing. -/
theorem received_send (h : Host τ (Binding α) α (Successor α)) (t : Binding.Turn α)
    (io : τ × Traffic) :
    (Binding.send t h.observed.socket.toSender io).2.1.2.received = io.2.received := by
  obtain ⟨c, hc⟩ := Binding.exists_sendChain t h.observed.socket.toSender io
  rw [hc]
  exact sendChain_frame (fun io => io.2.received) h.socket.received_send io c t.ctx.maxIovec

/-- What was received stays received. -/
theorem respects_received (h : Host τ (Binding α) α (Successor α)) :
    h.observed.traced.Respects fun io io' => io.2.received <+: io'.2.received where
  refl _ := List.prefix_rfl
  trans := List.IsPrefix.trans
  recv io room := by
    have htraffic := Socket.traffic_recv (s := h.socket) io room
    change _ <+: (h.socket.recorded.recv io room).1.2.received
    split at htraffic <;> rename_i hdata <;> rw [hdata]
    · exact htraffic ▸ List.prefix_append _ _
    · exact htraffic ▸ List.prefix_rfl
  shutdownWrite io io' hio' :=
    Socket.traffic_shutdownWrite (s := h.socket) io io' hio' ▸ List.prefix_rfl
  write t io := by
    have hsame := received_send h t.bare io
    exact hsame ▸ List.prefix_rfl

theorem traffic_recv (h : Host τ (Binding α) α (Successor α)) (io : τ × Traffic) :
    match h.observed.traced.socket.recv io h.observed.traced.recvBuffer with
    | (io', .data bytes) => io'.2 = { io.2 with received := io.2.received ++ bytes }
    | (io', .failed _) => io'.2 = io.2 :=
  Socket.traffic_recv io h.recvBuffer

/-- Throwing input away adds to what was received, and to nothing else. -/
theorem traffic_drain (h : Host τ (Binding α) α (Successor α)) (n : Nat) (io : τ × Traffic) :
    ∃ more, (drain h.observed.traced n io).2 =
      { io.2 with received := io.2.received ++ more } := by
  refine drain_induction (h := h.observed.traced)
    (R := fun io io' => ∃ more, io'.2 = { io.2 with received := io.2.received ++ more })
    (fun io => ⟨[], by simp⟩) ?_ (fun io room => ?_) n io
  · rintro a b c ⟨more, hb⟩ ⟨more', hc⟩
    exact ⟨more ++ more', by rw [hc, hb, List.append_assoc]⟩
  · have htraffic := Socket.traffic_recv (s := h.socket) io room
    change ∃ more, (h.socket.recorded.recv io room).1.2 = _
    split at htraffic <;> rename_i hdata <;> rw [hdata]
    · exact ⟨_, htraffic⟩
    · exact ⟨[], by rw [htraffic, List.append_nil]⟩

/-- Nobody else can reach the record. -/
def Happening.beside {ρ : Type} (r : ρ) : Happening τ α → Happening (τ × ρ) α
  | .event now e => .event now e
  | .outside io desk => .outside (io, r) desk

def followObserved (h : Host τ (Binding α) α (Successor α)) (c : Traced (τ × Traffic) α)
    (x : Happening τ α) : Traced (τ × Traffic) α :=
  c.followTraced h.observed (x.beside c.io.2)

def followAllObserved (h : Host τ (Binding α) α (Successor α)) (c : Traced (τ × Traffic) α)
    (xs : List (Happening τ α)) : Traced (τ × Traffic) α :=
  xs.foldl (followObserved h) c

theorem received_followObserved (h : Host τ (Binding α) α (Successor α))
    (c : Traced (τ × Traffic) α) (x : Happening τ α) :
    c.io.2.received <+: (c.followObserved h x).io.2.received := by
  cases x with
  | event now e => exact respects_handle (respects_received h) c now e
  | outside io desk => exact List.prefix_rfl

theorem received_followAllObserved (h : Host τ (Binding α) α (Successor α))
    (c : Traced (τ × Traffic) α) (xs : List (Happening τ α)) :
    c.io.2.received <+: (c.followAllObserved h xs).io.2.received := by
  induction xs generalizing c with
  | nil => exact List.prefix_rfl
  | cons x xs ih => exact (received_followObserved h c x).trans (ih _)

theorem unobserved_followObserved (hh : Serves h) (c : Traced (τ × Traffic) α)
    (x : Happening τ α) :
    (c.followObserved h x).bare.unobserved = c.bare.unobserved.follow h x := by
  rw [followObserved, bare_followTraced]
  cases x with
  | event now e => exact map_handle (projects_observed hh) c.bare now e
  | outside io desk => rfl

/-- The record is one of the connection. -/
theorem unobserved_followAllObserved (hh : Serves h) (c : Traced (τ × Traffic) α)
    (xs : List (Happening τ α)) :
    (c.followAllObserved h xs).bare.unobserved = c.bare.unobserved.followAll h xs := by
  induction xs generalizing c with
  | nil => rfl
  | cons x xs ih =>
    rw [followAllObserved, followAll, List.foldl_cons, List.foldl_cons,
      ← unobserved_followObserved hh]
    exact ih _

theorem unobserved_start (hh : Serves h) (ctx : Context (Successor α)) (s : Binding α) (app : α)
    (io : τ) (now : Nat) :
    (start h.observed.traced ctx s (app, []) (io, {}) now).bare.unobserved =
      start h ctx s app io now := by
  rw [bare_start]
  exact map_start (projects_observed hh) ctx s app (io, {}) now

end Connection

end WireServer
