import WireServer.Connection.Binding
import WireServer.Connection.Machine

/-! Connections whose protocols are obliging: every read uses up all of the input, and no session
refuses to come or to go. The protocols that are served here all are. -/

namespace WireServer.Connection

variable {τ σ α π : Type}

/-- No call leaves input over, and only calls on a session that stays can fail. -/
structure Protocol.Obliging (p : Protocol τ σ α π) : Prop where
  bind : ∀ successor t, ∃ s, (p.bind successor t).2 = .ok s
  read : ∀ t src used, (p.read t src).2 = .ok used → used = src.length
  cleanup : ∀ t, (p.cleanup t).2 = .ok ()

section Feed

variable {h : Host τ σ α π} {c : Connection τ σ α π} {data : Bytes}
variable (next : Connection τ σ α π → Connection τ σ α π)

/-- Without input, or once the connection is not open any more, nothing is read. -/
theorem feed_of_done (hdone : data.isEmpty ∨ c.phase ≠ .open) : feed h data next c = c := by
  unfold feed feedUpTo
  rw [if_pos hdone]

/-- One call is enough where it uses up all of the input. -/
theorem feed_eq_callback (hread : ∀ t used, (h.protocol.read t data).2 = .ok used →
      used = data.length) (hdata : data ≠ []) (hopen : c.phase = .open) :
    feed h data next c =
      callback h (fun t => Prod.map id (Except.map fun _ => ()) (h.protocol.read t data)) next c := by
  have hnothing (n : Nat) (d : Connection τ σ α π) : feedUpTo h next n [] d = d := by
    cases n with
    | zero => rfl
    | succ n => simp [feedUpTo]
  unfold feed feedUpTo callback
  rw [if_neg (by simp [hdata, hopen])]
  cases c.session with
  | none => rfl
  | some s =>
    have hused := hread ⟨c.ctx, s, c.desk⟩
    dsimp only
    generalize h.protocol.read ⟨c.ctx, s, c.desk⟩ data = r at hused
    obtain ⟨t, e | used⟩ := r
    · rfl
    · obtain rfl := hused used rfl
      have hpos : data.length ≠ 0 := by simpa using hdata
      simp only [hpos, false_and, if_false, List.drop_length, hnothing]
      rfl

end Feed

theorem dismiss_eq_release (h : Host τ σ α π) (hclean : ∀ t, (h.protocol.cleanup t).2 = .ok ())
    (c : Connection τ σ α π) : c.dismiss h = (c.release h, .ok ()) := by
  unfold release dismiss
  cases c.session with
  | none => rfl
  | some s => exact Prod.ext rfl (hclean _)

end WireServer.Connection

namespace WireServer.Binding

variable {τ α : Type}

theorem obliging_protocol (socket : Net.Sender τ) :
    (Binding.protocol (α := α) socket).Obliging where
  bind _ _ := ⟨_, rfl⟩
  read t src used h := by
    simp only [protocol, Prod.map] at h
    generalize (read t src).2 = result at h
    cases result with
    | error e => cases h
    | ok => exact (Except.ok.inj h).symm
  cleanup _ := rfl

/-- The first session comes at once. -/
theorem launch_eq_start {h : Connection.Host τ (Binding α) α (Successor α)}
    (hh : h.protocol = Binding.protocol h.socket.toSender) (ctx : Context (Successor α))
    (service : Service α) (app : α) (io : τ) (now : Nat) :
    Connection.launch h ctx service.toSuccessor app io now =
      Connection.start h ctx (.new service) app io now := by
  unfold Connection.launch Connection.install Connection.start
  rw [show h.protocol.bind = (Binding.protocol h.socket.toSender).bind from congrArg _ hh]
  simp [protocol]

end WireServer.Binding
