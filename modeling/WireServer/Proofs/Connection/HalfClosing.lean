import WireServer.Proofs.Connection.Keeping
import WireServer.Proofs.Connection.Tidiness

/-! How a connection stops sending. Whatever waits to be sent also waits for the socket, and the
sending side is shut only when nothing waits any more: then everything is out, and all that still
happens is that the session looks at the outbox, and goes away. -/

namespace WireServer.Connection

open Binding (Tidy Stays)

variable {τ α : Type}

/-- A chronicled connection of bound sessions. -/
abbrev Bound (τ α : Type) := Chronicled τ (Binding α) α (Successor α)

/-- Neither is anything sent nor read. -/
def Moment.Silent {σ π : Type} : Moment τ σ α π → Prop
  | .called ⟨.wakeup _, _, _⟩ | .called ⟨.cleanup, _, _⟩ | .over => True
  | _ => False

/-- The sending side is shut only once everything is out. Behind that nothing is sent or read. -/
def Emptied (H : History τ (Binding α) α (Successor α)) : Prop :=
  ∀ front back, H = front ++ .halfClosing :: back →
    (∃ b, History.session? front = some b ∧ b.Drained) ∧ ∀ m ∈ back, m.Silent

section Emptied

variable {H : History τ (Binding α) α (Successor α)} {m : Moment τ (Binding α) α (Successor α)}

theorem emptied_of_open (h : .halfClosing ∉ H) : Emptied H := by
  rintro front back rfl
  simp at h

theorem Emptied.halfClosing {b : Binding α} (hopen : .halfClosing ∉ H) (hb : H.session? = some b)
    (hdrained : b.Drained) : Emptied (H ++ [.halfClosing]) := by
  intro front back hsplit
  rcases List.eq_nil_or_concat back with rfl | ⟨back, m, rfl⟩
  · obtain ⟨rfl, -⟩ := List.append_inj' hsplit rfl
    exact ⟨⟨b, hb, hdrained⟩, by simp⟩
  · have hsplit : H ++ [.halfClosing] = (front ++ .halfClosing :: back) ++ [m] := by
      simpa using hsplit
    obtain ⟨rfl, -⟩ := List.append_inj' hsplit rfl
    simp at hopen

theorem Emptied.concat (h : Emptied H) (hm : .halfClosing ≠ m)
    (hsilent : .halfClosing ∈ H → m.Silent) : Emptied (H ++ [m]) := by
  intro front back hsplit
  rcases List.eq_nil_or_concat back with rfl | ⟨back, m', rfl⟩
  · obtain ⟨-, hm'⟩ := List.append_inj' hsplit rfl
    exact absurd (List.cons.inj hm').1.symm hm
  · have hsplit : H ++ [m] = (front ++ .halfClosing :: back) ++ [m'] := by simpa using hsplit
    obtain ⟨rfl, hm'⟩ := List.append_inj' hsplit rfl
    cases hm'
    refine ⟨(h _ _ rfl).1, fun k hk => ?_⟩
    rw [List.concat_eq_append, List.mem_append, List.mem_singleton] at hk
    rcases hk with hk | rfl
    · exact (h _ _ rfl).2 k hk
    · exact hsilent (by simp)

end Emptied

/-- What is known of a connection, whatever its session is up to. -/
structure Tracked (c : Bound τ α) : Prop where
  session : c.history.session? = c.session
  gone : c.session = none → c.phase = .closed
  live : ∀ b, c.session = some b → c.phase = .open ∨ c.phase = .halfClosed
  sends : c.phase = .open → .halfClosing ∉ c.history
  emptied : Emptied c.history

/-- What holds behind a callback. -/
structure Asked (c : Bound τ α) : Prop extends Tracked c where
  tidy : ∀ b, c.session = some b → Tidy ⟨c.ctx, b, c.bare.desk⟩
  shut : c.phase = .halfClosed → ∀ b, c.session = some b → b.Done ∧ c.ctx.transition = none

/-- What holds behind a callback that does not make another protocol take over. -/
structure Steady (c : Bound τ α) : Prop extends Asked c where
  stays : ∀ b, c.session = some b → c.ctx.transition = none

/-- What holds between two events. -/
structure Resting (c : Bound τ α) : Prop extends Asked c where
  calm : ∀ b, c.session = some b → c.ctx.Calm

/-- What holds between two sessions. -/
structure Vacant (c : Bound τ α) : Prop where
  session : c.history.session? = none
  phase : c.phase = .open
  calm : c.ctx.Calm
  sends : .halfClosing ∉ c.history

section Rest

variable {c d : Bound τ α} {b : Binding α}

theorem Tracked.alone (h : Tracked c) (hs : c.session = none) : Resting c where
  toTracked := h
  tidy _ hb := by simp [hs] at hb
  shut _ _ hb := by simp [hs] at hb
  calm _ hb := by simp [hs] at hb

/-- The session goes away, and the connection is at its end. -/
theorem resting_close {h : Host τ (Binding α) α (Successor α)} (hb : c.session = some b)
    (hlive : c.phase = .open ∨ c.phase = .halfClosed) (hc : Emptied c.history) :
    Resting (c.close h.chronicled) := by
  have hemptied (t u : Binding.Turn α) :
      Emptied (c.history ++ [.called ⟨.cleanup, t, u⟩] ++ [.over]) := by
    have hcleanup : Emptied (c.history ++ [.called ⟨.cleanup, t, u⟩]) :=
      hc.concat (by simp) fun _ => trivial
    exact hcleanup.concat (by simp) fun _ => trivial
  rw [close_of_some hlive hb]
  refine Tracked.alone ⟨?_, fun _ => rfl, fun _ hb => ?_, fun hopen => ?_, ?_⟩ rfl
  · simp [history, Moment.leave]
  · cases hb
  · cases hopen
  · exact hemptied _ _

theorem Tracked.close {h : Host τ (Binding α) α (Successor α)} (hc : Tracked c) :
    Resting (c.close h.chronicled) := by
  rcases hs : c.session with _ | b
  · rw [close_of_closed (hc.gone hs)]
    exact hc.alone hs
  · exact resting_close hs (hc.live b hs) hc.emptied

theorem Resting.steady (h : Resting c) : Steady c := { h with stays := fun b hb => (h.calm b hb).2 }

/-- Requests are taken back, and others change what is theirs. -/
theorem Asked.rest (h : Asked c) (hphase : d.phase = c.phase) (hsession : d.session = c.session)
    (hhistory : d.history = c.history) (hcalm : ∀ b, c.session = some b → d.ctx.Calm)
    (htx : ∀ b, c.session = some b → 0 < b.out.total → d.ctx.tx = true) : Resting d where
  session := by rw [hhistory, hsession, h.session]
  gone := by rw [hsession, hphase]; exact h.gone
  live := by rw [hsession, hphase]; exact h.live
  sends := by rw [hhistory, hphase]; exact h.sends
  emptied := by rw [hhistory]; exact h.emptied
  tidy b hb := by
    rw [hsession] at hb
    exact (h.tidy b hb).recast (htx b hb) (hcalm b hb).unasked (hcalm b hb).transition
  shut hshut b hb := by
    rw [hsession] at hb
    rw [hphase] at hshut
    exact ⟨(h.shut hshut b hb).1, (hcalm b hb).transition⟩
  calm b hb := hcalm b (hsession ▸ hb)

theorem Resting.idle (h : Resting c) (hd : Idles c d) : Resting d := by
  rcases hd.ctx with hctx | hctx | ⟨hnone, hctx⟩
  · refine h.toAsked.rest hd.phase hd.session hd.history ?_ fun b hb => ?_
    · rw [hctx]
      exact h.calm
    · rw [hctx]
      exact (h.tidy b hb).armed
  · refine h.toAsked.rest hd.phase hd.session hd.history (fun b hb => ?_) fun b hb => ?_
    · rw [hctx]
      exact ⟨(h.calm b hb).1, (h.calm b hb).2⟩
    · rw [hctx]
      exact (h.tidy b hb).armed
  · refine h.toAsked.rest hd.phase hd.session hd.history (fun b hb => ?_) fun b hb => ?_
    all_goals simp [hnone] at hb

/-- A call of an open connection's session. -/
theorem Tracked.after (h : Tracked c) (hopen : c.phase = .open) {r : Reason τ}
    {u : Binding.Turn α} (hr : Moment.leave c.session (.called ⟨r, ⟨c.ctx, b, c.bare.desk⟩, u⟩) =
      some u.session) : Tracked (c.after r b u) where
  session := by simp [h.session, hr]
  gone := nofun
  live _ _ := .inl hopen
  sends _ := by simp [h.sends hopen]
  emptied := emptied_of_open (by simp [h.sends hopen])

/-- Behind it, another protocol may take over. -/
theorem Tracked.asked (h : Tracked c) (hopen : c.phase = .open) {r : Reason τ} {u : Binding.Turn α}
    (hr : Moment.leave c.session (.called ⟨r, ⟨c.ctx, b, c.bare.desk⟩, u⟩) = some u.session)
    (hu : Tidy u) : Asked (c.after r b u) where
  toTracked := h.after hopen hr
  tidy b' hb := by
    cases hb
    exact hu
  shut hshut := nomatch hopen.symm.trans hshut

theorem Tracked.steady (h : Tracked c) (hopen : c.phase = .open) {r : Reason τ} {u : Binding.Turn α}
    (hr : Moment.leave c.session (.called ⟨r, ⟨c.ctx, b, c.bare.desk⟩, u⟩) = some u.session)
    (hu : Stays u) : Steady (c.after r b u) :=
  { h.asked hopen hr hu.1 with stays := fun _ _ => hu.2 }

/-- A session that is done looks at the outbox. -/
theorem Resting.wakeup (h : Resting c) (hb : c.session = some b) (items : List Item) :
    Asked (c.after (.wakeup items) b (Binding.wakeup ⟨c.ctx, b, c.bare.desk⟩ items)) := by
  have hu := (h.tidy b hb).wakeup (h.calm b hb) items
  rcases h.live b hb with hopen | hshut
  · exact h.toTracked.asked hopen rfl hu.1
  have hdone : (Binding.wakeup ⟨c.ctx, b, c.bare.desk⟩ items).session.Done :=
    (h.shut hshut b hb).1.wakeup items
  refine ⟨⟨by simp [Moment.leave], nofun, fun _ _ => .inr hshut, fun hopen => ?_, ?_⟩,
    fun _ hb' => ?_, fun _ _ hb' => ?_⟩
  · exact nomatch hopen.symm.trans hshut
  · exact h.emptied.concat (by simp) fun _ => trivial
  · cases hb'
    exact hu.1
  · cases hb'
    exact ⟨hdone, hu.2⟩

/-- A half-close comes when everything is out. -/
theorem Steady.settle {h : Host τ (Binding α) α (Successor α)} (hc : Steady c) :
    Resting (c.settle h.chronicled) := by
  refine settle_induction c (fun _ => hc.toTracked.close) (fun _ _ => ?_) fun _ hasked hopen => ?_
  · exact hc.rest rfl rfl rfl (fun b hb => ⟨rfl, hc.stays b hb⟩) fun b hb => (hc.tidy b hb).armed
  obtain ⟨b, hb⟩ : ∃ b, c.session = some b := by
    rcases hs : c.session with _ | b
    · cases hopen.symm.trans (hc.gone hs)
    · exact ⟨b, rfl⟩
  -- whoever asks for the half-close has nothing left to send
  have hdone := (hc.tidy b hb).done hasked
  have hemptied : Emptied (c.history ++ [.halfClosing]) :=
    .halfClosing (hc.sends hopen) (hc.session.trans hb) hdone.drained
  refine ⟨resting_close hb (.inl hopen) hemptied, fun io => ?_⟩
  refine ⟨⟨⟨?_, fun hnone => ?_, fun _ _ => .inr rfl, nofun, hemptied⟩, fun b' hb' => ?_,
    fun _ b' hb' => ?_⟩, fun _ _ => ⟨rfl, hc.stays b hb⟩⟩
  · exact (session?_append _ _).trans (hc.session)
  · exact absurd (hb.symm.trans hnone) nofun
  · obtain rfl := Option.some.inj (hb.symm.trans hb')
    have hsent : ¬ 0 < b.out.total := by simp [hdone.drained.sent]
    exact (hc.tidy b hb).recast (fun hwaits => absurd hwaits hsent) nofun (hc.stays b hb)
  · obtain rfl := Option.some.inj (hb.symm.trans hb')
    exact ⟨hdone, hc.stays b hb⟩

end Rest

section Keeps

variable {h : Host τ (Binding α) α (Successor α)}
  (hh : h.protocol = Binding.protocol h.socket.toSender)

include hh

theorem keeps : Keeps h (fun _ _ => True) Resting Steady Asked Vacant where
  idle := Resting.idle
  others io _ hc _ := hc.toAsked.rest rfl rfl rfl hc.calm fun b hb => (hc.tidy b hb).armed
  steady := Resting.steady
  asked := Steady.toAsked
  stays hc hstays := { hc with stays := fun _ _ => hstays }
  close hc := hc.toTracked.close
  settle := Steady.settle
  nobody {c} hc hnone := Tracked.alone (c := { c with ctx := { c.ctx with transition := none } })
    ⟨hc.session, hc.gone, hc.live, hc.sends, hc.emptied⟩ hnone
  vacate := by
    intro c b successor hc _ hsuccessor hb t leftover htake
    have hopen : c.phase = .open := (hc.live b hb).resolve_right fun hshut => by
      simp [(hc.shut hshut b hb).2] at hsuccessor
    rw [hh] at htake ⊢
    have hctx : t.ctx = { c.ctx with transition := none } :=
      (congrArg (·.1.ctx) htake).symm.trans (Binding.ctx_takeLeftover _)
    have hshutdown : c.ctx.shutdown = false := (hc.tidy b hb).either (by simp [hsuccessor])
    have hsends : .halfClosing ∉ c.history := hc.sends hopen
    have hcalm : t.ctx.Calm := hctx ▸ ⟨hshutdown, rfl⟩
    refine ⟨by simp [Moment.leave], hopen, hcalm, fun hmem => ?_⟩
    rw [history_vacate, List.mem_append] at hmem
    exact hmem.elim hsends (by simp)
  bind := by
    intro c hc successor
    rw [hh]
    have hcalm : Context.Calm { c.ctx with rx := true } := ⟨hc.calm.1, hc.calm.2⟩
    have hfresh : Tracked (c.seat ⟨{ c.ctx with rx := true }, (), c.bare.desk⟩
        (.new successor.toService)) :=
      have hsends : .halfClosing ∉ c.history ++ [.bound (.new successor.toService)] := by
        simpa using hc.sends
      ⟨session?_append _ _, nofun, fun _ _ => .inl hc.phase, fun _ => hsends,
        emptied_of_open hsends⟩
    exact hfresh.steady hc.phase rfl ((Binding.tidy_new successor.toService hcalm).ready hcalm)
  read := by
    intro c b hc hopen hb src _
    have hread {u : Binding.Turn α}
        (hr : Binding.read ⟨c.ctx, b, c.bare.desk⟩ src = (u, .ok ())) : Stays u :=
      (hc.tidy b hb).read (hc.calm b hb) hr
    rw [hh]
    simp only [Binding.protocol]
    rcases hr : Binding.read ⟨c.ctx, b, c.bare.desk⟩ src with ⟨u, e | ⟨⟩⟩
    · exact (hc.toTracked.after hopen rfl).close
    · exact hc.toTracked.steady hopen rfl (hread hr)
  write := by
    intro c b hc hopen htx hb t io result hwrite
    rw [hh] at hwrite
    have hio : Tracked { c with io } := ⟨hc.session, hc.gone, hc.live, hc.sends, hc.emptied⟩
    rcases result with e | status
    · exact (hio.after hopen rfl).close
    · exact hio.asked hopen rfl ((hc.tidy b hb).send (hc.calm b hb) htx hwrite)
  wakeup := by
    intro c b hc hb items
    rw [hh]
    exact hc.wakeup hb items
  stop := by
    intro c b hc hopen _ hb
    rw [hh]
    exact hc.toTracked.asked hopen rfl ((hc.tidy b hb).stop (hc.calm b hb)).1

theorem resting_chronicle (maxIovec : Nat) (stopping : Bool) (first : Successor α) (app : α)
    (io : τ) (now : Nat) (xs : List (Happening τ α)) :
    Resting (chronicle h { maxIovec, stopping } first app io now xs) := by
  have hfresh : Vacant ({
      ctx := { maxIovec, stopping }, session := none
      desk := { app := (h.onOpen { maxIovec, stopping } app, [.opened]) }
      io, lastActive := now } : Bound τ α) :=
    ⟨rfl, rfl, ⟨rfl, rfl⟩, fun hmem => by simp [history] at hmem⟩
  exact (keeps hh).followAll ((keeps hh).launch hfresh first) fun _ _ _ _ _ => trivial

/-- Whenever the sending side of a connection is shut, its session has nothing left to send, and an
HTTP session no response in line. Behind that the connection neither sends nor reads. -/
theorem emptied_of_halfClosing (maxIovec : Nat) (stopping : Bool) (first : Successor α) (app : α)
    (io : τ) (now : Nat) (xs : List (Happening τ α)) :
    let c := chronicle h { maxIovec, stopping } first app io now xs
    c.bare = (launch h { maxIovec, stopping } first app io now).followAll h xs ∧
      c.history.session? = c.session ∧
      ∀ front back, c.history = front ++ .halfClosing :: back →
        (∃ b, History.session? front = some b ∧ b.Drained) ∧ ∀ m ∈ back, m.Silent := by
  have hresting := resting_chronicle hh maxIovec stopping first app io now xs
  exact ⟨bare_chronicle h _ first app io now xs, hresting.session, hresting.emptied⟩

end Keeps

/-! A peer that takes ten bytes of an answer at first, and the rest later. -/

namespace SlowPeer

def nodding : Successor Unit :=
  .http (fun _ _ => .send (.empty 200) fun _ => .done () .ok) Http.defaultMaxBody []

def host : Host Net.MemorySocket (Binding Unit) Unit (Successor Unit) where
  socket := Net.MemorySocket.socket
  protocol := Binding.protocol Net.MemorySocket.socket.toSender
  idleTimeout := 5000000000
  recvBuffer := 4096

/-- A request on a connection that ends behind the answer. -/
def input : Bytes := Bytes.ofString "GET / HTTP/1.0\r\n\r\n"

/-- The request comes in, and the answer starts to go out. -/
def early : List (Happening Net.MemorySocket Unit) :=
  [.event 0 (.readable none), .event 1 (.writable none)]

/-- The peer takes the rest, and has nothing more to say. -/
def late : List (Happening Net.MemorySocket Unit) :=
  [.outside {} { app := () }, .event 2 (.writable none), .event 3 (.readable none)]

def run : Bound Net.MemorySocket Unit :=
  chronicle host {} nodding () { input, window := some 10 } 0 (early ++ late)

def isHalfClosing : Moment Net.MemorySocket (Binding Unit) Unit (Successor Unit) → Bool
  | .halfClosing => true
  | _ => false

/-- The connection half-closes behind the answer. -/
theorem emptied_of_halfClosing_slow : ∃ front back, run.history = front ++ .halfClosing :: back ∧
    (∃ b, History.session? front = some b ∧ b.Drained) ∧ ∀ m ∈ back, m.Silent := by
  have hmem : .halfClosing ∈ run.history := by
    have hany : run.history.any isHalfClosing = true := by decide +kernel
    obtain ⟨m, hm, hhalf⟩ := List.any_eq_true.1 hany
    cases m <;> first | exact hm | cases hhalf
  obtain ⟨front, back, hsplit⟩ := List.append_of_mem hmem
  have hmain := emptied_of_halfClosing (h := host) rfl 64 false nodding ()
    { input, window := some 10 } 0 (early ++ late)
  exact ⟨front, back, hsplit, hmain.2.2 front back hsplit⟩

end SlowPeer

section Keeps

variable {h : Host τ (Binding α) α (Successor α)}
  (hh : h.protocol = Binding.protocol h.socket.toSender)

include hh

/-- Between two events, unsent output of the session waits for the socket. An open connection has a
session, and a write that has sent everything leaves nothing in the chain. -/
theorem awaited_of_unsent (maxIovec : Nat) (stopping : Bool) (first : Successor α) (app : α)
    (io : τ) (now : Nat) (xs : List (Happening τ α)) :
    let c := (launch h { maxIovec, stopping } first app io now).followAll h xs
    (c.phase = .open → c.session.isSome) ∧
      (∀ b, c.session = some b → 0 < b.out.total → c.ctx.tx = true) ∧
      ∀ (t u : Binding.Turn α) (io io' : τ),
        h.protocol.write t io = (u, io', .ok .flushed) → u.session.out = {} := by
  have hresting := resting_chronicle hh maxIovec stopping first app io now xs
  rw [← bare_chronicle h { maxIovec, stopping } first app io now xs]
  generalize chronicle h _ first app io now xs = c at hresting
  refine ⟨fun hopen => ?_, fun b hb => (hresting.tidy b hb).armed, fun t u io io' hwrite => ?_⟩
  · refine Option.isSome_iff_ne_none.2 fun hnone => ?_
    cases (hresting.gone hnone).symm.trans hopen
  · rw [hh] at hwrite
    exact Binding.out_of_send hwrite

end Keeps

/-- What is left of the answer waits for the peer. -/
theorem SlowPeer.awaited_of_unsent_rest :
    let c := (launch host {} nodding () { input, window := some 10 } 0).followAll host early
    c.phase = .open ∧ (∃ b, c.session = some b ∧ 0 < b.out.total) ∧ c.ctx.tx = true := by
  intro c
  have hopen : c.phase = .open := by decide +kernel
  have hwaits : ∀ b ∈ c.session, 0 < b.out.total := by decide +kernel
  obtain ⟨hsession, htx, -⟩ := awaited_of_unsent (h := host) rfl 64 false nodding ()
    { input, window := some 10 } 0 early
  obtain ⟨b, hb⟩ := Option.isSome_iff_exists.1 (hsession hopen)
  exact ⟨hopen, ⟨b, hb, hwaits b hb⟩, htx b hb (hwaits b hb)⟩

end WireServer.Connection
