import WireServer.Proofs.Connection.Keeping

/-! The life of a connection, whatever its protocols do. Sessions live one behind the other: each is
told first that it is there, then called as often as it may be, and cleaned up once; behind that it
is not called any more. The application is told of the end once, and nothing happens behind it. -/

namespace WireServer.Connection

variable {τ σ α π : Type}

/-- The order in which a connection goes through its phases. -/
def Phase.rank : Phase → Nat
  | .open => 0
  | .halfClosed => 1
  | .closing => 2
  | .closed => 3

/-- A call that a session gets any number of times. -/
def Reason.isRegular : Reason τ → Bool
  | .read _ | .write _ | .wakeup _ | .stop => true
  | .ready | .takeLeftover | .cleanup => false

/-- What happened to a session that is still there: it came, it was told that it is there, and then
it was called. Each call finds the session as the one before left it. -/
inductive Course : History τ σ α π → σ → Prop
  | ready (k : Call τ σ α π) : k.reason = .ready →
    Course [.bound k.before.session, .called k] k.after.session
  | call {hist : History τ σ α π} (k : Call τ σ α π) : Course hist k.before.session →
    k.reason.isRegular → Course (hist ++ [.called k]) k.after.session
  | halfClosing {hist : History τ σ α π} {s : σ} : Course hist s → Course (hist ++ [.halfClosing]) s

/-- What happened to a session that is gone. One that was replaced was asked for its leftover input
last. -/
inductive Life : History τ σ α π → Prop
  | ended {hist : History τ σ α π} (k : Call τ σ α π) : Course hist k.before.session →
    k.reason = .cleanup → Life (hist ++ [.called k])
  | replaced {hist : History τ σ α π} (j k : Call τ σ α π) : Course hist j.before.session →
    j.reason = .takeLeftover → k.reason = .cleanup → k.before = j.after →
    Life (hist ++ [.called j, .called k])

/-- The application was told of the connection, and sessions came and went, one behind the other. -/
inductive Lived : History τ σ α π → Prop
  | opened : Lived [.opened]
  | life {hist life : History τ σ α π} : Lived hist → Life life → Lived (hist ++ life)

/-- The history of a connection that is in this phase and has this session. -/
inductive Annals : Phase → Option σ → History τ σ α π → Prop
  | live {phase : Phase} {hist last : History τ σ α π} {s : σ} :
    phase = .open ∨ phase = .halfClosed → Lived hist → Course last s →
    Annals phase (some s) (hist ++ last)
  | over {hist last : History τ σ α π} : Lived hist → last = [.over] ∨ last = [.refused, .over] →
    Annals .closed none (hist ++ last)

/-- What holds between two events. A closed connection has its outbox shut, if that is `firm`:
nobody takes it back. -/
structure InLife (firm : Prop) (c : Chronicled τ σ α π) : Prop where
  annals : Annals c.phase c.session c.history
  shut : firm → c.phase = .closed → c.desk.outbox.closing = true

/-- No session is there, and the next one may come. -/
structure Between (c : Chronicled τ σ α π) : Prop where
  phase : c.phase = .open ∨ c.phase = .halfClosed
  session : c.session = none
  lived : Lived c.history

/-- What others do to the outbox does not open it again. -/
def KeepsShut (d e : Desk α) : Prop := d.outbox.closing = true → e.outbox.closing = true

section Steps

variable {h : Host τ σ α π} {firm : Prop} {c d : Chronicled τ σ α π} {s : σ}

/-- What is known of the session that is there. -/
theorem Annals.session {phase : Phase} {hist : History τ σ α π} (hc : Annals phase (some s) hist) :
    (phase = .open ∨ phase = .halfClosed) ∧
      ∃ front last, Lived front ∧ Course last s ∧ hist = front ++ last := by
  cases hc with
  | live hlive hfront hcourse => exact ⟨hlive, _, _, hfront, hcourse, rfl⟩

theorem Annals.vacant {phase : Phase} {hist : History τ σ α π}
    (hc : Annals (σ := σ) phase none hist) : phase = .closed := by
  cases hc
  rfl

/-- As long as the connection is there, nothing has to be shut. -/
theorem InLife.of_live (hlive : c.phase = .open ∨ c.phase = .halfClosed)
    (hannals : Annals c.phase c.session c.history) : InLife firm c :=
  ⟨hannals, fun _ hclosed => by simp [hclosed] at hlive⟩

/-- Behind a regular call. -/
theorem InLife.after (hc : InLife firm c) (hs : c.session = some s) {r : Reason τ}
    (hr : r.isRegular) (u : Turn σ α π) : InLife firm (c.after r s u) := by
  obtain ⟨hlive, front, last, hfront, hcourse, hhist⟩ := (hs ▸ hc.annals).session
  refine .of_live hlive ?_
  rw [history_after, hhist, List.append_assoc]
  exact .live hlive hfront (.call ⟨r, ⟨c.ctx, s, c.bare.desk⟩, u⟩ hcourse hr)

/-- Behind the first call. -/
theorem Between.ready (hc : Between c) (t : Turn Unit α π) (s : σ) (u : Turn σ α π) :
    InLife firm ((c.seat t s).after .ready s u) := by
  refine .of_live hc.phase ?_
  rw [show ((c.seat t s).after .ready s u).history =
    c.history ++ [.bound s, .called ⟨.ready, ⟨t.ctx, s, t.desk⟩, u⟩] from List.append_assoc _ _ _]
  exact .live hc.phase hc.lived (.ready ⟨.ready, ⟨t.ctx, s, t.desk⟩, u⟩ rfl)

/-- The session that is replaced goes. -/
theorem InLife.between (hc : InLife firm c) (hs : c.session = some s) (ctx : Context π)
    (t u : Turn σ α π) : Between ({ c with ctx }.vacate s t u) := by
  obtain ⟨hlive, front, last, hfront, hcourse, hhist⟩ := (hs ▸ hc.annals).session
  refine ⟨hlive, rfl, ?_⟩
  have hlife := hfront.life (.replaced ⟨.takeLeftover, ⟨ctx, s, c.bare.desk⟩, t⟩ ⟨.cleanup, t, u⟩
    hcourse rfl rfl rfl)
  rw [← List.append_assoc, ← hhist] at hlife
  exact hlife

/-- The end of a connection that has no session. -/
theorem inLife_close_of_none {hist : History τ σ α π} (hlived : Lived hist)
    (hphase : c.phase = .open ∨ c.phase = .halfClosed) (hs : c.session = none)
    (hhist : c.history = hist ∨ c.history = hist ++ [.refused]) :
    InLife firm (c.close h.chronicled) := by
  rw [close_of_none hphase hs]
  refine ⟨?_, fun _ _ => rfl⟩
  have hover : Annals (σ := σ) .closed none (c.history ++ [.over]) := by
    rcases hhist with hhist | hhist <;> rw [hhist]
    · exact .over hlived (.inl rfl)
    · rw [List.append_assoc]
      exact .over hlived (.inr rfl)
  exact hs ▸ hover

theorem Between.close (hc : Between c) : InLife firm (c.close h.chronicled) :=
  inLife_close_of_none hc.lived hc.phase hc.session (.inl rfl)

theorem Between.refuse (hc : Between c) (t : Turn Unit α π) :
    InLife firm ((c.refuse t).close h.chronicled) :=
  inLife_close_of_none (c := c.refuse t) hc.lived hc.phase hc.session (.inr rfl)

/-- Carrying out a half-close. -/
theorem InLife.noted (hc : InLife firm c) (hs : c.session = some s)
    (hlive : d.phase = .open ∨ d.phase = .halfClosed) (hsession : d.session = c.session)
    (hhist : d.history = c.history ++ [.halfClosing]) : InLife firm d := by
  obtain ⟨-, front, last, hfront, hcourse, hfront'⟩ := (hs ▸ hc.annals).session
  refine .of_live hlive ?_
  rw [hsession, hs, hhist, hfront', List.append_assoc]
  exact .live hlive hfront hcourse.halfClosing

variable (hclean : firm → ∀ t, KeepsShut t.desk (h.protocol.cleanup t).1.desk)

include hclean

/-- The end of a connection in the life of its session. -/
theorem InLife.close (hc : InLife firm c) : InLife firm (c.close h.chronicled) := by
  rcases hs : c.session with _ | s
  · rwa [close_of_closed (hs ▸ hc.annals).vacant]
  obtain ⟨hlive, front, last, hfront, hcourse, hhist⟩ := (hs ▸ hc.annals).session
  rw [close_of_some hlive hs]
  refine ⟨?_, fun hfirm _ => hclean hfirm _ rfl⟩
  have hlife (desk : Desk α) := hfront.life (.ended ⟨.cleanup, ⟨c.ctx, s, desk⟩,
    (h.protocol.cleanup ⟨c.ctx, s, desk⟩).1⟩ hcourse rfl)
  simp only [← List.append_assoc, ← hhist] at hlife
  exact .over (hlife _) (.inl rfl)

theorem InLife.settle (hc : InLife firm c) : InLife firm (c.settle h.chronicled) := by
  refine settle_induction c (fun _ => hc.close hclean) (fun _ _ => ⟨hc.annals, hc.shut⟩)
    fun _ _ hopen => ?_
  obtain ⟨s, hs⟩ : ∃ s, c.session = some s := Option.ne_none_iff_exists'.1 fun hs => by
    simp [(hs ▸ hc.annals).vacant] at hopen
  have hnoted : InLife firm (c.aboutToHalfClose h) := hc.noted hs (.inl hopen) rfl rfl
  exact ⟨hnoted.close hclean, fun io => hc.noted hs (.inr rfl) rfl rfl⟩

/-- A connection stays in life all along. -/
theorem keeps_inLife : Keeps h (fun d e => firm → KeepsShut d e) (InLife firm) (InLife firm)
    (InLife firm) Between where
  idle {c d} hc hd := ⟨by rw [hd.phase, hd.session, hd.history]; exact hc.annals,
    fun hfirm hclosed => hd.shut.trans (hc.shut hfirm (hd.phase.symm.trans hclosed))⟩
  others io desk hc hkeeps := ⟨hc.annals, fun hfirm hclosed => hkeeps hfirm (hc.shut hfirm hclosed)⟩
  steady := id
  asked := id
  stays hc _ := hc
  close hc := hc.close hclean
  settle hc := hc.settle hclean
  nobody hc _ := ⟨hc.annals, hc.shut⟩
  vacate hc _ _ hs _ _ _ :=
    .of (fun _ => hc.between hs _ _ _) (fun _ => (hc.between hs _ _ _).close) _
  bind {c} hc successor := by
    rcases h.protocol.bind successor ⟨c.ctx, (), c.bare.desk⟩ with ⟨t, e | s⟩
    · exact hc.refuse t
    · exact .of (fun _ => hc.ready t s _) (fun _ => (hc.ready t s _).close hclean) _
  read hc _ hs _ _ := .of (fun _ => hc.after hs rfl _) (fun _ => (hc.after hs rfl _).close hclean) _
  write {c s} hc _ _ hs t io result _ := by
    have hio : InLife firm { c with io } := ⟨hc.annals, hc.shut⟩
    exact .of (hio.after hs rfl) (fun u => (hio.after hs rfl u).close hclean) _
  wakeup hc hs _ := .of (fun _ => hc.after hs rfl _) (fun _ => (hc.after hs rfl _).close hclean) _
  stop hc _ _ hs := .of (fun _ => hc.after hs rfl _) (fun _ => (hc.after hs rfl _).close hclean) _

end Steps

/-! ### Phases -/

theorem Phase.rank_le_closed (p : Phase) : p.rank ≤ Phase.closed.rank := by cases p <;> decide

/-- The connection is in the `n`th phase or behind it. -/
def Reached (n : Nat) (c : Chronicled τ σ α π) : Prop := n ≤ c.phase.rank

section Phases

variable {h : Host τ σ α π} {n : Nat} {c d : Chronicled τ σ α π}

theorem Reached.of_eq (hc : Reached n c) (hphase : d.phase = c.phase) : Reached n d := by
  unfold Reached at hc ⊢
  rwa [hphase]

theorem Reached.close (hc : Reached n c) : Reached n (c.close h.chronicled) := by
  unfold Connection.close
  split
  · exact hc
  · exact Nat.le_trans hc c.phase.rank_le_closed

theorem Reached.settle (hc : Reached n c) : Reached n (c.settle h.chronicled) := by
  refine settle_induction c (fun _ => hc.close) (fun _ _ => hc.of_eq rfl) fun _ _ hopen => ?_
  have hnoted : Reached n (c.aboutToHalfClose h) := hc.of_eq rfl
  have hfirst : n ≤ Phase.open.rank := hopen ▸ hc
  exact ⟨hnoted.close, fun _ => Nat.le_trans hfirst (Nat.le_succ 0)⟩

theorem Reached.ensues (hc : Reached n c) {d : Turn σ α π → Chronicled τ σ α π}
    {β : Type} (r : Turn σ α π × Except Failure β)
    (hd : ∀ t, (d t).phase = c.phase := by exact fun _ => rfl) :
    Ensues h (Reached n) (Reached n) d r :=
  .of (fun t => hc.of_eq (hd t)) (fun t => (hc.of_eq (hd t)).close) r

/-- No step leads back. -/
theorem keeps_reached : Keeps h (fun _ _ => True) (Reached n) (Reached n) (Reached n)
    (Reached n) where
  idle hc hd := hc.of_eq hd.phase
  others _ _ hc _ := hc.of_eq rfl
  steady := id
  asked := id
  stays hc _ := hc
  close := Reached.close
  settle := Reached.settle
  nobody hc _ := hc.of_eq rfl
  vacate hc _ _ _ _ _ _ := hc.ensues _
  bind {c} hc successor := by
    rcases h.protocol.bind successor ⟨c.ctx, (), c.bare.desk⟩ with ⟨t, e | s⟩
    · exact (hc.of_eq (d := c.refuse t) rfl).close
    · exact hc.ensues _
  read hc _ _ _ _ := hc.ensues _
  write hc _ _ _ _ _ _ _ := hc.ensues _
  wakeup hc _ _ := hc.ensues _
  stop hc _ _ _ := hc.ensues _

theorem rank_le_follow (x : Happening τ α) :
    c.phase.rank ≤ (c.followChronicled h x).phase.rank := by
  have hreached : Reached c.phase.rank (c.followAllChronicled h [x]) :=
    keeps_reached.followAll (Nat.le_refl c.phase.rank) fun _ _ _ _ _ => trivial
  exact hreached

end Phases

/-! ### Runs -/

/-- A connection only moves forward through its phases, whatever its protocols, its peer and its
application do. Its sessions live one behind the other: each is told first that it is there, then
called, and cleaned up once, when it is replaced or when the connection ends, and is not called
behind that. The application is told once of the end of a connection that is closed; unless somebody
takes it back, what is posted then is refused. -/
theorem connection_lifecycle (h : Host τ σ α π) (ctx : Context π) (first : π) (app : α) (io : τ)
    (now : Nat) (xs : List (Happening τ α)) :
    let c := chronicle h ctx first app io now xs
    c.bare = (launch h ctx first app io now).followAll h xs ∧
      (∀ x, c.phase.rank ≤ (c.followChronicled h x).phase.rank) ∧
      Annals c.phase c.session c.history ∧
      ((∀ t, KeepsShut t.desk (h.protocol.cleanup t).1.desk) →
        Meddle h KeepsShut (launch h ctx first app io now) xs → c.phase = .closed →
        ∀ item, (c.desk.outbox.post item).2 = .error .gone) := by
  intro c
  have hfresh : Between ({
      ctx, session := none, desk := { app := (h.onOpen ctx app, [.opened]) }, io,
      lastActive := now } : Chronicled τ σ α π) :=
    ⟨.inl rfl, rfl, .opened⟩
  -- the phases and the sessions need nothing of others, the outbox does
  have hlife (firm : Prop) (hclean : firm → ∀ t, KeepsShut t.desk (h.protocol.cleanup t).1.desk)
      (hothers : firm → Meddle h KeepsShut (launch h ctx first app io now) xs) :
      InLife firm c := by
    refine (keeps_inLife hclean).followAll ((keeps_inLife hclean).launch hfresh first) ?_
    rw [bare_launch]
    exact fun front io desk back hsplit hfirm => hothers hfirm front io desk back hsplit
  refine ⟨bare_chronicle h ctx first app io now xs, fun x => rank_le_follow x,
    (hlife False nofun nofun).annals, fun hclean hothers hclosed item => ?_⟩
  have hshut := (hlife True (fun _ => hclean) fun _ => hothers).shut trivial hclosed
  simp [Outbox.post, Outbox.tryLock, hshut]

/-! Sessions that hand over as soon as they are given anything, in the end to a protocol that gives
no session. -/

namespace Restless

def host : Host Net.MemorySocket Nat Unit Nat where
  socket := Net.MemorySocket.socket
  protocol := {
    bind := fun n t => (t, if n < 2 then .ok n else .error (.callback "refused"))
    ready := fun t => (t, .ok ())
    read := fun t src => (t.switchTo (t.session + 1), .ok src.length)
    write := fun t io => (t, io, .ok .flushed)
    wakeup := fun t _ => (t, .ok ())
    stop := fun t => (t, .ok ())
    takeLeftover := fun t => (t, [])
    cleanup := fun t => (t, .ok ()) }
  idleTimeout := 5000000000
  recvBuffer := 1

def events : List (Happening Net.MemorySocket Unit) :=
  [.event 0 (.readable none), .event 1 (.readable none)]

def run : Chronicled Net.MemorySocket Nat Unit Nat :=
  chronicle host {} 0 () { input := [0x68, 0x69] } 0 events

/-- Two sessions live, with a call each between the first and the last two, and a third is
refused. -/
theorem connection_lifecycle_refused :
    run.history.length = 13 ∧ Annals .closed none run.history ∧
      ∀ item, (run.desk.outbox.post item).2 = .error .gone := by
  obtain ⟨-, -, hannals, hgone⟩ :=
    connection_lifecycle host {} 0 () { input := [0x68, 0x69] } 0 events
  have halone : Meddle host KeepsShut (launch host {} 0 () { input := [0x68, 0x69] } 0) events := by
    intro front io desk back hsplit
    have hmem : Happening.outside io desk ∈ events := hsplit ▸ by simp
    simp [events] at hmem
  exact ⟨by decide, hannals, hgone (fun _ => id) halone (by decide)⟩

end Restless

end WireServer.Connection
