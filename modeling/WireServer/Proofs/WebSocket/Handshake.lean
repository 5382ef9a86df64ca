import Mathlib.Data.List.Chain
import Mathlib.Logic.Relation
import WireServer.Proofs.WebSocket.Wire
import WireServer.WebSocket.Codec
import WireServer.WebSocket.Session

/-! The close handshake as an abstract machine: the steps by which a session may change, and what
holds along any number of them. A session carries notes of the points at which its standing shows:
the start and the end of each callback, and the end of each event. -/

namespace WireServer.WebSocket

open Relation

/-- The bytes of a server's frame. -/
def Frame.wire (f : Frame) : Bytes := Header.server f.flags f.payload.length ++ f.payload

/-- The length that a server's header announces, and what comes behind it. -/
def Frame.announced : Bytes → Nat × Bytes
  | [] => (0, [])
  | b :: bs =>
    if b = 126 then (Bytes.toNatBE (bs.take 2), bs.drop 2)
    else if b = 127 then (Bytes.toNatBE (bs.take 8), bs.drop 8)
    else (b.toNat, bs)

theorem Frame.announced_lengthField {n : Nat} (hn : n < 0x10000000000000000) (rest : Bytes) :
    Frame.announced (Header.lengthField false n ++ rest) = (n, rest) := by
  have hread (width : Nat) : Bytes.toNatBE ((Bytes.ofNatBE width n ++ rest).take width) =
      n % 256 ^ width ∧ (Bytes.ofNatBE width n ++ rest).drop width = rest := by
    have hlen := Bytes.length_ofNatBE width n
    rw [List.take_left' hlen, List.drop_left' hlen, Bytes.toNatBE_ofNatBE]
    exact ⟨rfl, rfl⟩
  unfold Header.lengthField
  simp only [Bool.false_eq_true, if_false, UInt8.zero_or]
  split
  · rename_i hsmall
    have hvalue : (UInt8.ofNat n).toNat = n := by
      rw [UInt8.toNat_ofNat']
      omega
    have hcode (code : UInt8) (hc : 125 < code.toNat) : UInt8.ofNat n ≠ code := by
      rintro rfl
      omega
    simp [Frame.announced, hcode 126 (by decide), hcode 127 (by decide), hvalue]
  · split
    · simp only [Frame.announced, List.cons_append, if_true, hread]
      rw [Nat.mod_eq_of_lt (by omega)]
    · simp only [Frame.announced, List.cons_append, show (127 : UInt8) ≠ 126 by decide, if_false,
        if_true, hread]
      rw [Nat.mod_eq_of_lt (by omega)]

/-- The bytes of the frames tell which frames they are. -/
theorem Frame.wire_injective {fs gs : List Frame}
    (hfs : ∀ f ∈ fs, f.payload.length < 0x10000000000000000)
    (hgs : ∀ g ∈ gs, g.payload.length < 0x10000000000000000)
    (h : fs.flatMap Frame.wire = gs.flatMap Frame.wire) : fs = gs := by
  have hwire (f : Frame) (rest : Bytes) : f.wire ++ rest =
      f.flags.bits :: (Header.lengthField false f.payload.length ++ (f.payload ++ rest)) := by
    simp [Frame.wire, Header.server, Header.encode]
  induction fs generalizing gs with
  | nil =>
    cases gs with
    | nil => rfl
    | cons g gs => simp [hwire] at h
  | cons f fs ih =>
    cases gs with
    | nil => simp [hwire] at h
    | cons g gs =>
      rw [List.forall_mem_cons] at hfs hgs
      rw [List.flatMap_cons, List.flatMap_cons, hwire, hwire] at h
      obtain ⟨hflags, hbody⟩ := List.cons.inj h
      have hannounced := congrArg announced hbody
      rw [announced_lengthField hfs.1, announced_lengthField hgs.1] at hannounced
      obtain ⟨hlength, hpayload⟩ := Prod.mk.inj hannounced
      obtain ⟨hpayload, hrest⟩ := List.append_inj hpayload hlength
      have hframe : f = g := by
        obtain ⟨⟨bits⟩, payload⟩ := f
        obtain ⟨⟨bits'⟩, payload'⟩ := g
        cases hflags
        cases hpayload
        rfl
      rw [hframe, ih hfs.2 hgs.2 hrest]

def Frame.isClose (f : Frame) : Bool := f.flags.opcode? = some .close

namespace Handshake

/-- A point at which the standing of a session shows. -/
inductive Moment where
  /-- The application is told that the handshake is over. -/
  | connecting
  /-- A message is delivered. -/
  | message
  /-- The application is told of the peer's close frame. -/
  | closing
  /-- A callback is over. -/
  | returned
  /-- An event is over. -/
  | rest
  deriving DecidableEq, Repr

/-- The standing at one such point. -/
structure Note where
  moment : Moment
  standing : Standing
  deriving DecidableEq, Repr

/-- A session with the notes so far. -/
structure Scene where
  session : Session
  notes : List Note

/-- The standings seen, from the first on. -/
def path (notes : List Note) : List Standing := .connected :: notes.map (·.standing)

/-- The standing seen last. -/
def seen (notes : List Note) : Standing := (path notes).getLast (List.cons_ne_nil _ _)

/-- How a standing may change. -/
inductive Moves : Standing → Standing → Prop
  | answer : Moves .connected .closeReceived
  | close : Moves .connected .expectClose
  | abort : Moves .connected .failed
  | failAnswered : Moves .closeReceived .failed
  | complete : Moves .expectClose .closed
  | failClosing : Moves .expectClose .failed

/-- The standing stays, or makes one move. -/
def Keeps (a b : Standing) : Prop := a = b ∨ Moves a b

/-- What the code may do to a session. -/
inductive Step : Scene → Scene → Prop
  /-- A frame other than a close frame is queued. -/
  | queue (w : Session) (l : List Note) (flags : Flags) (payload : Bytes) :
      w.standing = .connected → flags.opcode? ≠ some .close →
      Step ⟨w, l⟩ ⟨w.queueFrame flags payload, l⟩
  /-- We close first. -/
  | close (w : Session) (l : List Note) (code : UInt16) : w.standing = .connected →
      Step ⟨w, l⟩ ⟨{ w.queueClose code with standing := .expectClose }, l⟩
  /-- The peer closed first: it is answered and the application is told. -/
  | answer (w : Session) (l : List Note) (code : UInt16) : w.standing = .connected →
      Step ⟨w, l⟩ ⟨{ w.queueClose code with standing := .closeReceived, lastWords := true },
        l ++ [⟨.closing, .closeReceived⟩]⟩
  /-- The peer answers: the application is told. -/
  | complete (w : Session) (l : List Note) : w.standing = .expectClose → seen l = .expectClose →
      Step ⟨w, l⟩ ⟨{ w with standing := .closed }, l ++ [⟨.closing, .closed⟩]⟩
  /-- A failure before any close frame. -/
  | abort (w : Session) (l : List Note) (code : UInt16) : w.standing = .connected →
      Step ⟨w, l⟩ ⟨{ w.queueClose code with standing := .failed, lastWords := true }, l⟩
  /-- A failure in the middle of the handshake. -/
  | fail (w : Session) (l : List Note) :
      w.standing = .closeReceived ∨ w.standing = .expectClose →
      Step ⟨w, l⟩ ⟨{ w with standing := .failed, lastWords := true }, l⟩
  /-- The application attaches a value. -/
  | attach (w : Session) (l : List Note) (a : Attachment) :
      Step ⟨w, l⟩ ⟨{ w with attachment := some a }, l⟩
  /-- A callback is called while connected. -/
  | call (w : Session) (l : List Note) (m : Moment) : w.standing = .connected → m ≠ .closing →
      Step ⟨w, l⟩ ⟨w, l ++ [⟨m, w.standing⟩]⟩
  /-- A callback or an event is over. -/
  | look (w : Session) (l : List Note) (m : Moment) : m = .returned ∨ m = .rest →
      Step ⟨w, l⟩ ⟨w, l ++ [⟨m, w.standing⟩]⟩

abbrev Steps : Scene → Scene → Prop := ReflTransGen Step

/-! ### Queued frames -/

theorem toBytes_queueFrame (w : Session) (flags : Flags) (payload : Bytes) :
    (w.queueFrame flags payload).out.toBytes = w.out.toBytes ++ (Frame.mk flags payload).wire := by
  cases payload <;> simp [Session.queueFrame, Frame.wire]

theorem toBytes_queueClose (w : Session) (code : UInt16) :
    (w.queueClose code).out.toBytes = w.out.toBytes ++ (Frame.close code []).wire :=
  toBytes_queueFrame w _ _

/-- At most one close frame, behind all others, and there exactly once the session is no longer
connected. -/
def Disciplined (fs : List Frame) (st : Standing) : Prop :=
  (∀ f ∈ fs.dropLast, f.isClose = false) ∧ ((∃ f ∈ fs, f.isClose) ↔ st ≠ .connected)

theorem disciplined_nil : Disciplined [] .connected := by simp [Disciplined]

theorem Disciplined.not_close {fs : List Frame} (h : Disciplined fs .connected) :
    ∀ f ∈ fs, f.isClose = false := by
  intro f hf
  refine Bool.eq_false_iff.2 fun hc => ?_
  exact h.2.1 ⟨f, hf, hc⟩ rfl

/-- Another frame while connected. -/
theorem Disciplined.queue {fs : List Frame} (h : Disciplined fs .connected) {f : Frame}
    (hf : f.isClose = false) : Disciplined (fs ++ [f]) .connected := by
  have hall := h.not_close
  refine ⟨by simpa using hall, ?_⟩
  simp only [List.mem_append, List.mem_singleton, ne_eq, not_true_eq_false, iff_false]
  rintro ⟨g, hg | rfl, hc⟩
  · rw [hall g hg] at hc
    cases hc
  · rw [hf] at hc
    cases hc

/-- The close frame. -/
theorem Disciplined.close {fs : List Frame} (h : Disciplined fs .connected) {f : Frame}
    (hf : f.isClose) {st : Standing} (hst : st ≠ .connected) : Disciplined (fs ++ [f]) st := by
  refine ⟨by simpa using h.not_close, ?_⟩
  simp only [ne_eq, hst, not_false_eq_true, iff_true]
  exact ⟨f, by simp, hf⟩

/-- Behind the close frame only the standing changes. -/
theorem Disciplined.move {fs : List Frame} {st st' : Standing} (h : Disciplined fs st)
    (hst : st ≠ .connected) (hst' : st' ≠ .connected) : Disciplined fs st' :=
  ⟨h.1, by rw [h.2]; simp [hst, hst']⟩

theorem isClose_close (code : UInt16) : (Frame.close code []).isClose := by
  simp [Frame.isClose, Frame.close, Frame.single, Flags.opcode?, Flags.rawOpcode, Flags.new]
  decide

/-- The frames that a step queues, behind those that were queued before. -/
theorem Step.queued {a b : Scene} (h : Step a b) (fs : List Frame)
    (hfs : Disciplined fs a.session.standing) : ∃ gs,
      b.session.out.toBytes = a.session.out.toBytes ++ gs.flatMap Frame.wire ∧
        Disciplined (fs ++ gs) b.session.standing := by
  cases h with
  | queue w l flags payload hst hop =>
    simp only [hst] at hfs
    refine ⟨[⟨flags, payload⟩], by simp [toBytes_queueFrame], ?_⟩
    simp only [Session.queueFrame, hst]
    exact hfs.queue (by simpa [Frame.isClose] using hop)
  | close w l code hst =>
    simp only [hst] at hfs
    exact ⟨[Frame.close code []], by simp [toBytes_queueClose],
      hfs.close (isClose_close code) (by simp)⟩
  | answer w l code hst =>
    simp only [hst] at hfs
    exact ⟨[Frame.close code []], by simp [toBytes_queueClose],
      hfs.close (isClose_close code) (by simp)⟩
  | abort w l code hst =>
    simp only [hst] at hfs
    exact ⟨[Frame.close code []], by simp [toBytes_queueClose],
      hfs.close (isClose_close code) (by simp)⟩
  | complete w l hst hseen =>
    exact ⟨[], by simp, by simpa using hfs.move (by simp [hst]) (by simp)⟩
  | fail w l hst =>
    refine ⟨[], by simp, ?_⟩
    rw [List.append_nil]
    exact hfs.move (by rcases hst with hst | hst <;> simp [hst]) (by simp)
  | attach w l a => exact ⟨[], by simp, by simpa using hfs⟩
  | call w l m hst hm => exact ⟨[], by simp, by simpa using hfs⟩
  | look w l m hm => exact ⟨[], by simp, by simpa using hfs⟩

theorem Steps.queued {a b : Scene} (h : Steps a b) (fs : List Frame)
    (hfs : Disciplined fs a.session.standing) : ∃ gs,
      b.session.out.toBytes = a.session.out.toBytes ++ gs.flatMap Frame.wire ∧
        Disciplined (fs ++ gs) b.session.standing := by
  induction h with
  | refl => exact ⟨[], by simp, by simpa using hfs⟩
  | tail _ hstep ih =>
    obtain ⟨gs, hout, hgs⟩ := ih
    obtain ⟨hs, hout', hhs⟩ := hstep.queued _ hgs
    exact ⟨gs ++ hs, by simp [hout', hout], by simpa using hhs⟩

/-! ### Notes -/

theorem path_append (l : List Note) (n : Note) : path (l ++ [n]) = path l ++ [n.standing] := by
  simp [path]

@[simp] theorem seen_append (l : List Note) (n : Note) : seen (l ++ [n]) = n.standing := by
  simp [seen, path_append]

theorem isChain_append {l : List Note} {n : Note} (h : List.IsChain Keeps (path l))
    (hn : Keeps (seen l) n.standing) : List.IsChain Keeps (path (l ++ [n])) := by
  rw [path_append]
  refine h.append (.singleton _) fun x hx y hy => ?_
  have hlast : (path l).getLast? = some (seen l) := List.getLast?_eq_some_getLast _
  rw [hlast] at hx
  cases hx
  cases hy
  exact hn

/-- Nothing moves to the first standing. -/
theorem Keeps.connected {st : Standing} (h : Keeps st .connected) : st = .connected := by
  rcases h with h | h
  · exact h
  · cases h

/-- How often the application was told of a close frame. -/
def told (l : List Note) : Nat := l.countP (·.moment = .closing)

@[simp] theorem told_append (l : List Note) (n : Note) :
    told (l ++ [n]) = told l + if n.moment = .closing then 1 else 0 := by
  simp only [told, List.countP_append, List.countP_singleton, decide_eq_true_eq]

/-- What holds of the notes at any time. -/
structure Sound (a : Scene) : Prop where
  chain : List.IsChain Keeps (path a.notes)
  last : Keeps (seen a.notes) a.session.standing
  messages : ∀ n ∈ a.notes, n.moment = .message → n.standing = .connected
  once : told a.notes ≤ 1
  untold : a.session.standing = .connected ∨ a.session.standing = .expectClose → told a.notes = 0

/-- Another note, of the standing that the session has then. -/
theorem Sound.note {w w' : Session} {l : List Note} (h : Sound ⟨w, l⟩) {n : Note}
    (hlast : Keeps (seen l) n.standing) (hst : w'.standing = n.standing)
    (hm : n.moment = .message → n.standing = .connected)
    (htold : told (l ++ [n]) ≤ 1)
    (huntold : n.standing = .connected ∨ n.standing = .expectClose → told (l ++ [n]) = 0) :
    Sound ⟨w', l ++ [n]⟩ := by
  refine ⟨isChain_append h.chain hlast, ?_, ?_, htold, ?_⟩
  · simp only [seen_append, hst]
    exact .inl rfl
  · intro m hmem
    rcases List.mem_append.1 hmem with hmem | hmem
    · exact h.messages m hmem
    · cases List.mem_singleton.1 hmem
      exact hm
  · simpa only [hst] using huntold

/-- Another standing, one move away from the one seen last. -/
theorem Sound.move {w w' : Session} {l : List Note} (h : Sound ⟨w, l⟩)
    (hlast : Keeps (seen l) w'.standing)
    (huntold : w'.standing = .connected ∨ w'.standing = .expectClose → told l = 0) :
    Sound ⟨w', l⟩ :=
  ⟨h.chain, hlast, h.messages, h.once, huntold⟩

theorem Step.sound {a b : Scene} (h : Step a b) (ha : Sound a) : Sound b := by
  have hconnected {w : Session} {l : List Note} (ha : Sound ⟨w, l⟩)
      (hst : w.standing = .connected) : seen l = .connected ∧ told l = 0 := by
    have hlast := ha.last
    simp only [hst] at hlast
    exact ⟨hlast.connected, ha.untold (.inl hst)⟩
  cases h with
  | queue w l flags payload hst hop => exact ha.move ha.last ha.untold
  | close w l code hst =>
    obtain ⟨hseen, htold⟩ := hconnected ha hst
    exact ha.move (by rw [hseen]; exact .inr .close) fun _ => htold
  | answer w l code hst =>
    obtain ⟨hseen, htold⟩ := hconnected ha hst
    exact ha.note (by rw [hseen]; exact .inr .answer) rfl (by simp) (by simp [htold]) (by simp)
  | complete w l hst hseen =>
    have htold := ha.untold (.inr hst)
    exact ha.note (by rw [hseen]; exact .inr .complete) rfl (by simp) (by simp [htold]) (by simp)
  | abort w l code hst =>
    obtain ⟨hseen, htold⟩ := hconnected ha hst
    exact ha.move (by rw [hseen]; exact .inr .abort) fun _ => htold
  | fail w l hst =>
    have hlast : Moves (seen l) .failed := by
      have hlast := ha.last
      generalize seen l = st at hlast
      rcases hst with hst | hst <;> simp only [hst] at hlast
      · rcases hlast with rfl | h
        · exact .failAnswered
        · cases h
          exact .abort
      · rcases hlast with rfl | h
        · exact .failClosing
        · cases h
          exact .abort
    exact ha.move (.inr hlast) (by simp)
  | attach w l a => exact ha.move ha.last ha.untold
  | call w l m hst hm =>
    obtain ⟨hseen, htold⟩ := hconnected ha hst
    exact ha.note (by rw [hseen, hst]; exact .inl rfl) rfl (fun _ => hst) (by simp [htold, hm])
      fun _ => by simp [htold, hm]
  | look w l m hm =>
    have hne : m ≠ .closing := by rcases hm with rfl | rfl <;> simp
    have hne' : m ≠ .message := by rcases hm with rfl | rfl <;> simp
    exact ha.note ha.last rfl (fun h => absurd h hne') (by simpa [hne] using ha.once)
      fun h => by simpa [hne] using ha.untold h

theorem Steps.sound {a b : Scene} (h : Steps a b) (ha : Sound a) : Sound b := by
  induction h with
  | refl => exact ha
  | tail _ hstep ih => exact hstep.sound ih

end Handshake

end WireServer.WebSocket
