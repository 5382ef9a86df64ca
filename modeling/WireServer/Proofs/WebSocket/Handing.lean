import WireServer.Proofs.WebSocket.Acceptance
import WireServer.Proofs.WebSocket.Closing

/-! What a connection makes of its input is what it makes of the frames that its parser reads: they
are handed on one by one, and a violation behind them ends the session. Where the pieces of the
input begin and end does not show in that. -/

namespace WireServer.WebSocket

variable {α π : Type}

/-! ### The opcode of the frame in a parser -/

namespace Parser

/-- The parts of a parser that the first byte of a frame sets. -/
def label (p : Parser) : Flags × Opcode := (p.flags, p.opcode)

/-- The opcode is the one that the first byte says. -/
def Labelled (p : Parser) : Prop := p.flags.opcode? = some p.opcode

theorem labelled_fresh (rules : Rules) : ({ rules } : Parser).Labelled := by
  show Flags.opcode? ⟨0⟩ = some .continuation
  decide

theorem Labelled.of_label {p q : Parser} (h : p.Labelled) (hlabel : q.label = p.label) :
    q.Labelled := by
  obtain ⟨hflags, hopcode⟩ := Prod.mk.inj hlabel
  rw [Labelled, hflags, hopcode]
  exact h

theorem label_finish (p : Parser) (rest : Bytes) : (p.finish rest).1.label = p.label := by
  unfold finish
  split
  · rfl
  · split <;> rfl

theorem label_readPayload (p : Parser) (mask : Option Mask) (src : Bytes) :
    (p.readPayload mask src).1.label = p.label := by
  simp only [readPayload]
  split
  · rfl
  · split
    · exact label_finish _ _
    · rfl

theorem label_readKey (p : Parser) (got src : Bytes) : (p.readKey got src).1.label = p.label := by
  simp only [readKey]
  split
  · exact label_readPayload _ _ _
  · rfl

theorem label_lengthKnown (p : Parser) (masked : Bool) (src : Bytes) :
    (p.lengthKnown masked src).1.label = p.label := by
  unfold lengthKnown
  split
  · rfl
  · split
    · exact label_readKey _ _ _
    · exact label_readPayload _ _ _

theorem label_readExtended (p : Parser) (masked : Bool) (left : Nat) (src : Bytes) :
    (p.readExtended masked left src).1.label = p.label := by
  simp only [readExtended]
  split
  · rfl
  · split
    · rfl
    · exact label_lengthKnown _ _ _

theorem label_readLength (p : Parser) (b : UInt8) (src : Bytes) :
    (p.readLength b src).1.label = p.label := by
  simp only [readLength]
  split
  · rfl
  · split
    · rfl
    · split
      · exact label_readExtended _ _ _ _
      · split
        · exact label_readExtended _ _ _ _
        · exact label_lengthKnown _ _ _

theorem labelled_readOp {p q : Parser} {b : UInt8} (h : p.readOp b = .ok q) : q.Labelled := by
  rw [show b = (Flags.mk b).bits from rfl, readOp_flags] at h
  split at h
  · cases h
  · split at h
    · cases h
    · rename_i op hop
      cases hk : p.admits ⟨b⟩ op with
      | error v =>
        rw [hk] at h
        cases h
      | ok kind =>
        rw [hk] at h
        cases h
        exact hop

theorem Labelled.parse {p : Parser} (h : p.Labelled) (src : Bytes) : (p.parse src).1.Labelled := by
  unfold Parser.parse
  split
  · exact h
  · exact h.of_label (label_readPayload _ _ _)
  · exact h
  · split
    · exact h
    · rename_i ho
      exact labelled_readOp ho
    · rename_i ho
      exact (labelled_readOp ho).of_label (label_readLength _ _ _)
  · exact h.of_label (label_readLength _ _ _)
  · exact h.of_label (label_readExtended _ _ _ _)
  · exact h.of_label (label_readKey _ _ _)

/-- A complete parser with the frame in it. -/
def Received.held (r : Received) : Parser where
  phase := .complete
  flags := r.flags
  opcode := r.flags.opcode?.getD .continuation
  payload := r.payload
  current := r.kind

theorem Labelled.held_received {p : Parser} (h : p.Labelled) : p.received.held = p.shown := by
  rw [Labelled] at h
  simp [Received.held, received, shown, h]

end Parser

namespace Link

open WireServer.WebSocket.Parser (Received)

/-! ### The parser is left alone -/

section Alone

variable (s : Service α) (t : Turn α π)

theorem parser_fail (code : UInt16) : (fail t code).session.parser = t.session.parser := by
  rw [fail_eq, session_arm]
  rfl

theorem parser_callOrFail (p : Program α) :
    (callOrFail t p).session.parser = t.session.parser := by
  simp only [callOrFail]
  split
  · exact parser_fail _ _
  · rfl

theorem parser_deliver (flags : Flags) :
    (deliver s t flags).session.parser = t.session.parser := by
  simp only [deliver, deliverBuffered]
  split
  · rfl
  split
  · split
    · exact parser_fail _ _
    split
    · rfl
    split
    · exact parser_fail _ _
    · rfl
  · exact parser_callOrFail _ _

theorem parser_tellClose (code : UInt16) :
    (tellClose s t code).1.session.parser = t.session.parser := by
  rw [tellClose_fst]
  rfl

theorem parser_peerClose : (peerClose s t).1.session.parser = t.session.parser := by
  unfold peerClose
  cases t.session.session.standing with
  | connected => exact parser_tellClose s _ _
  | expectClose =>
    have hparser := parser_tellClose s (onSession (fun w => { w with standing := .closed }) t)
      (answerCode t.session.parser.payload)
    simp only
    generalize tellClose s _ _ = r at hparser ⊢
    obtain ⟨u, e | ⟨⟩⟩ := r <;> exact hparser
  | closeReceived => rfl
  | closed => rfl
  | failed => rfl

theorem parser_completeFrame : (completeFrame s t).1.session.parser = t.session.parser := by
  unfold completeFrame
  cases t.session.parser.opcode with
  | continuation => exact parser_deliver s t _
  | text => exact parser_deliver s t _
  | binary => exact parser_deliver s t _
  | close => exact parser_peerClose s t
  | ping =>
    simp only [answerPing]
    split <;> rfl
  | pong => rfl

theorem parser_ready : (ready s t).session.parser = t.session.parser := by
  have hcall := parser_callOrFail t (s.handler.onConnect t.desk.app)
  simp only [ready]
  split
  · rw [stop, session_arm]
    exact hcall
  · rw [session_arm]
    exact hcall

end Alone

/-! ### Frames without a parser -/

/-- The connection without its parser. -/
def bare (t : Turn α π) : Turn α π := setParser t {}

theorem bare_arm (t : Turn α π) : bare (arm t) = arm (bare t) := by
  simp only [arm, apply_ite bare]
  rfl

theorem bare_fail (t : Turn α π) (code : UInt16) : bare (fail t code) = fail (bare t) code := by
  rw [fail_eq, bare_arm]
  rfl

/-- A frame comes in. -/
def hand (s : Service α) (t : Turn α π) (r : Received) : Turn α π × Except Failure Unit :=
  Prod.map bare id (completeFrame s (setParser t r.held))

/-- Of the parser, a frame that comes in is all that matters. -/
theorem shown_view (s : Service α) :
    View s s (fun t : Turn α π => setParser t t.session.parser.shown) where
  session _ := rfl
  message _ := rfl
  shown t := t.session.parser.shown_shown
  put _ _ _ := rfl
  enableTx _ := rfl
  shutdown _ := rfl
  close _ := rfl
  buffered := rfl
  maxMessage := rfl
  onConnect _ := rfl
  onMessage _ _ _ := rfl
  onClose _ _ := rfl

theorem bare_completeFrame (s : Service α) {t : Turn α π} (h : t.session.parser.Labelled) :
    Prod.map bare id (completeFrame s t) = hand s (bare t) t.session.parser.received := by
  have hshown : completeFrame s (setParser (bare t) t.session.parser.received.held) =
      Prod.map (fun t => setParser t t.session.parser.shown) id (completeFrame s t) := by
    rw [(shown_view s).completeFrame, h.held_received]
    rfl
  rw [hand, hshown]
  rfl

section Hand

variable (s : Service α) (t : Turn α π) {r : Received}

theorem opcode_held {op : Opcode} (hop : r.flags.opcode? = some op) :
    (setParser t r.held).session.parser.opcode = op := by
  simp [setParser, Turn.modify, Parser.Received.held, hop]

theorem hand_pong (hop : r.flags.opcode? = some .pong) : hand s t r = (bare t, .ok ()) := by
  rw [hand, completeFrame, opcode_held t hop]
  rfl

theorem hand_ping (hop : r.flags.opcode? = some .ping) :
    hand s t r = (if t.session.session.standing = .connected then
      onSession (·.queueFrame (r.flags.withOpcode .pong) r.payload) (bare t) else bare t,
        .ok ()) := by
  rw [hand, completeFrame, opcode_held t hop]
  simp only [answerPing, Prod.map, apply_ite bare]
  rfl

theorem hand_close (hop : r.flags.opcode? = some .close) :
    hand s t r = Prod.map bare id (peerClose s (setParser t r.held)) := by
  rw [hand, completeFrame, opcode_held t hop]

theorem hand_data {op : Opcode} (hop : r.flags.opcode? = some op) (hdata : op.isControl = false) :
    hand s t r = (bare (deliver s (setParser t r.held) r.flags), .ok ()) := by
  rw [hand, completeFrame, opcode_held t hop]
  cases op with
  | continuation => rfl
  | text => rfl
  | binary => rfl
  | close => cases hdata
  | ping => cases hdata
  | pong => cases hdata

/-- Nobody wants data that comes behind a close frame. -/
theorem hand_data_of_ne {op : Opcode} (hop : r.flags.opcode? = some op)
    (hdata : op.isControl = false) (hst : t.session.session.standing ≠ .connected) :
    hand s t r = (bare t, .ok ()) := by
  rw [hand_data s t hop hdata, deliver, session_setParser, if_pos hst]
  rfl

/-- Behind the peer's close frame nothing changes any more. -/
theorem hand_closeReceived {op : Opcode} (hop : r.flags.opcode? = some op)
    (hst : t.session.session.standing = .closeReceived) : hand s t r = (bare t, .ok ()) := by
  have hne : t.session.session.standing ≠ .connected := by simp [hst]
  cases op with
  | continuation => exact hand_data_of_ne s t hop rfl hne
  | text => exact hand_data_of_ne s t hop rfl hne
  | binary => exact hand_data_of_ne s t hop rfl hne
  | close =>
    rw [hand_close s t hop, peerClose, session_setParser, hst]
    rfl
  | ping => rw [hand_ping s t hop, if_neg hne]
  | pong => exact hand_pong s t hop

end Hand

/-- Goes on unless a failure got out. -/
def pass (r : Turn α π × Except Failure Unit) (next : Turn α π → Turn α π × Except Failure Unit) :
    Turn α π × Except Failure Unit :=
  match r with
  | (t, .error e) => (t, .error e)
  | (t, .ok ()) => next t

theorem pass_of_ok {r : Turn α π × Except Failure Unit} (h : r.2 = .ok ())
    (next : Turn α π → Turn α π × Except Failure Unit) : pass r next = next r.1 := by
  obtain ⟨u, e | ⟨⟩⟩ := r
  · cases h
  · rfl

/-- Frames come in one after another, as long as anyone listens. -/
def handAll (s : Service α) : Turn α π → List Received → Turn α π × Except Failure Unit
  | t, [] => (t, .ok ())
  | t, r :: rs => if t.session.deaf then (t, .ok ()) else pass (hand s t r) (handAll s · rs)

/-- All of a reading comes in: a violation behind the frames ends the session. -/
def digest (s : Service α) (t : Turn α π) (r : List Received × Except Violation Parser) :
    Turn α π × Except Failure Unit :=
  pass (handAll s t r.1) fun t =>
    match r.2 with
    | .error v => (if t.session.deaf then t else fail t v.closeCode, .ok ())
    | .ok _ => (t, .ok ())

section Digest

variable (s : Service α) (t : Turn α π)

theorem handAll_of_deaf (h : t.session.deaf) (rs : List Received) :
    handAll s t rs = (t, .ok ()) := by
  cases rs with
  | nil => rfl
  | cons r rs => simp [handAll, h]

theorem digest_of_deaf (h : t.session.deaf) (r : List Received × Except Violation Parser) :
    digest s t r = (t, .ok ()) := by
  rw [digest, handAll_of_deaf s t h, pass]
  cases r.2 <;> simp [h]

theorem pass_pass (r : Turn α π × Except Failure Unit)
    (f g : Turn α π → Turn α π × Except Failure Unit) :
    pass (pass r f) g = pass r fun t => pass (f t) g := by
  obtain ⟨u, e | ⟨⟩⟩ := r <;> rfl

theorem handAll_append (rs rs' : List Received) :
    handAll s t (rs ++ rs') = pass (handAll s t rs) (handAll s · rs') := by
  induction rs generalizing t with
  | nil => rfl
  | cons r rs ih =>
    rw [List.cons_append, handAll, handAll]
    by_cases hdeaf : t.session.deaf
    · rw [if_pos hdeaf, if_pos hdeaf, pass, handAll_of_deaf s t hdeaf]
    · rw [if_neg hdeaf, if_neg hdeaf, pass_pass]
      simp only [ih]

/-- A reading in two parts comes in part by part. -/
theorem digest_andThen (r : List Received × Except Violation Parser)
    (next : Parser → List Received × Except Violation Parser) :
    digest s t (Parser.andThen r next) = pass (digest s t r) fun u =>
      match r.2 with
      | .error _ => (u, .ok ())
      | .ok p => digest s u (next p) := by
  obtain ⟨rs, v | p⟩ := r
  · simp only [Parser.andThen, digest, pass_pass]
    rfl
  · simp only [Parser.andThen, digest, handAll_append, pass_pass]
    rfl

theorem digest_cons (h : t.session.deaf = false) (r : Received) (rs : List Received)
    (ending : Except Violation Parser) :
    digest s t (r :: rs, ending) = pass (hand s t r) (digest s · (rs, ending)) := by
  simp only [digest, handAll, h, Bool.false_eq_true, if_false, pass_pass]

end Digest

/-! ### Reading -/

/-- How reading some input with enough fuel ends: as its frames make it end, and if anyone still
listens, with the parser where the input ended. -/
structure ReadsOn (s : Service α) (t : Turn α π) (src : Bytes)
    (r : Turn α π × Except Failure Unit) : Prop where
  bare : Prod.map bare id r = digest s (bare t) (t.session.parser.read src).verdict
  parser : r.2 = .ok () → r.1.session.deaf = false →
    (t.session.parser.read src).verdict.2 = .ok r.1.session.parser
  labelled : r.1.session.parser.Labelled

section ReadsOn

variable {s : Service α} {t : Turn α π} {src : Bytes}

/-- One call of the parser, and what the connection does with it. -/
theorem readFrames_succ (hsrc : src ≠ []) (hdeaf : t.session.deaf = false) (n : Nat) :
    readFrames s (n + 1) t src =
      match t.session.parser.parse src with
      | (q, .error v) => (fail (setParser t q) v.closeCode, .ok ())
      | (q, .ok rest) =>
        if q.isComplete then
          pass (completeFrame s (setParser t q)) fun u =>
            readFrames s n (setParser u u.session.parser.reset) rest
        else readFrames s n (setParser t q) rest := by
  rw [readFrames, if_neg (by simp [hsrc, hdeaf])]
  rcases t.session.parser.parse src with ⟨q, v | rest⟩
  · rfl
  · simp only [setParser]
    split
    · rcases completeFrame s _ with ⟨u, e | ⟨⟩⟩ <;> rfl
    · rfl

theorem ReadsOn.violation (hdeaf : t.session.deaf = false) {q : Parser} {v : Violation}
    (hread : (t.session.parser.read src).verdict = ([], .error v)) (hq : q.Labelled) :
    ReadsOn s t src (fail (setParser t q) v.closeCode, .ok ()) := by
  have hdeaf : (Link.bare t).session.deaf = false := hdeaf
  refine ⟨?_, fun _ h => ?_, ?_⟩
  · rw [hread]
    simp only [digest, handAll, pass, hdeaf, Bool.false_eq_true, if_false]
    exact Prod.ext (bare_fail _ _) rfl
  · rw [deaf, fail_eq, session_arm] at h
    cases h
  · rw [parser_fail]
    exact hq

/-- The input ends in the middle of a frame. -/
theorem ReadsOn.part {q : Parser}
    (hread : (t.session.parser.read src).verdict = ([], .ok q)) (hq : q.Labelled) :
    ReadsOn s t src (setParser t q, .ok ()) :=
  ⟨by rw [hread]; rfl, fun _ _ => by rw [hread]; rfl, hq⟩

/-- A frame is complete, and reading goes on behind it. -/
theorem ReadsOn.frame (hdeaf : t.session.deaf = false) {q : Parser} {rest : Bytes}
    (hread : (t.session.parser.read src).verdict =
      (q.received :: (q.reset.read rest).verdict.1, (q.reset.read rest).verdict.2))
    (hq : q.Labelled) (next : Turn α π → Turn α π × Except Failure Unit)
    (hnext : ∀ u : Turn α π, u.session.parser = q.reset → ReadsOn s u rest (next u)) :
    ReadsOn s t src (pass (completeFrame s (setParser t q)) fun u =>
      next (setParser u u.session.parser.reset)) := by
  have hhand : Prod.map Link.bare id (completeFrame s (setParser t q)) =
      hand s (Link.bare t) q.received := bare_completeFrame s (t := setParser t q) hq
  have hparser := parser_completeFrame s (setParser t q)
  have hdigest := digest_cons s (Link.bare t) hdeaf q.received (q.reset.read rest).verdict.1
    (q.reset.read rest).verdict.2
  rw [← hread, ← hhand] at hdigest
  rcases hframe : completeFrame s (setParser t q) with ⟨u, e | ⟨⟩⟩
  all_goals rw [hframe] at hdigest hparser
  · exact ⟨hdigest.symm, nofun, by rw [pass, hparser]; exact hq⟩
  · have hreset : (setParser u u.session.parser.reset).session.parser = q.reset :=
      congrArg Parser.reset hparser
    have hu := hnext _ hreset
    have hbare := hu.bare
    have hrest := hu.parser
    rw [hreset] at hbare hrest
    exact ⟨hbare.trans hdigest.symm, fun h h' => (congrArg Prod.snd hread).trans (hrest h h'),
      hu.labelled⟩

end ReadsOn

theorem readFrames_readsOn (s : Service α) {t : Turn α π} (hs : t.session.parser.Steady)
    (hc : t.session.parser.isComplete = false) (hl : t.session.parser.Labelled) {n : Nat}
    {src : Bytes} (hn : src.length < n) : ReadsOn s t src (readFrames s n t src) := by
  induction n generalizing t src with
  | zero => exact absurd hn (Nat.not_lt_zero _)
  | succ n ih =>
    cases src with
    | nil => exact ReadsOn.part (Parser.read_nil t.session.parser) hl
    | cons b bs =>
    by_cases hdeaf : t.session.deaf
    · rw [readFrames, if_pos (by simp [hdeaf])]
      exact ⟨(digest_of_deaf s (bare t) hdeaf _).symm, fun _ h => by simp [hdeaf] at h, hl⟩
    have hdeaf : t.session.deaf = false := by simpa using hdeaf
    have hread := Parser.verdict_read hs hc (b :: bs)
    have hlabelled := hl.parse (b :: bs)
    rw [readFrames_succ (List.cons_ne_nil b bs) hdeaf]
    rw [Parser.firstCall] at hread
    rcases hp : t.session.parser.parse (b :: bs) with ⟨q, v | rest⟩
    all_goals rw [hp] at hlabelled hread
    · exact .violation hdeaf hread hlabelled
    have hleaves := Parser.parse_leaves hs hc (by rw [hp, Parser.result_ok])
    simp only [Parser.result_ok] at hread ⊢
    by_cases hq : q.isComplete
    · rw [if_pos hq] at hread ⊢
      refine .frame hdeaf hread hlabelled (readFrames s n · rest) fun u hu => ih ?_ ?_ ?_ ?_
      · exact hu ▸ Parser.steady_reset q
      · exact hu ▸ rfl
      · exact hu ▸ hlabelled
      · exact Nat.lt_of_le_of_lt hleaves.length_le (by rw [List.length_cons] at hn; omega)
    · have hq : q.isComplete = false := by simpa using hq
      rw [if_neg (by simp [hq])] at hread ⊢
      rw [hleaves.empty hq, show readFrames s n (setParser t q) [] = (setParser t q, .ok ()) by
        cases n <;> rfl]
      exact .part hread hlabelled

/-! ### Chunks -/

/-- Chunks one after another, until a failure gets out. -/
def readChunks (s : Service α) : Turn α π → List Bytes → Turn α π × Except Failure Unit
  | t, [] => (t, .ok ())
  | t, c :: cs => pass (read s t c) (readChunks s · cs)

/-- Asks for more on the sending side. -/
def raise (tx shutdown : Bool) (t : Turn α π) : Turn α π :=
  { t with ctx := { t.ctx with
    tx := t.ctx.tx || tx, shutdown := t.ctx.shutdown || shutdown } }

/-- Asks for nothing on the sending side. -/
def hush (t : Turn α π) : Turn α π := { t with ctx := asks t }

theorem hush_eq {t u : Turn α π} (h : hush t = hush u) :
    asks t = asks u ∧ t.session = u.session ∧ t.desk = u.desk := by
  rw [hush, hush, Turn.mk.injEq] at h
  exact h

theorem arm_eq_raise (t : Turn α π) : ∃ tx shutdown, arm t = raise tx shutdown t := by
  have hctx (tx shutdown : Bool) : raise tx shutdown t = { t with ctx := { t.ctx with
    tx := t.ctx.tx || tx, shutdown := t.ctx.shutdown || shutdown } } := rfl
  unfold arm
  split
  · exact ⟨true, false, by simp [hctx, Turn.enableTx]⟩
  · split
    · exact ⟨false, true, by simp [hctx, Turn.shutdown]⟩
    · exact ⟨false, false, by simp [hctx]⟩

/-- What was asked for before stays asked for. -/
theorem raise_view (s : Service α) (tx shutdown : Bool) :
    ClearView s s (raise tx shutdown : Turn α π → Turn α π) where
  session _ := rfl
  message _ := rfl
  shown _ := rfl
  put _ _ _ := rfl
  enableTx t := by simp [raise, Turn.enableTx]
  shutdown t := by simp [raise, Turn.shutdown]
  close _ := rfl
  buffered := rfl
  maxMessage := rfl
  onConnect _ := rfl
  onMessage _ _ _ := rfl
  onClose _ _ := rfl
  parser _ := rfl
  setParser _ _ := rfl

/-- Whatever a clear view shows of the reads, it shows of all of them. -/
theorem ClearView.readChunks {β : Type} {s' : Service β} {s : Service α}
    {g : Turn β π → Turn α π} (h : ClearView s' s g) (t : Turn β π) (cs : List Bytes) :
    Prod.map g id (Link.readChunks s' t cs) = Link.readChunks s (g t) cs := by
  induction cs generalizing t with
  | nil => rfl
  | cons c cs ih =>
    rw [Link.readChunks, Link.readChunks, ← h.read]
    rcases Link.read s' t c with ⟨u, e | ⟨⟩⟩
    · rfl
    · exact ih u

theorem hush_readChunks_arm (s : Service α) (t : Turn α π) (cs : List Bytes) :
    Prod.map hush id (readChunks s (arm t) cs) = Prod.map hush id (readChunks s t cs) := by
  obtain ⟨tx, shutdown, harm⟩ := arm_eq_raise t
  rw [harm, ← (raise_view s tx shutdown).readChunks]
  rfl

theorem hush_readChunks_of_deaf (s : Service α) {t : Turn α π} (h : t.session.deaf)
    (cs : List Bytes) : Prod.map hush id (readChunks s t cs) = (hush t, .ok ()) := by
  induction cs with
  | nil => rfl
  | cons c cs ih =>
    have hread : read s t c = (arm t, .ok ()) := by simp [read, readFrames, h]
    rw [readChunks, hread, pass, hush_readChunks_arm, ih]

/-- Where the input has got to: as the frames of all chunks make it end, and if anyone still
listens, with the parser where the chunks ended. -/
structure ReadsThrough (s : Service α) (t : Turn α π) (cs : List Bytes)
    (r : Turn α π × Except Failure Unit) : Prop where
  hushed : Prod.map (hush ∘ bare) id r =
    Prod.map hush id (digest s (bare t) (t.session.parser.readChunks cs))
  parser : r.2 = .ok () → r.1.session.deaf = false →
    (t.session.parser.readChunks cs).2 = .ok r.1.session.parser

/-- What was asked for on the sending side does not show. -/
theorem ReadsThrough.congr {s : Service α} {t : Turn α π} {cs : List Bytes}
    {r r' : Turn α π × Except Failure Unit} (h : ReadsThrough s t cs r)
    (hsame : Prod.map hush id r' = Prod.map hush id r) : ReadsThrough s t cs r' := by
  obtain ⟨hturn, hend⟩ := Prod.mk.inj hsame
  have hsession : r'.1.session = r.1.session := (hush_eq hturn).2.1
  refine ⟨(congrArg (Prod.map bare id) hsame).trans h.hushed, ?_⟩
  rw [hsession]
  exact fun hok hdeaf => h.parser (hend.symm.trans hok) hdeaf

theorem readChunks_readsThrough (s : Service α) {t : Turn α π} (hs : t.session.parser.Steady)
    (hc : t.session.parser.isComplete = false) (hl : t.session.parser.Labelled)
    (cs : List Bytes) : ReadsThrough s t cs (readChunks s t cs) := by
  induction cs generalizing t with
  | nil => exact ⟨rfl, fun _ _ => rfl⟩
  | cons c cs ih =>
    have hon := readFrames_readsOn s hs hc hl (Nat.lt_succ_self c.length)
    have hparsed : t.session.parser.readChunks (c :: cs) =
        Parser.andThen (t.session.parser.read c).verdict (Parser.readChunks · cs) := by
      rw [Parser.readChunks, Parser.verdict_readChunk hs hc]
    have hdigest := digest_andThen s (bare t) (t.session.parser.read c).verdict
      (Parser.readChunks · cs)
    rw [← hparsed, ← hon.bare] at hdigest
    rw [readChunks, read]
    rcases hframes : readFrames s (c.length + 1) t c with ⟨u, e | ⟨⟩⟩
    all_goals rw [hframes] at hon hdigest
    · exact ⟨by rw [hdigest]; rfl, fun hok => by cases hok⟩
    refine ReadsThrough.congr (r := readChunks s u cs) ?_ (hush_readChunks_arm s u cs)
    by_cases hdeaf : u.session.deaf
    · refine ReadsThrough.congr (r := (u, .ok ())) ?_ (hush_readChunks_of_deaf s hdeaf cs)
      refine ⟨?_, fun _ h => by simp [hdeaf] at h⟩
      rw [hdigest]
      cases (t.session.parser.read c).verdict.2 with
      | error v => rfl
      | ok p => exact (congrArg (Prod.map hush id) (digest_of_deaf s (bare u) hdeaf _)).symm
    · have hend := hon.parser rfl (by simpa using hdeaf)
      obtain ⟨hs', hc'⟩ := Parser.read_steady hs hc hend
      have hrest := ih hs' hc' hon.labelled
      simp only [pass, Prod.map, hend] at hdigest
      refine ⟨hrest.hushed.trans (by rw [hdigest]; rfl), fun hok hlistens => ?_⟩
      rw [hparsed, ← hrest.parser hok hlistens]
      rcases hread : (t.session.parser.read c).verdict with ⟨rs, v | p⟩
      all_goals rw [hread] at hend
      · cases hend
      · cases hend
        rfl

/-- A connection at its start. -/
def opened (s : Service α) (ctx : Context π) (desk : Desk α) : Turn α π :=
  ready s ⟨ctx, new s, desk⟩

theorem parser_opened (s : Service α) (ctx : Context π) (desk : Desk α) :
    (opened s ctx desk).session.parser = { rules := { maxPayload := s.maxFrame } } :=
  parser_ready s _

/-- From the start on, chunks come to what the frames in them come to. -/
theorem readChunks_opened (s : Service α) (ctx : Context π) (desk : Desk α) (cs : List Bytes) :
    ReadsThrough s (opened s ctx desk) cs (readChunks s (opened s ctx desk) cs) := by
  have hparser := parser_opened s ctx desk
  refine readChunks_readsThrough s ?_ ?_ ?_ cs
  · exact hparser ▸ ⟨rfl, rfl⟩
  · exact hparser ▸ rfl
  · exact hparser ▸ Parser.labelled_fresh _

end Link

end WireServer.WebSocket
