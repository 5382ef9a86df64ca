import WireServer.Proofs.WebSocket.Handing
import WireServer.Proofs.WebSocket.Rounds

/-! The parser makes progress and stays within its bounds, whatever it was called with before,
violations included. So the loops that call it end on every input. -/

namespace WireServer.WebSocket

/-! ### What a call keeps -/

namespace Parser

variable {p : Parser} {rules : Rules}

/-- The parser is behind the first byte of a frame, with these rules. -/
structure Within (p : Parser) (rules : Rules) : Prop where
  rules : p.rules = rules
  begun : p.phase ≠ .op

theorem Within.finish (h : p.Within rules) (rest : Bytes) : (p.finish rest).1.Within rules := by
  unfold Parser.finish
  split
  · exact h
  · split
    · exact h
    · exact ⟨h.rules, by simp⟩

theorem readPayload_within (p : Parser) (mask : Option Mask) (src : Bytes) :
    (p.readPayload mask src).1.Within p.rules := by
  unfold readPayload
  dsimp only
  split
  · exact ⟨rfl, by simp [absorb]⟩
  · split
    · exact Within.finish ⟨rfl, by simp [absorb]⟩ _
    · exact ⟨rfl, by simp [absorb]⟩

theorem readKey_within (p : Parser) (got src : Bytes) :
    (p.readKey got src).1.Within p.rules := by
  unfold readKey
  dsimp only
  split
  · exact readPayload_within p _ _
  · exact ⟨rfl, by simp⟩

theorem Within.lengthKnown (h : p.Within rules) (masked : Bool) (src : Bytes) :
    (p.lengthKnown masked src).1.Within rules := by
  unfold Parser.lengthKnown
  split
  · exact h
  · rw [← h.rules]
    split
    · exact readKey_within p _ _
    · exact readPayload_within p _ _

theorem readExtended_within (p : Parser) (masked : Bool) (left : Nat) (src : Bytes) :
    (p.readExtended masked left src).1.Within p.rules := by
  unfold readExtended
  dsimp only
  split
  · exact ⟨rfl, by simp [extend]⟩
  · split
    · exact ⟨rfl, by simp [extend]⟩
    · exact Within.lengthKnown ⟨rfl, by simp [extend]⟩ _ _

theorem readLength_within (p : Parser) (b : UInt8) (src : Bytes) :
    (p.readLength b src).1.Within p.rules := by
  unfold readLength
  dsimp only
  split
  · exact ⟨rfl, by simp⟩
  · split
    · exact ⟨rfl, by simp⟩
    · split
      · exact readExtended_within _ _ _ _
      · split
        · exact readExtended_within _ _ _ _
        · exact Within.lengthKnown ⟨rfl, by simp⟩ _ _

/-- A call in front of a frame changes nothing or leaves the first byte of the frame behind. -/
theorem parse_within (p : Parser) (src : Bytes) :
    (p.parse src).1 = p ∨ (p.parse src).1.Within p.rules := by
  by_cases hphase : p.phase = .op
  · cases src with
    | nil => exact .inl (by simp only [parse, hphase])
    | cons b rest =>
      simp only [parse, hphase]
      cases hop : p.readOp b with
      | error v => exact .inl rfl
      | ok q =>
        obtain ⟨opcode, kind, rfl⟩ := readOp_eq hop
        cases rest with
        | nil => exact .inr ⟨rfl, by simp⟩
        | cons c rest => exact .inr (readLength_within _ c rest)
  refine .inr ?_
  unfold parse
  split
  · exact ⟨rfl, hphase⟩
  · exact readPayload_within _ _ _
  · exact ⟨rfl, hphase⟩
  · rename_i hop
    exact absurd hop hphase
  · exact readLength_within _ _ _
  · exact readExtended_within _ _ _ _
  · exact readKey_within _ _ _

theorem rules_parse (p : Parser) (src : Bytes) : (p.parse src).1.rules = p.rules := by
  obtain hsame | hwithin := p.parse_within src
  · rw [hsame]
  · exact hwithin.rules

end Parser

namespace Registers

/-- The states that calls lead to from a fresh parser, and whether no call met a violation. -/
inductive Reached (rules : Rules) : Bool → Registers → Prop where
  | fresh : Reached rules true { rules }
  | parse {clean : Bool} {r r' : Registers} {src : Bytes} {rounds : Nat}
    {result : Except Violation Nat} :
    Reached rules clean r → r.parse rounds src = some (.ok (r', result)) →
    Reached rules (clean && result.isOk) r'
  | reset {clean : Bool} {r : Registers} : Reached rules clean r → Reached rules clean r.reset

variable {rules : Rules} {clean : Bool} {r : Registers}

theorem settled_reset (r : Registers) : r.reset.Settled := .of_sound rfl nofun

theorem isComplete_view (r : Registers) : r.view.isComplete = true ↔ r.stage = .complete := by
  cases h : r.stage <;> simp [Parser.isComplete, view, h]

theorem view_reset (r : Registers) : r.reset.view = r.view.reset := by
  have hends : (r.view.isComplete && r.view.opcode.isData && r.view.flags.fin) = true ↔
      r.stage = .complete ∧ r.opcode.isData ∧ r.flags.fin := by
    rw [Bool.and_eq_true, Bool.and_eq_true, isComplete_view, and_assoc]
    rfl
  by_cases h : r.stage = .complete ∧ r.opcode.isData ∧ r.flags.fin
  · simp only [reset, if_pos h, Parser.reset, hends.2 h, if_true]
    rfl
  · simp only [reset, if_neg h, Parser.reset, Bool.eq_false_iff.2 (mt hends.1 h)]
    rfl

/-- A call that ends, ends as it does within six rounds. -/
theorem Settled.ends {r' : Registers} {src : Bytes} {rounds : Nat}
    {result : Except Violation Nat} (hr : r.Settled)
    (h : r.parse rounds src = some (.ok (r', result))) : Ends r src (.ok (r', result)) := by
  obtain ⟨a, ha, hends⟩ := parse_ends hr src (Nat.le_max_left 6 rounds)
  have hlater : r.parse (max 6 rounds) src = some (.ok (r', result)) :=
    Loop.run_of_le h (Nat.le_max_right 6 rounds)
  cases ha.symm.trans hlater
  exact hends

theorem Reached.settled (h : Reached rules clean r) : r.Settled := by
  induction h with
  | fresh => exact .of_sound rfl nofun
  | parse h hparse ih =>
    obtain ⟨r', result, heq, hsettled, -⟩ := ih.ends hparse
    cases heq
    exact hsettled
  | reset h ih => exact settled_reset _

theorem steady_parse {p q : Parser} {src rest : Bytes} (hp : p.Steady)
    (h : p.parse src = (q, .ok rest)) : q.Steady := by
  cases hc : p.isComplete with
  | true =>
    have hphase : p.phase = .complete := by simpa [Parser.isComplete] using hc
    simp only [Parser.parse, hphase] at h
    cases h
    exact hp
  | false =>
    cases src with
    | nil =>
      rw [Parser.parse_nil hp] at h
      cases h
      exact hp
    | cons b bs => exact (Parser.parse_leaves hp hc (by rw [h]; rfl)).steady

/-- Without a violation the registers stand for a steady parser. -/
theorem Reached.steady (h : Reached rules clean r) (hclean : clean = true) : r.view.Steady := by
  induction h with
  | fresh => exact ⟨rfl, rfl⟩
  | @parse clean r r' src rounds result h hparse ih =>
    obtain ⟨hbefore, hok⟩ := Bool.and_eq_true_iff.1 hclean
    obtain ⟨_, _, heq, -, hview, -⟩ := h.settled.ends hparse
    cases heq
    cases result with
    | error v => cases hok
    | ok n => exact steady_parse (ih hbefore) hview
  | @reset clean r h ih =>
    rw [view_reset]
    exact Parser.steady_reset _

theorem Reached.rules_eq (h : Reached rules clean r) : r.rules = rules := by
  induction h with
  | fresh => rfl
  | @parse clean r r' src rounds result h hparse ih =>
    obtain ⟨_, _, heq, -, hview, -⟩ := h.settled.ends hparse
    cases heq
    have hkept := Parser.rules_parse r.view src
    rw [hview] at hkept
    exact hkept.trans ih
  | @reset clean r h ih =>
    rw [← ih, Registers.reset]
    split <;> rfl

/-- The length of the frame is in. -/
def LengthKnown (r : Registers) : Prop :=
  r.stage = .maskingKey ∨ r.stage = .payload ∨ r.stage = .complete

/-- The payload is as long as the count says, the count is within the length, and the length within
the limit. -/
structure Bounded (maxPayload : Nat) (r : Registers) : Prop where
  counted : r.payload.length = r.parsed.toNat
  within : r.parsed ≤ r.len
  limited : r.len.toNat ≤ maxPayload

theorem bounded_of_steady (h : r.view.Steady) (hknown : r.LengthKnown) :
    r.Bounded r.rules.maxPayload := by
  have hbounds : r.view.payload.length = r.view.parsed ∧ r.view.parsed ≤ r.view.length ∧
      r.view.length ≤ r.view.rules.maxPayload := by
    rcases hknown with hstage | hstage | hstage <;>
      simp only [Parser.Steady, view, hstage] at h ⊢
    · obtain ⟨-, hparsed, hpayload, hlimit⟩ := h
      exact ⟨by rw [hparsed, hpayload]; rfl, by rw [hparsed]; exact Nat.zero_le _, hlimit⟩
    · exact ⟨h.2.1, Nat.le_of_lt h.1, h.2.2.1⟩
    · exact ⟨h.2.1, Nat.le_of_eq h.1, h.2.2⟩
  exact ⟨hbounds.1, UInt64.le_iff_toNat_le.2 hbounds.2.1, hbounds.2.2⟩

/-! ### Calls as the loops see them -/

/-- Without input a call changes nothing, or fails as the one before. -/
theorem Settled.parse_nil (hr : r.Settled) :
    r.view.parse [] = (r.view, .ok []) ∨ r.view.parse [] = (r.view, .error .invalidUtf8) := by
  by_cases hstage : r.stage = .payload
  · have hsound := hr.sound
    simp only [Sound, hstage] at hsound
    by_cases hfull : r.parsed = r.len
    · right
      obtain ⟨hclean, hsame⟩ := absorb_nothing hstage hsound.2
      have hfinish : r.view.finish [] = (r.view, .error .invalidUtf8) := by
        obtain ⟨-, hview⟩ | ⟨hdone, -⟩ := r.finish_cases
        · exact hview []
        · cases congrArg Prod.snd (hdone.symm.trans (hr.refused hstage hfull))
      rw [parse_of_payload hstage, Parser.readPayload, List.take_nil, List.drop_nil, hclean, hsame,
        if_pos (show r.view.parsed = r.view.length from congrArg UInt64.toNat hfull)]
      exact hfinish
    · exact .inl (parse_nil_of_starved hr.sound hstage (UInt64.lt_of_le_of_ne hsound.1 hfull))
  · exact .inl (parse_nil_of_stage hstage)

/-- What a call leaves to the next one. A frame is complete behind some of the input, or it was
complete before; as long as it is not, no input is left. -/
theorem Settled.leaves (hr : r.Settled) {src rest : Bytes} {q : Parser}
    (h : r.view.parse src = (q, .ok rest)) :
    (∃ r' : Registers, r'.Settled ∧ q = r'.view) ∧ (q.isComplete = false → rest = []) ∧
      (q.isComplete = true → rest.length < src.length + r.view.isComplete.toNat) := by
  obtain ⟨a, -, r', result, rfl, hsettled, hview, hprogress⟩ := parse_ends hr src (Nat.le_refl 6)
  obtain ⟨rfl, hrest⟩ := Prod.mk.inj (h.symm.trans hview)
  cases result with
  | error v => cases hrest
  | ok n =>
    cases hrest
    obtain ⟨hle, hcomplete, hpos⟩ := hprogress n rfl
    refine ⟨⟨r', hsettled, rfl⟩, fun hc => ?_, fun hc => ?_⟩
    · refine List.drop_of_length_le (Nat.le_of_not_lt fun hlt => ?_)
      exact Bool.eq_false_iff.1 hc ((isComplete_view r').2 (hcomplete hlt))
    · rw [List.length_drop]
      cases hbefore : r.view.isComplete with
      | true => exact Nat.lt_succ_of_le (Nat.sub_le _ _)
      | false =>
        have hstage : r.stage ≠ .complete := fun hs =>
          Bool.eq_false_iff.1 hbefore ((isComplete_view r).2 hs)
        by_cases hsrc : src = []
        · subst hsrc
          obtain hnil | hnil := hr.parse_nil
          · rw [(Prod.mk.inj (h.symm.trans hnil)).1, hbefore] at hc
            cases hc
          · cases congrArg Prod.snd (h.symm.trans hnil)
        · have := hpos hsrc hstage
          have := List.length_pos_iff.2 hsrc
          show src.length - n < src.length + 0
          omega

end Registers

/-! ### The loops that call the parser -/

namespace Link

variable {α π : Type}

/-- One round of the loop that reads frames. -/
def round (s : Service α) :
    Turn α π × Bytes → (Turn α π × Bytes) ⊕ (Turn α π × Except Failure Unit)
  | (t, src) =>
    if src.isEmpty || t.session.deaf then .inr (t, .ok ())
    else match t.session.parser.parse src with
      | (p, .error v) => .inr (fail (setParser t p) v.closeCode, .ok ())
      | (p, .ok rest) =>
        if p.isComplete then
          match completeFrame s (setParser t p) with
          | (t, .error e) => .inr (t, .error e)
          | (t, .ok ()) => .inl (setParser t t.session.parser.reset, rest)
        else .inl (setParser t p, rest)

/-- The parser of the connection is one that calls can lead to. -/
def Settles (u : Turn α π × Bytes) : Prop :=
  ∃ r : Registers, r.Settled ∧ u.1.session.parser = r.view

/-- A bound on the rounds that still go on. -/
def roundsLeft (u : Turn α π × Bytes) : Nat := u.2.length + u.1.session.parser.isComplete.toNat

theorem round_falls (s : Service α) (u u' : Turn α π × Bytes) (hu : Settles u)
    (hround : round s u = .inl u') : Settles u' ∧ roundsLeft u' < roundsLeft u := by
  obtain ⟨t, src⟩ := u
  obtain ⟨r, hr, hparser⟩ := hu
  simp only at hparser
  rw [round, hparser] at hround
  split at hround
  · cases hround
  rename_i hgoes
  have hsrc : 0 < src.length := by
    rw [List.length_pos_iff]
    rintro rfl
    exact hgoes rfl
  cases hcall : r.view.parse src with
  | mk q result =>
    rw [hcall] at hround
    cases result with
    | error v => cases hround
    | ok rest =>
      obtain ⟨⟨r', hr', rfl⟩, hnothing, hless⟩ := hr.leaves hcall
      cases hc : r'.view.isComplete with
      | false =>
        simp only [hc, Bool.false_eq_true, if_false] at hround
        cases hround
        refine ⟨⟨r', hr', rfl⟩, ?_⟩
        simp only [roundsLeft, hnothing hc]
        show 0 + r'.view.isComplete.toNat < _
        rw [hc]
        exact Nat.lt_of_lt_of_le hsrc (Nat.le_add_right _ _)
      | true =>
        simp only [hc, if_true] at hround
        have hkept := parser_completeFrame s (setParser t r'.view)
        rcases hframe : completeFrame s (setParser t r'.view) with ⟨w, e | ⟨⟩⟩
        · rw [hframe] at hround
          cases hround
        · rw [hframe] at hround hkept
          cases hround
          have hreset : w.session.parser.reset = r'.reset.view := by
            rw [hkept, Registers.view_reset]
            rfl
          refine ⟨⟨r'.reset, Registers.settled_reset r', hreset⟩, ?_⟩
          have := hless hc
          simp only [roundsLeft, hparser]
          exact this

theorem readFrames_unrolls (s : Service α) (n : Nat) (u : Turn α π × Bytes) :
    readFrames s (n + 1) u.1 u.2 = (round s u).elim (fun u => readFrames s n u.1 u.2) id := by
  obtain ⟨t, src⟩ := u
  simp only [readFrames, round]
  split
  · rfl
  rcases t.session.parser.parse src with ⟨q, v | rest⟩
  · rfl
  simp only [setParser]
  split
  · rcases completeFrame s _ with ⟨w, e | ⟨⟩⟩ <;> rfl
  · rfl

/-- The loop ends on every input, with what the connection makes of it. -/
theorem run_round (s : Service α) {t : Turn α π} {r : Registers} (hr : r.Settled)
    (hparser : t.session.parser = r.view) (src : Bytes) {n : Nat}
    (hn : src.length + r.view.isComplete.toNat < n) :
    Loop.run (round s) n (t, src) = some (readFrames s n t src) := by
  have hsettles : Settles (t, src) := ⟨r, hr, hparser⟩
  have hrounds : roundsLeft (t, src) < n := by
    rw [roundsLeft, hparser]
    exact hn
  obtain ⟨-, b, -, -, hrun⟩ := Loop.exists_run (round_falls s) hsettles hrounds
  rw [hrun, ← Loop.eq_of_run (f := fun n u => readFrames s n u.1 u.2) (readFrames_unrolls s) hrun]

end Link

namespace Codec

/-- One round of the loop that decodes frames. -/
def round : Codec × Bytes × List Frame →
    (Codec × Bytes × List Frame) ⊕ (Codec × Bytes × List Frame × Option Violation)
  | (c, src, frames) =>
    match c.decode src with
    | (c, src, .error v) => .inr (c, src, frames.reverse, some v)
    | (c, src, .ok none) => .inr (c, src, frames.reverse, none)
    | (c, src, .ok (some f)) => .inl (c, src, f :: frames)

/-- A bound on the rounds that still go on. -/
def roundsLeft (u : Codec × Bytes × List Frame) : Nat :=
  u.2.1.length + u.1.parser.isComplete.toNat

def Settles (u : Codec × Bytes × List Frame) : Prop :=
  ∃ r : Registers, r.Settled ∧ u.1.parser = r.view

theorem round_falls (u u' : Codec × Bytes × List Frame) (hu : Settles u)
    (hround : round u = .inl u') : Settles u' ∧ roundsLeft u' < roundsLeft u := by
  obtain ⟨c, src, frames⟩ := u
  obtain ⟨r, hr, hparser⟩ := hu
  simp only at hparser
  rw [round, decode, hparser] at hround
  cases hcall : r.view.parse src with
  | mk q result =>
    rw [hcall] at hround
    cases result with
    | error v => cases hround
    | ok rest =>
      obtain ⟨⟨r', hr', rfl⟩, -, hless⟩ := hr.leaves hcall
      cases hc : r'.view.isComplete with
      | false =>
        simp only [hc, Bool.false_eq_true, if_false] at hround
        cases hround
      | true =>
        simp only [hc, if_true] at hround
        cases hround
        refine ⟨⟨r'.reset, Registers.settled_reset r', (Registers.view_reset r').symm⟩, ?_⟩
        have := hless hc
        simp only [roundsLeft, hparser]
        exact this

theorem decodeFrames_unrolls (n : Nat) (u : Codec × Bytes × List Frame) :
    decodeFrames (n + 1) u.1 u.2.1 u.2.2 =
      (round u).elim (fun u => decodeFrames n u.1 u.2.1 u.2.2) id := by
  obtain ⟨c, src, frames⟩ := u
  simp only [decodeFrames, round]
  rcases c.decode src with ⟨c, src, v | ⟨⟩ | f⟩ <;> rfl

/-- The loop ends on every input, with what the codec decodes. -/
theorem run_round {c : Codec} {r : Registers} (hr : r.Settled) (hparser : c.parser = r.view)
    (src : Bytes) {n : Nat} (hn : src.length + r.view.isComplete.toNat < n) :
    Loop.run round n (c, src, []) = some (decodeFrames n c src []) := by
  have hsettles : Settles (c, src, []) := ⟨r, hr, hparser⟩
  have hrounds : roundsLeft (c, src, []) < n := by
    rw [roundsLeft, hparser]
    exact hn
  obtain ⟨-, b, -, -, hrun⟩ := Loop.exists_run round_falls hsettles hrounds
  rw [hrun, ← Loop.eq_of_run (f := fun n u => decodeFrames n u.1 u.2.1 u.2.2)
    decodeFrames_unrolls hrun]

end Codec

namespace Registers

variable {α π : Type}

/-- The parser makes progress and stays bounded, in every state that calls lead to, violations
included. A call ends within six rounds and without a trap, as the parser that the registers stand
for; it uses up no more than the input, some of it unless the frame was complete before, and all of
it unless the frame is complete now. So the loops that call it end on every input, with what the
connection reads and what the codec decodes. As long as no call met a violation, the payload behind
a length that is in is what the count says, within the length and the limit. -/
theorem reached_progress {rules : Rules} {clean : Bool} {r : Registers}
    (h : Reached rules clean r) :
    (∀ src rounds, 6 ≤ rounds → ∃ r' result, r.parse rounds src = some (.ok (r', result)) ∧
      r.view.parse src = (r'.view, result.map src.drop) ∧
      ∀ n, result = .ok n → n ≤ src.length ∧ (n < src.length → r'.stage = .complete) ∧
        (src ≠ [] → r.stage ≠ .complete → 0 < n)) ∧
    (∀ (s : Service α) (t : Link.Turn α π) src n, t.session.parser = r.view →
      src.length + r.view.isComplete.toNat < n →
      Loop.run (Link.round s) n (t, src) = some (Link.readFrames s n t src)) ∧
    (∀ (c : Codec) src n, c.parser = r.view → src.length + r.view.isComplete.toNat < n →
      Loop.run Codec.round n (c, src, []) = some (c.decodeFrames n src [])) ∧
    (clean = true → r.LengthKnown → r.Bounded rules.maxPayload) := by
  have hsettled := h.settled
  refine ⟨fun src rounds hrounds => ?_, fun s t src n hparser hn => ?_,
    fun c src n hparser hn => ?_, fun hclean hknown => ?_⟩
  · obtain ⟨a, ha, r', result, rfl, -, hends⟩ := parse_ends hsettled src hrounds
    exact ⟨r', result, ha, hends⟩
  · exact Link.run_round s hsettled hparser src hn
  · exact Codec.run_round hsettled hparser src hn
  · exact h.rules_eq ▸ bounded_of_steady (h.steady hclean) hknown

/-- Behind a violation: text that went wrong at its first byte, which is in the payload but not in
the count. -/
def spoiled : Registers where
  stage := .payload
  flags := ⟨0x81⟩
  opcode := .text
  masked := true
  len := 2
  keyIdx := 4
  mask := ⟨⟨0, 0, 0, 0⟩, 1⟩
  payload := [0xFF]
  message := some .text

theorem reached_spoiled : Reached {} false spoiled := by
  have hparse : ({} : Registers).parse 6 [0x81, 0x82, 0, 0, 0, 0, 0xFF] =
      some (.ok (spoiled, .error .invalidUtf8)) := by
    decide
  exact .parse .fresh hparse

/-- Two more bytes complete the frame, and a third one is left. -/
theorem reached_progress_spoiled :
    Reached {} false spoiled ∧
      ∃ r' result, spoiled.parse 6 [0x41, 0x42, 0x81] = some (.ok (r', result)) ∧
        spoiled.view.parse [0x41, 0x42, 0x81] =
          (r'.view, result.map (List.drop · [0x41, 0x42, 0x81])) ∧
        ∀ n, result = .ok n → n ≤ 3 ∧ (n < 3 → r'.stage = .complete) ∧
          ([0x41, 0x42, 0x81] ≠ ([] : Bytes) → spoiled.stage ≠ .complete → 0 < n) :=
  ⟨reached_spoiled,
    (reached_progress (α := Unit) (π := Unit) reached_spoiled).1 [0x41, 0x42, 0x81] 6 (by decide)⟩

end Registers

end WireServer.WebSocket
