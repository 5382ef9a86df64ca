import WireServer.Proofs.Text.WellFormed
import WireServer.Proofs.WebSocket.Wire

/-! Which sequences of frames the parser takes. The rules are stated on the frames alone, with the
message that is open between two of them; the parser takes exactly the frames before the first one
that breaks a rule, and reports the rule whose bytes come first. -/

namespace WireServer.WebSocket

/-- A message of which frames are still to come: its kind, and its payload so far. -/
structure Open where
  kind : MessageKind
  text : Bytes

namespace Wire

/-- The message that a data frame begins or carries on, with the frame's payload. -/
def carried (f : Wire) (o : Option Open) : Option Open :=
  match f.flags.opcode? with
  | some .continuation => o.map fun m => { m with text := m.text ++ f.data }
  | some .text => some ⟨.text, f.data⟩
  | some .binary => some ⟨.binary, f.data⟩
  | _ => none

/-- The message that is open behind the frame. -/
def after (f : Wire) (o : Option Open) : Option Open :=
  match f.carried o with
  | some m => if f.flags.fin then none else some m
  | none => o

/-- The frame as its receiver sees it. -/
def received (f : Wire) (o : Option Open) : Parser.Received :=
  ⟨f.flags, (f.carried o).map (·.kind), f.data⟩

end Wire

/-- The frames of a stream, one after another. -/
def stream (fs : List Wire) : Bytes := fs.flatMap Wire.bytes

def afterAll (o : Option Open) (fs : List Wire) : Option Open := fs.foldl (fun o f => f.after o) o

def receivedAll : Option Open → List Wire → List Parser.Received
  | _, [] => []
  | o, f :: fs => f.received o :: receivedAll (f.after o) fs

/-! ### The rules -/

/-- A frame that the rules allow behind the message that is open. -/
structure Obeys (rules : Rules) (o : Option Open) (f : Wire) : Prop where
  reserved : f.flags.reserved = 0
  known : f.flags.opcode?.isSome
  control : ∀ op, f.flags.opcode? = some op → op.isControl → f.flags.fin ∧ f.form = .short
  begins : f.flags.opcode? = some .text ∨ f.flags.opcode? = some .binary → o = none
  continues : f.flags.opcode? = some .continuation → o.isSome
  masked : rules.requireMask → f.key.isSome
  length : f.data.length < 0x8000000000000000
  size : f.data.length ≤ rules.maxPayload
  text : ∀ m, f.carried o = some m → m.kind = .text →
    Utf8.Extensible m.text ∧ (f.flags.fin → Utf8.WellFormed m.text)
  reason : f.flags.opcode? = some .close → 2 < f.data.length → Utf8.WellFormed (f.data.drop 2)

/-- Every frame obeys the rules, behind the frames before it. -/
def Legal (rules : Rules) : Option Open → List Wire → Prop
  | _, [] => True
  | o, f :: fs => Obeys rules o f ∧ Legal rules (f.after o) fs

/-- The rules that a frame breaks, each with the violation that reports it. -/
inductive Breaks (rules : Rules) (o : Option Open) (f : Wire) : Violation → Prop
  | reserved : f.flags.reserved ≠ 0 → Breaks rules o f (.reservedBits f.flags.reserved)
  | unknown : f.flags.opcode? = none → Breaks rules o f (.unknownOpcode f.flags.rawOpcode)
  | fragmented {op : Opcode} : f.flags.opcode? = some op → op.isControl → f.flags.fin = false →
      Breaks rules o f .fragmentedControl
  | begins : f.flags.opcode? = some .text ∨ f.flags.opcode? = some .binary → o.isSome →
      Breaks rules o f .expectedContinuation
  | continues : f.flags.opcode? = some .continuation → o = none →
      Breaks rules o f .unexpectedContinuation
  | unmasked : rules.requireMask → f.key = none → Breaks rules o f .unmasked
  | extended {op : Opcode} : f.flags.opcode? = some op → op.isControl → f.form ≠ .short →
      Breaks rules o f .controlTooLong
  | length : 0x8000000000000000 ≤ f.data.length → Breaks rules o f .invalidLength
  | size : rules.maxPayload < f.data.length →
      Breaks rules o f (.frameTooLarge f.data.length rules.maxPayload)
  | spoiled {m : Open} : f.carried o = some m → m.kind = .text → ¬ Utf8.Extensible m.text →
      Breaks rules o f .invalidUtf8
  | unfinished {m : Open} : f.carried o = some m → m.kind = .text → f.flags.fin →
      ¬ Utf8.WellFormed m.text → Breaks rules o f .invalidUtf8
  | reason : f.flags.opcode? = some .close → 2 < f.data.length →
      ¬ Utf8.WellFormed (f.data.drop 2) → Breaks rules o f .invalidUtf8

theorem obeys_iff {rules : Rules} {o : Option Open} {f : Wire} :
    Obeys rules o f ↔ ∀ v, ¬ Breaks rules o f v := by
  constructor
  · intro h v hv
    cases hv with
    | reserved hne => exact hne h.reserved
    | unknown hnone => simpa [hnone] using h.known
    | fragmented hop hc hfin => simpa [hfin] using (h.control _ hop hc).1
    | begins hop ho => simp [h.begins hop] at ho
    | continues hop ho => simpa [ho] using h.continues hop
    | unmasked hr hk => simpa [hk] using h.masked hr
    | extended hop hc hform => exact hform (h.control _ hop hc).2
    | length hlong => exact absurd h.length (by omega)
    | size hlarge => exact absurd h.size (by omega)
    | spoiled hm ht hbad => exact hbad (h.text _ hm ht).1
    | unfinished hm ht hfin hbad => exact hbad ((h.text _ hm ht).2 hfin)
    | reason hop hl hbad => exact hbad (h.reason hop hl)
  · intro h
    have hof {q : Prop} {v : Violation} (hv : ¬ q → Breaks rules o f v) : q :=
      Classical.byContradiction fun hq => h v (hv hq)
    refine ⟨hof .reserved, hof fun hn => .unknown (by simpa using hn), fun op hop hc =>
      ⟨hof fun hn => .fragmented hop hc (by simpa using hn), hof (.extended hop hc)⟩,
      fun hop => hof fun hn => .begins hop (by simpa [Option.isSome_iff_ne_none] using hn),
      fun hop => hof fun hn => .continues hop (by simpa using hn),
      fun hr => hof fun hn => .unmasked hr (by simpa using hn),
      hof fun hn => .length (by omega), hof fun hn => .size (by omega),
      fun m hm ht => ⟨hof (.spoiled hm ht), fun hfin => hof (.unfinished hm ht hfin)⟩,
      fun hop hl => hof (.reason hop hl)⟩

/-- Which byte of a frame shows that a rule is broken: one rule after another, from the first byte
to the last. -/
def Violation.stage : Violation → Nat
  | .reservedBits _ => 0
  | .unknownOpcode _ => 1
  | .fragmentedControl | .expectedContinuation | .unexpectedContinuation => 2
  | .unmasked => 3
  | .controlTooLong => 4
  | .invalidLength => 5
  | .frameTooLarge _ _ => 6
  | .messageTooLarge _ _ | .invalidUtf8 | .closePayloadCut | .invalidCloseCode _ | .socket _ => 7

/-- The violation of the first rule that the frame breaks. -/
def FirstBroken (rules : Rules) (o : Option Open) (f : Wire) (v : Violation) : Prop :=
  Breaks rules o f v ∧ ∀ w, Breaks rules o f w → v.stage ≤ w.stage

/-- A frame has one first broken rule. -/
theorem FirstBroken.unique {rules : Rules} {o : Option Open} {f : Wire} {v w : Violation}
    (hv : FirstBroken rules o f v) (hw : FirstBroken rules o f w) : v = w := by
  have hstage : v.stage = w.stage := Nat.le_antisymm (hv.2 w hw.1) (hw.2 v hv.1)
  cases hv.1 <;> cases hw.1 <;> grind [Violation.stage, Opcode.isControl]

/-- The frame breaks no rule of an earlier stage. -/
def Passes (rules : Rules) (o : Option Open) (f : Wire) (n : Nat) : Prop :=
  ∀ w, Breaks rules o f w → n ≤ w.stage

section
variable {rules : Rules} {o : Option Open} {f : Wire}

theorem passes_zero : Passes rules o f 0 := fun _ _ => Nat.zero_le _

theorem Passes.succ {n : Nat} (h : Passes rules o f n)
    (hn : ∀ w, Breaks rules o f w → w.stage ≠ n) : Passes rules o f (n + 1) := fun w hw =>
  Nat.lt_of_le_of_ne (h w hw) fun he => hn w hw he.symm

theorem Passes.firstBroken {v : Violation} (h : Passes rules o f v.stage)
    (hv : Breaks rules o f v) : FirstBroken rules o f v := ⟨hv, h⟩

/-- There is no rule behind the last stage. -/
theorem Passes.obeys (h : Passes rules o f 8) : Obeys rules o f := by
  rw [obeys_iff]
  intro v hv
  have := h v hv
  cases hv <;> simp [Violation.stage] at this

end

/-! ### The parser between two frames -/

namespace Parser

/-- The parser is between two frames, and knows of the open message what it needs. -/
structure Follows (rules : Rules) (o : Option Open) (p : Parser) : Prop where
  rules : p.rules = rules
  phase : p.phase = .op
  parsed : p.parsed = 0
  payload : p.payload = []
  current : p.current = o.map (·.kind)
  text : ∀ m, o = some m → m.kind = .text → Utf8.walk .boundary m.text = (p.utf8, [])
  idle : (∀ m, o = some m → m.kind ≠ .text) → p.utf8 = .boundary

variable {rules : Rules} {o : Option Open} {p : Parser}

theorem Follows.fresh (rules : Rules) : Follows rules none { rules } :=
  ⟨rfl, rfl, rfl, rfl, rfl, nofun, fun _ => rfl⟩

theorem readOp_flags (p : Parser) (fl : Flags) : p.readOp fl.bits =
    if fl.reserved ≠ 0 then .error (.reservedBits fl.reserved)
    else match fl.opcode? with
      | none => .error (.unknownOpcode fl.rawOpcode)
      | some op => (p.admits fl op).map fun kind =>
        { p with phase := .len, flags := fl, opcode := op, current := kind } := by
  unfold readOp
  by_cases hres : fl.reserved = 0
  · simp only [hres, ne_eq, not_true_eq_false, if_false]
    cases fl.opcode? with
    | none => rfl
    | some op => cases hk : p.admits fl op <;> simp [hk] <;> rfl
  · simp only [ne_eq, hres, not_false_eq_true, if_true]
    rfl

/-- Whether the opcode fits the open message. -/
theorem admits_of_follows (h : Follows rules o p) {f : Wire} {op : Opcode}
    (hop : f.flags.opcode? = some op) (h2 : Passes rules o f 2) :
    (∃ v, p.admits f.flags op = .error v ∧ FirstBroken rules o f v) ∨
      Passes rules o f 3 ∧ p.admits f.flags op =
        .ok (if op.isControl then p.current else (f.carried o).map (·.kind)) := by
  have hcurrent := h.current
  have hcontrol (hc : op.isControl) (hadmits : p.admits f.flags op =
      if f.flags.fin then .ok p.current else .error .fragmentedControl) :
      (∃ v, p.admits f.flags op = .error v ∧ FirstBroken rules o f v) ∨
        Passes rules o f 3 ∧ p.admits f.flags op =
          .ok (if op.isControl then p.current else (f.carried o).map (·.kind)) := by
    rw [hadmits, if_pos hc]
    by_cases hfin : f.flags.fin
    · refine .inr ⟨h2.succ fun w hw => ?_, if_pos hfin⟩
      cases hw <;> grind [Violation.stage, Opcode.isControl]
    · refine .inl ⟨.fragmentedControl, if_neg hfin, h2.firstBroken (.fragmented hop hc ?_)⟩
      simpa using hfin
  cases op with
  | continuation =>
    cases o with
    | none =>
      refine .inl ⟨.unexpectedContinuation, ?_, h2.firstBroken (.continues hop rfl)⟩
      simp [admits, hcurrent]
    | some m =>
      refine .inr ⟨h2.succ fun w hw => ?_, ?_⟩
      · cases hw <;> simp_all [Violation.stage, Opcode.isControl]
      · simp [admits, hcurrent, Opcode.isControl, Wire.carried, hop]
  | text =>
    cases o with
    | none =>
      refine .inr ⟨h2.succ fun w hw => ?_, ?_⟩
      · cases hw <;> simp_all [Violation.stage, Opcode.isControl]
      · simp [admits, hcurrent, Opcode.isControl, Wire.carried, hop]
    | some m =>
      refine .inl ⟨.expectedContinuation, ?_, h2.firstBroken (.begins (.inl hop) rfl)⟩
      simp [admits, hcurrent]
  | binary =>
    cases o with
    | none =>
      refine .inr ⟨h2.succ fun w hw => ?_, ?_⟩
      · cases hw <;> simp_all [Violation.stage, Opcode.isControl]
      · simp [admits, hcurrent, Opcode.isControl, Wire.carried, hop]
    | some m =>
      refine .inl ⟨.expectedContinuation, ?_, h2.firstBroken (.begins (.inr hop) rfl)⟩
      simp [admits, hcurrent]
  | close => exact hcontrol rfl rfl
  | ping => exact hcontrol rfl rfl
  | pong => exact hcontrol rfl rfl

/-- The checks of the first byte. -/
theorem readOp_of_follows (h : Follows rules o p) (f : Wire) :
    (∃ v, p.readOp f.flags.bits = .error v ∧ FirstBroken rules o f v) ∨
      ∃ op, f.flags.opcode? = some op ∧ Passes rules o f 3 ∧
        p.readOp f.flags.bits = .ok { p with
          phase := .len, flags := f.flags, opcode := op
          current := if op.isControl then p.current else (f.carried o).map (·.kind) } := by
  rw [readOp_flags]
  by_cases hres : f.flags.reserved = 0
  · rw [if_neg (by simpa using hres)]
    have h1 : Passes rules o f 1 := passes_zero.succ fun w hw => by
      cases hw <;> simp_all [Violation.stage]
    cases hop : f.flags.opcode? with
    | none => exact .inl ⟨_, rfl, h1.firstBroken (.unknown hop)⟩
    | some op =>
      have h2 : Passes rules o f 2 := h1.succ fun w hw => by
        cases hw <;> simp_all [Violation.stage]
      rcases admits_of_follows h hop h2 with ⟨v, hv, hbad⟩ | ⟨h3, hk⟩
      · exact .inl ⟨v, by simp [hv, Except.map], hbad⟩
      · exact .inr ⟨op, rfl, h3, by simp [hk, Except.map]⟩
  · rw [if_pos hres]
    exact .inl ⟨_, rfl, passes_zero.firstBroken (.reserved hres)⟩

/-- The parser behind the first byte of a frame. -/
def entered (p : Parser) (f : Wire) (o : Option Open) (op : Opcode) : Parser :=
  { p with
    phase := .len, flags := f.flags, opcode := op
    current := if op.isControl then p.current else (f.carried o).map (·.kind) }

theorem carried_of_control {f : Wire} {op : Opcode} (hop : f.flags.opcode? = some op)
    (hc : op.isControl) : f.carried o = none := by
  cases op <;> simp [Opcode.isControl] at hc <;> simp [Wire.carried, hop]

/-- Text is checked exactly in the frames that carry it. -/
theorem inText_entered {f : Wire} {op : Opcode} (hop : f.flags.opcode? = some op) :
    (p.entered f o op).inText = true ↔ ∃ m, f.carried o = some m ∧ m.kind = .text := by
  by_cases hc : op.isControl
  · simp [inText, entered, Opcode.isData, hc, carried_of_control hop hc]
  · simp [inText, entered, Opcode.isData, hc]

/-- The check goes on where the frames before left it. -/
theorem walk_carried (h : Follows rules o p) {f : Wire} (h3 : Passes rules o f 3) {m : Open}
    (hm : f.carried o = some m) (ht : m.kind = .text) :
    Utf8.walk p.utf8 f.data = Utf8.walk .boundary m.text := by
  simp only [Wire.carried] at hm
  split at hm
  · obtain ⟨m', rfl, rfl⟩ := Option.map_eq_some_iff.1 hm
    have hwalk := h.text m' rfl ht
    rw [Utf8.walk_append _ _ _ (by rw [hwalk]), hwalk]
  · rename_i hop
    cases hm
    have hidle : o = none := by
      cases o with
      | none => rfl
      | some m' => exact absurd (h3 _ (.begins (.inl hop) rfl)) (by simp [Violation.stage])
    rw [h.idle (by simp [hidle])]
  · cases hm
    cases ht
  · cases hm

/-- A data frame that passes the first byte carries a message. -/
theorem exists_carried {f : Wire} {op : Opcode} (hop : f.flags.opcode? = some op)
    (hc : op.isControl = false) (h3 : Passes rules o f 3) : ∃ m, f.carried o = some m := by
  cases op with
  | continuation =>
    cases o with
    | none => exact absurd (h3 _ (.continues hop rfl)) (by simp [Violation.stage])
    | some m => exact ⟨{ m with text := m.text ++ f.data }, by simp [Wire.carried, hop]⟩
  | text => exact ⟨⟨.text, f.data⟩, by simp [Wire.carried, hop]⟩
  | binary => exact ⟨⟨.binary, f.data⟩, by simp [Wire.carried, hop]⟩
  | close => cases hc
  | ping => cases hc
  | pong => cases hc

/-- A message that is not text left the check of text alone. -/
theorem idle_carried (h : Follows rules o p) {f : Wire} (h3 : Passes rules o f 3) {m : Open}
    (hm : f.carried o = some m) (ht : m.kind ≠ .text) : p.utf8 = .boundary := by
  simp only [Wire.carried] at hm
  split at hm
  · obtain ⟨m', rfl, rfl⟩ := Option.map_eq_some_iff.1 hm
    exact h.idle fun m hm => by cases hm; exact ht
  · cases hm
    exact absurd rfl ht
  · rename_i hop
    refine h.idle fun m' ho => ?_
    exact absurd (h3 _ (.begins (.inr hop) (by simp [ho]))) (by simp [Violation.stage])
  · cases hm

/-- The parser with a whole frame in it. -/
def completed (p : Parser) (f : Wire) (o : Option Open) (op : Opcode) : Parser :=
  { (p.entered f o op).filled f.mask f.data with phase := .complete }

theorem received_completed (f : Wire) {op : Opcode} (hop : f.flags.opcode? = some op) :
    (p.completed f o op).received = f.received o := by
  by_cases hc : op.isControl
  · simp [Parser.received, Wire.received, messageKind, completed, filled, entered, Opcode.isData,
      hc, carried_of_control hop hc]
  · simp [Parser.received, Wire.received, messageKind, completed, filled, entered, Opcode.isData,
      hc]

/-- Behind a whole frame the parser is between two frames again. -/
theorem follows_completed (h : Follows rules o p) {f : Wire} {op : Opcode}
    (hop : f.flags.opcode? = some op) (h3 : Passes rules o f 3)
    (htext : ∀ m, f.carried o = some m → m.kind = .text → Utf8.Extensible m.text) :
    Follows rules (f.after o) (p.completed f o op).reset := by
  cases hc : op.isControl with
  | true =>
    have hnone := carried_of_control (o := o) hop hc
    have hafter : f.after o = o := by simp [Wire.after, hnone]
    rw [hafter]
    refine ⟨h.rules, rfl, rfl, rfl, ?_, ?_, ?_⟩
    · simpa [reset, completed, filled, entered, Opcode.isData, hc] using h.current
    · simpa [reset, completed, filled, entered, inText, Opcode.isData, hc] using h.text
    · simpa [reset, completed, filled, entered, inText, Opcode.isData, hc] using h.idle
  | false =>
    obtain ⟨m, hm⟩ := exists_carried hop hc h3
    cases hfin : f.flags.fin with
    | true =>
      have hafter : f.after o = none := by simp [Wire.after, hm, hfin]
      rw [hafter]
      refine ⟨h.rules, rfl, rfl, rfl, ?_, by simp, fun _ => ?_⟩
      · simp [reset, completed, filled, entered, isComplete, Opcode.isData, hc, hfin]
      · simp [reset, completed, filled, entered, isComplete, Opcode.isData, hc, hfin]
    | false =>
      have hafter : f.after o = some m := by simp [Wire.after, hm, hfin]
      rw [hafter]
      refine ⟨h.rules, rfl, rfl, rfl, ?_, ?_, ?_⟩
      · simp [reset, completed, filled, entered, hc, hfin, hm]
      · rintro m' hm' ht
        cases hm'
        have hwalk := (Utf8.walk_eq_nil_iff m.text).2 (htext m hm ht)
        have hin : (p.entered f o op).inText = true := (inText_entered hop).2 ⟨m, hm, ht⟩
        have hutf8 : (p.completed f o op).reset.utf8 = (Utf8.walk p.utf8 f.data).1 := by
          simp only [reset, completed, filled, hin]
          simp [entered, hfin]
        rw [hutf8, walk_carried h h3 hm ht, ← hwalk]
      · intro hidle
        have ht : m.kind ≠ .text := hidle m rfl
        have hin : (p.entered f o op).inText = false := by
          rw [← Bool.not_eq_true, inText_entered hop]
          rintro ⟨m', hm', ht'⟩
          rw [hm] at hm'
          cases hm'
          exact ht ht'
        have hutf8 : (p.completed f o op).reset.utf8 = p.utf8 := by
          simp only [reset, completed, filled, hin]
          simp [entered, hfin]
        rw [hutf8, idle_carried h h3 hm ht]

theorem finish_filled (p : Parser) (f : Wire) (o : Option Open) (op : Opcode) (rest : Bytes) :
    (((p.entered f o op).filled f.mask f.data).finish rest).result =
      if (p.entered f o op).inText && f.flags.fin &&
          ((p.entered f o op).filled f.mask f.data).utf8 != .boundary then .error .invalidUtf8
      else if op == .close && f.data.length > 2 && !Utf8.valid (f.data.drop 2) then
        .error .invalidUtf8
      else .ok (p.completed f o op, rest) := by
  unfold finish
  split
  · rename_i h
    exact (if_pos h).symm
  · rename_i h
    refine Eq.trans ?_ (if_neg h).symm
    split
    · rename_i h
      exact (if_pos h).symm
    · rename_i h
      exact (if_neg h).symm

/-- What becomes of a frame: the parser takes it and waits for the next, or it reports the first
rule that the frame breaks. -/
def Decides (rules : Rules) (o : Option Open) (f : Wire) (rest : Bytes)
    (r : Except Violation (Parser × Bytes)) : Prop :=
  (∃ v, r = .error v ∧ FirstBroken rules o f v) ∨
    Obeys rules o f ∧ ∃ q, r = .ok (q, rest) ∧ q.isComplete ∧ q.received = f.received o ∧
      Follows rules (f.after o) q.reset

theorem Decides.taken (h : Follows rules o p) {f : Wire} {op : Opcode}
    (hop : f.flags.opcode? = some op) (h8 : Passes rules o f 8) (rest : Bytes)
    (htext : ∀ m, f.carried o = some m → m.kind = .text → Utf8.Extensible m.text) :
    Decides rules o f rest (.ok (p.completed f o op, rest)) := by
  have h3 : Passes rules o f 3 := fun w hw => Nat.le_trans (by decide) (h8 w hw)
  exact .inr ⟨h8.obeys, _, rfl, rfl, received_completed f hop, follows_completed h hop h3 htext⟩

/-- Text has to go on well, and to end well with the message. -/
theorem conclude_text (h : Follows rules o p) {f : Wire} {op : Opcode}
    (hop : f.flags.opcode? = some op) (h7 : Passes rules o f 7) (rest : Bytes) {m : Open}
    (hm : f.carried o = some m) (ht : m.kind = .text) :
    Decides rules o f rest ((p.entered f o op).conclude f rest) := by
  have h3 : Passes rules o f 3 := fun w hw => Nat.le_trans (by decide) (h7 w hw)
  have hin : (p.entered f o op).inText = true := (inText_entered hop).2 ⟨m, hm, ht⟩
  have hclose : op ≠ .close := by
    rintro rfl
    simp [carried_of_control (o := o) hop rfl] at hm
  have hwalk : Utf8.walk (p.entered f o op).utf8 f.data = Utf8.walk .boundary m.text :=
    walk_carried h h3 hm ht
  rw [conclude, finish_filled]
  by_cases hext : Utf8.Extensible m.text
  · have hnil := (Utf8.walk_eq_nil_iff m.text).2 hext
    have hspoils : (p.entered f o op).spoils f.data = false := by
      simp [spoils, hwalk, hnil]
    have hutf8 : ((p.entered f o op).filled f.mask f.data).utf8 =
        (Utf8.walk .boundary m.text).1 := by
      simp only [filled, hin, if_true, hwalk]
    have hreason : ¬ (op == .close && f.data.length > 2 && !Utf8.valid (f.data.drop 2)) := by
      simp [hclose]
    rw [if_neg (by simp [hspoils]), hutf8, if_neg hreason]
    by_cases hend : f.flags.fin ∧ ¬ Utf8.WellFormed m.text
    · have hmiddle : (Utf8.walk .boundary m.text).1 ≠ .boundary := fun hb =>
        hend.2 ((Utf8.walk_eq_boundary_iff m.text).1 (Prod.ext hb hnil))
      refine .inl ⟨.invalidUtf8, if_pos ?_, h7.firstBroken (.unfinished hm ht hend.1 hend.2)⟩
      simp [hin, hend.1, hmiddle]
    · have hgood : ¬ ((p.entered f o op).inText && f.flags.fin &&
          (Utf8.walk .boundary m.text).1 != .boundary) := by
        intro hbad
        simp only [Bool.and_eq_true, bne_iff_ne] at hbad
        have hwell : Utf8.WellFormed m.text :=
          Classical.byContradiction fun hn => hend ⟨hbad.1.2, hn⟩
        exact hbad.2 (congrArg Prod.fst ((Utf8.walk_eq_boundary_iff m.text).2 hwell))
      have h8 : Passes rules o f 8 := h7.succ fun w hw => by
        cases hw <;> grind [Violation.stage]
      rw [if_neg hgood]
      refine .taken h hop h8 rest fun m' hm' _ => ?_
      rw [hm] at hm'
      cases hm'
      exact hext
  · have hbad : (Utf8.walk .boundary m.text).2 ≠ [] := fun hnil =>
      hext ((Utf8.walk_eq_nil_iff m.text).1 hnil)
    have hspoils : (p.entered f o op).spoils f.data = true := by
      simp [spoils, hwalk, hbad, hin]
    exact .inl ⟨.invalidUtf8, if_pos hspoils, h7.firstBroken (.spoiled hm ht hext)⟩

/-- Of other frames only the reason of a close is looked at. -/
theorem conclude_other (h : Follows rules o p) {f : Wire} {op : Opcode}
    (hop : f.flags.opcode? = some op) (h7 : Passes rules o f 7) (rest : Bytes)
    (htext : ¬ ∃ m, f.carried o = some m ∧ m.kind = .text) :
    Decides rules o f rest ((p.entered f o op).conclude f rest) := by
  have hin : (p.entered f o op).inText = false := by
    rw [← Bool.not_eq_true, inText_entered hop]
    exact htext
  have hspoils : (p.entered f o op).spoils f.data = false := by simp [spoils, hin]
  rw [conclude, finish_filled, if_neg (by simp [hspoils]), if_neg (by simp [hin])]
  by_cases hreason : op = .close ∧ 2 < f.data.length ∧ ¬ Utf8.WellFormed (f.data.drop 2)
  · obtain ⟨rfl, hlen, hbad⟩ := hreason
    refine .inl ⟨.invalidUtf8, if_pos ?_, h7.firstBroken (.reason hop hlen hbad)⟩
    simpa [hlen, ← Utf8.valid_iff] using hbad
  · have hgood : ¬ (op == .close && f.data.length > 2 && !Utf8.valid (f.data.drop 2)) := by
      simpa [← Utf8.valid_iff] using hreason
    have h8 : Passes rules o f 8 := h7.succ fun w hw => by
      cases hw <;> grind [Violation.stage]
    rw [if_neg hgood]
    exact .taken h hop h8 rest fun m hm ht => absurd ⟨m, hm, ht⟩ htext

/-- One call on a frame: it takes the frame, or reports the first rule that the frame breaks. -/
theorem parse_of_follows (h : Follows rules o p) (f : Wire) (rest : Bytes) :
    Decides rules o f rest (p.parse (f.bytes ++ rest)).result := by
  rw [parse_bytes p f rest h.phase h.parsed h.payload, h.rules]
  rcases readOp_of_follows h f with ⟨v, hv, hbad⟩ | ⟨op, hop, h3, hq⟩
  · exact .inl ⟨v, by rw [hv]; rfl, hbad⟩
  rw [hq, Except.bind]
  by_cases hmask : f.key.isNone && rules.requireMask
  · rw [Bool.and_eq_true, Option.isNone_iff_eq_none] at hmask
    refine .inl ⟨.unmasked, by simp [hmask], h3.firstBroken (.unmasked hmask.2 hmask.1)⟩
  have h4 : Passes rules o f 4 := h3.succ fun w hw => by
    cases hw <;> simp_all [Violation.stage]
  by_cases hcontrol : op.isControl && f.form != .short
  · have hcontrol' : op.isControl ∧ f.form ≠ .short := by simpa using hcontrol
    refine .inl ⟨.controlTooLong, by simp [hmask, hcontrol'],
      h4.firstBroken (.extended hop hcontrol'.1 hcontrol'.2)⟩
  have h5 : Passes rules o f 5 := h4.succ fun w hw => by
    cases hw <;> simp_all [Violation.stage]
  by_cases hlong : 0x8000000000000000 ≤ f.data.length
  · refine .inl ⟨.invalidLength, ?_, h5.firstBroken (.length hlong)⟩
    rw [if_neg hmask, if_neg hcontrol, if_pos hlong]
  have h6 : Passes rules o f 6 := h5.succ fun w hw => by
    cases hw <;> simp_all [Violation.stage]
  by_cases hlarge : rules.maxPayload < f.data.length
  · refine .inl ⟨_, ?_, h6.firstBroken (.size hlarge)⟩
    rw [if_neg hmask, if_neg hcontrol, if_neg hlong, if_pos hlarge]
  have h7 : Passes rules o f 7 := h6.succ fun w hw => by
    cases hw <;> simp_all [Violation.stage]
  rw [if_neg hmask, if_neg hcontrol, if_neg hlong, if_neg hlarge]
  by_cases htext : ∃ m, f.carried o = some m ∧ m.kind = .text
  · obtain ⟨m, hm, ht⟩ := htext
    exact conclude_text h hop h7 rest hm ht
  · exact conclude_other h hop h7 rest htext

/-! ### Streams -/

/-- Reading frames one after another, from between two of them: the frames in front of the first one
that breaks a rule, and that rule. -/
theorem read_stream (h : Follows rules o p) (fs : List Wire) :
    (Legal rules o fs ∧ ∃ q, (p.read (stream fs)).verdict = (receivedAll o fs, .ok q)) ∨
      ∃ front f back v, fs = front ++ f :: back ∧ Legal rules o front ∧
        FirstBroken rules (afterAll o front) f v ∧
        (p.read (stream fs)).verdict = (receivedAll o front, .error v) := by
  induction fs generalizing o p with
  | nil => exact .inl ⟨trivial, p, read_nil p⟩
  | cons f fs ih =>
    have hs : p.Steady := by
      rw [Steady, h.phase]
      exact ⟨h.parsed, h.payload⟩
    have hc : p.isComplete = false := by simp [isComplete, h.phase]
    rw [stream, List.flatMap_cons, verdict_read hs hc, firstCall]
    rcases parse_of_follows h f (stream fs) with ⟨v, hv, hbad⟩ | ⟨hf, q, hq, hqc, hqr, hnext⟩
    · refine .inr ⟨[], f, fs, v, rfl, trivial, hbad, ?_⟩
      rw [stream] at hv
      rw [hv]
      rfl
    · rw [stream] at hq
      simp only [hq, hqc, if_true, hqr, andThen]
      rcases ih hnext with ⟨hlegal, r, hr⟩ | ⟨front, g, back, v, rfl, hlegal, hbad, hr⟩
      · rw [stream] at hr
        exact .inl ⟨⟨hf, hlegal⟩, r, by rw [hr]; rfl⟩
      · rw [stream] at hr
        exact .inr ⟨f :: front, g, back, v, rfl, ⟨hf, hlegal⟩, hbad, by rw [hr]; rfl⟩

theorem legal_append {fs gs : List Wire} :
    Legal rules o (fs ++ gs) ↔ Legal rules o fs ∧ Legal rules (afterAll o fs) gs := by
  induction fs generalizing o with
  | nil => simp [Legal, afterAll]
  | cons f fs ih => simp only [List.cons_append, Legal, ih, afterAll, List.foldl_cons, and_assoc]

/-- A fresh parser takes every frame of a stream, however it is cut, exactly when the frames are a
legal sequence; otherwise it takes the frames before the first one that breaks a rule, and reports
the first rule that this one breaks. -/
theorem readChunks_stream (rules : Rules) (fs : List Wire) (chunks : List Bytes)
    (h : chunks.flatten = stream fs) :
    ((∃ q, ({ rules } : Parser).readChunks chunks = (receivedAll none fs, .ok q)) ↔
        Legal rules none fs) ∧
      (¬ Legal rules none fs → ∃ front f back v, fs = front ++ f :: back ∧
        Legal rules none front ∧ FirstBroken rules (afterAll none front) f v ∧
        ({ rules } : Parser).readChunks chunks = (receivedAll none front, .error v)) := by
  have hs : ({ rules } : Parser).Steady := ⟨rfl, rfl⟩
  rw [readChunks_eq_read hs rfl, h]
  rcases read_stream (Follows.fresh rules) fs with
    ⟨hl, q, hq⟩ | ⟨front, f, back, v, rfl, hl, hv, hr⟩
  · exact ⟨⟨fun _ => hl, fun _ => ⟨q, hq⟩⟩, fun hn => absurd hl hn⟩
  · have hn : ¬ Legal rules none (front ++ f :: back) := by
      rw [legal_append]
      exact fun hlegal => obeys_iff.1 hlegal.2.1 v hv.1
    refine ⟨⟨?_, fun hlegal => absurd hlegal hn⟩, fun _ => ⟨front, f, back, v, rfl, hl, hv, hr⟩⟩
    rintro ⟨q, hq⟩
    rw [hq] at hr
    cases congrArg Prod.snd hr

/-- A masked text of two frames with a ping between them, the longer length forms used where the
short one would do: it is read whole from three chunks, so it is legal. -/
theorem readChunks_stream_fragmented_text :
    [[0x01, 0xFF, 0, 0, 0, 0], [], [0, 0, 0, 1, 1, 2, 3, 4, 0xC2, 0x89, 0x80, 9, 9, 9, 9,
        0x80, 0xFE, 0, 1, 5, 6, 7, 8, 0xAC]].flatten =
      stream [⟨⟨0x01⟩, .long, some ⟨1, 2, 3, 4⟩, [0xC3], by decide⟩,
        ⟨⟨0x89⟩, .short, some ⟨9, 9, 9, 9⟩, [], by decide⟩,
        ⟨⟨0x80⟩, .medium, some ⟨5, 6, 7, 8⟩, [0xA9], by decide⟩] ∧
    Legal {} none [⟨⟨0x01⟩, .long, some ⟨1, 2, 3, 4⟩, [0xC3], by decide⟩,
      ⟨⟨0x89⟩, .short, some ⟨9, 9, 9, 9⟩, [], by decide⟩,
      ⟨⟨0x80⟩, .medium, some ⟨5, 6, 7, 8⟩, [0xA9], by decide⟩] :=
  ⟨by decide, (readChunks_stream {} _ [[0x01, 0xFF, 0, 0, 0, 0], [], [0, 0, 0, 1, 1, 2, 3, 4, 0xC2,
    0x89, 0x80, 9, 9, 9, 9, 0x80, 0xFE, 0, 1, 5, 6, 7, 8, 0xAC]] (by decide)).1.1
      ⟨{ flags := ⟨0x80⟩ }, by rfl⟩⟩

end Parser

end WireServer.WebSocket
