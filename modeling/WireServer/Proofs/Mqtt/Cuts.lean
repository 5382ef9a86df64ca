import Mathlib.Data.List.Basic
import WireServer.Mqtt.Session

/-! However the input of an MQTT session is cut into pieces, reading the pieces one behind the other
comes to what reading all of it at once would, up to the first error. -/

namespace WireServer.Mqtt.Session

variable {s s' : Session} {limit : Nat}

/-- A session between two reads: no packet waits to be completed, and a body that is read is not
full; without one, nothing is left of the body before. -/
structure Steady (s : Session) : Prop where
  incomplete : s.phase ≠ .complete
  room : ∀ n, s.phase = .body n → s.body.length < n
  empty : (∀ n, s.phase ≠ .body n) → s.body = []

theorem steady_fresh : Steady {} := ⟨nofun, nofun, fun _ => rfl⟩

theorem steady_reset (h : s.body = []) : s.reset.Steady := ⟨nofun, nofun, fun _ => h⟩

/-- Goes on behind a reading that did not fail. -/
def andThen {β γ : Type} (r : Session × Except Error β)
    (next : Session → β → Session × Except Error γ) : Session × Except Error γ :=
  match r with
  | (s, .error e) => (s, .error e)
  | (s, .ok b) => next s b

section

variable {β γ : Type} (next : Session → β → Session × Except Error γ)

@[simp] theorem andThen_error (e : Error) : andThen (s, .error e) next = (s, .error e) := rfl

@[simp] theorem andThen_ok (b : β) : andThen (s, .ok b) next = next s b := rfl

end

/-! ### One packet -/

theorem parse_nil : s.parse limit [] = (s, .ok []) := by rw [parse]

theorem parse_complete (h : s.phase = .complete) (src : Bytes) :
    s.parse limit src = (s, .ok src) := by
  cases src <;> simp [parse, h]

theorem parse_control (h : s.phase = .control) (b : UInt8) (rest : Bytes) :
    s.parse limit (b :: rest) =
      ({ s with control := b, phase := .length 0 0 1 } : Session).parse limit rest := by
  rw [parse, h]

theorem parse_length {value weight : UInt64} {count b : UInt8}
    (h : s.phase = .length value count weight)
    (hread : s.readLength limit value count weight b = (s', none)) (rest : Bytes) :
    s.parse limit (b :: rest) = s'.parse limit rest := by
  simp only [parse, h, hread]

theorem parse_length_error {value weight : UInt64} {count b : UInt8} {e : Error}
    (h : s.phase = .length value count weight)
    (hread : s.readLength limit value count weight b = (s', some e)) (rest : Bytes) :
    s.parse limit (b :: rest) = (s', .error e) := by
  simp only [parse, h, hread]

theorem readBody_nil {n : Nat} (h : s.phase = .body n) (hroom : s.body.length < n) :
    s.readBody n [] = (s, []) := by
  obtain ⟨⟩ := s
  simp_all [readBody, Nat.ne_of_lt]

theorem parse_body {n : Nat} (h : s.phase = .body n) (hroom : s.body.length < n) (src : Bytes) :
    s.parse limit src = ((s.readBody n src).1, .ok (s.readBody n src).2) := by
  cases src with
  | nil => rw [parse_nil, readBody_nil h hroom]
  | cons b rest => rw [parse, h]

theorem readBody_of_short {n : Nat} {src : Bytes} (h : s.body.length + src.length < n) :
    s.readBody n src = ({ s with body := s.body ++ src, phase := .body n }, []) := by
  have htake : src.take (n - s.body.length) = src := List.take_of_length_le (by omega)
  have hne : s.body.length + src.length ≠ n := by omega
  simp only [readBody, htake, List.length_append, hne, if_false]
  rw [List.drop_eq_nil_of_le (by omega)]

theorem readBody_of_long {n : Nat} {src : Bytes} (hroom : s.body.length < n)
    (h : n ≤ s.body.length + src.length) :
    s.readBody n src = ({ s with
      body := s.body ++ src.take (n - s.body.length), phase := .complete },
      src.drop (n - s.body.length)) := by
  have hfull : (s.body ++ src.take (n - s.body.length)).length = n := by
    rw [List.length_append, List.length_take_of_le (by omega)]; omega
  simp only [readBody, hfull, if_true]

theorem readBody_append_of_short {n : Nat} {xs : Bytes} (h : s.body.length + xs.length < n)
    (ys : Bytes) :
    s.readBody n (xs ++ ys) =
      ({ s with body := s.body ++ xs, phase := .body n } : Session).readBody n ys := by
  have hneed : n - s.body.length = xs.length + (n - (s.body ++ xs).length) := by
    rw [List.length_append]; omega
  simp only [readBody]
  rw [hneed, List.take_length_add_append, List.drop_length_add_append, List.append_assoc]

/-- One byte of a length changes the phase alone: to the end of the packet, to its body, or to more
of the length. -/
theorem readLength_none {value weight : UInt64} {count b : UInt8}
    (h : s.readLength limit value count weight b = (s', none)) :
    s' = { s with phase := .complete } ∨ (∃ n, 0 < n ∧ s' = { s with phase := .body n }) ∨
      ∃ value count weight, s' = { s with phase := .length value count weight } := by
  simp only [readLength] at h
  split at h
  · split at h
    · cases h
    · cases h; exact .inr (.inr ⟨_, _, _, rfl⟩)
  · split at h
    · cases h
    · split at h
      · cases h; exact .inl rfl
      · rename_i hne
        cases h
        exact .inr (.inl ⟨_, Nat.pos_of_ne_zero fun h0 => hne (UInt64.toNat_inj.mp h0), rfl⟩)

theorem Steady.of_control (h : s.phase = .control) (hs : s.Steady) (b : UInt8) :
    Steady { s with control := b, phase := .length 0 0 1 } :=
  ⟨nofun, nofun, fun _ => hs.empty fun _ => h ▸ nofun⟩

theorem Steady.of_readLength {value weight v w : UInt64} {count c b : UInt8} (hs : s.Steady)
    (h : s.phase = .length v c w)
    (hread : s.readLength limit value count weight b = (s', none)) :
    s'.phase = .complete ∨ s'.Steady := by
  have hempty : s.body = [] := hs.empty fun _ => h ▸ nofun
  obtain rfl | ⟨n, hn, rfl⟩ | ⟨value, count, weight, rfl⟩ := readLength_none hread
  · exact .inl rfl
  · refine .inr ⟨nofun, ?_, fun hno => absurd rfl (hno n)⟩
    rintro m ⟨⟩
    simpa [hempty] using hn
  · exact .inr ⟨nofun, nofun, fun _ => hempty⟩

/-- A piece either holds the end of the packet, or all of it is used up and the session can wait
for the next one. -/
theorem Steady.of_parse {src rest : Bytes} (hs : s.Steady)
    (h : s.parse limit src = (s', .ok rest)) :
    (s'.phase = .complete ∧ rest.length < src.length) ∨ (s'.Steady ∧ rest = []) := by
  induction src generalizing s with
  | nil =>
    rw [parse_nil] at h
    cases h
    exact .inr ⟨hs, rfl⟩
  | cons b src ih =>
    have shorter {s₁ : Session} (hs₁ : s₁.Steady) (h₁ : s₁.parse limit src = (s', .ok rest)) :
        (s'.phase = .complete ∧ rest.length < (b :: src).length) ∨ (s'.Steady ∧ rest = []) :=
      (ih hs₁ h₁).imp_left (.imp_right Nat.lt_succ_of_lt)
    cases hphase : s.phase with
    | complete => exact absurd hphase hs.incomplete
    | control =>
      rw [parse_control hphase] at h
      exact shorter (hs.of_control hphase b) h
    | length value count weight =>
      rcases hread : s.readLength limit value count weight b with ⟨s₁, _ | e⟩
      · rw [parse_length hphase hread] at h
        obtain hdone | hs₁ := hs.of_readLength hphase hread
        · rw [parse_complete hdone] at h
          cases h
          exact .inl ⟨hdone, Nat.lt_succ_self _⟩
        · exact shorter hs₁ h
      · rw [parse_length_error hphase hread] at h
        cases h
    | body n =>
      have hroom := hs.room n hphase
      rw [parse_body hphase hroom] at h
      by_cases hlong : n ≤ s.body.length + (b :: src).length
      · rw [readBody_of_long hroom hlong] at h
        cases h
        exact .inl ⟨rfl, by simp; omega⟩
      · rw [readBody_of_short (by omega)] at h
        cases h
        refine .inr ⟨⟨nofun, ?_, fun hno => absurd rfl (hno n)⟩, rfl⟩
        rintro m ⟨⟩
        simpa using hlong

/-- What a session has told its client, and been told by it. -/
structure Talk where
  connect : Option Connect
  disconnecting : Bool
  out : Net.Chain

def talk (s : Session) : Talk := ⟨s.connect, s.disconnecting, s.out⟩

theorem readLength_talk (limit : Nat) (s : Session) (value weight : UInt64) (count b : UInt8) :
    (s.readLength limit value count weight b).1.talk = s.talk := by
  simp only [readLength]
  split <;> (split <;> rfl)

/-- Nothing is answered in the midst of a packet. -/
theorem parse_talk (limit : Nat) (s : Session) (src : Bytes) :
    (s.parse limit src).1.talk = s.talk := by
  induction src generalizing s with
  | nil => rw [parse_nil]
  | cons b rest ih =>
    cases hphase : s.phase with
    | complete => rw [parse_complete hphase]
    | control => rw [parse_control hphase]; exact ih _
    | length value count weight =>
      have htalk := readLength_talk limit s value weight count b
      rcases hread : s.readLength limit value count weight b with ⟨s₁, _ | e⟩
      · rw [hread] at htalk
        rw [parse_length hphase hread]
        exact (ih s₁).trans htalk
      · rw [hread] at htalk
        rwa [parse_length_error hphase hread]
    | body n => simp only [parse, hphase]; rfl

/-- What is left when a piece is parsed goes in front of the next one. -/
theorem parse_append (hs : s.Steady) (xs ys : Bytes) :
    s.parse limit (xs ++ ys) = andThen (s.parse limit xs) fun s' rest =>
      if s'.phase = .complete then (s', .ok (rest ++ ys)) else s'.parse limit ys := by
  induction xs generalizing s with
  | nil => simp only [List.nil_append, parse_nil, andThen_ok, if_neg hs.incomplete]
  | cons b xs ih =>
    cases hphase : s.phase with
    | complete => exact absurd hphase hs.incomplete
    | control => rw [List.cons_append, parse_control hphase, parse_control hphase,
        ih (hs.of_control hphase b)]
    | length value count weight =>
      rw [List.cons_append]
      rcases hread : s.readLength limit value count weight b with ⟨s₁, _ | e⟩
      · rw [parse_length hphase hread, parse_length hphase hread]
        obtain hdone | hs₁ := hs.of_readLength hphase hread
        · simp only [parse_complete hdone, andThen_ok, hdone, if_true]
        · exact ih hs₁
      · simp only [parse_length_error hphase hread, andThen_error]
    | body n =>
      have hroom := hs.room n hphase
      rw [parse_body hphase hroom, parse_body hphase hroom]
      by_cases hlong : n ≤ s.body.length + (b :: xs).length
      · have hneed : n - s.body.length ≤ (b :: xs).length := by omega
        have hlong' : n ≤ s.body.length + (b :: xs ++ ys).length := by
          rw [List.length_append]; omega
        rw [readBody_of_long hroom hlong, readBody_of_long hroom hlong']
        simp only [andThen_ok, if_true, List.take_append_of_le_length hneed,
          List.drop_append_of_le_length hneed]
      · have hshort : s.body.length + (b :: xs).length < n := Nat.not_le.mp hlong
        let s₁ : Session := { s with body := s.body ++ b :: xs, phase := .body n }
        have hroom₁ : s₁.body.length < n := by simpa [s₁] using hshort
        rw [readBody_append_of_short hshort, readBody_of_short hshort]
        exact (parse_body (s := s₁) rfl hroom₁ ys).symm

/-! ### All packets of a piece -/

/-- A packet that is complete leaves no body behind. -/
theorem completePacket_body (s : Session) : s.completePacket.1.body = [] := by
  simp only [completePacket]
  split <;> try rfl
  split <;> rfl

theorem Steady.of_completePacket {result : Except Error Unit}
    (h : s.completePacket = (s', result)) : s'.reset.Steady :=
  steady_reset (by simpa [h] using s.completePacket_body)

theorem readPackets_nil (n : Nat) : s.readPackets limit n [] = (s, .ok ()) := by
  cases n <;> simp [readPackets]

/-- Any fuel above the number of bytes does the same. -/
theorem readPackets_fuel (hs : s.Steady) {n m : Nat} {src : Bytes} (hn : src.length < n)
    (hm : src.length < m) : s.readPackets limit n src = s.readPackets limit m src := by
  induction n generalizing m s src with
  | zero => omega
  | succ n ih =>
    obtain ⟨m, rfl⟩ := Nat.exists_eq_add_one_of_ne_zero (Nat.ne_of_gt (Nat.zero_lt_of_lt hm))
    simp only [readPackets]
    split
    · rfl
    rcases hparse : s.parse limit src with ⟨s₁, e | rest⟩
    · simp only
    obtain ⟨hdone, hless⟩ | ⟨hs₁, rfl⟩ := hs.of_parse hparse
    · simp only [hdone, if_true]
      rcases hcomplete : s₁.completePacket with ⟨s₂, e | ⟨⟩⟩
      · simp only
      · have hs₂ : s₂.reset.Steady := .of_completePacket hcomplete
        exact ih hs₂ (by omega) (by omega)
    · simp only [hs₁.incomplete, if_false, readPackets_nil]

/-- Reads packets as long as there is input. -/
def consume (s : Session) (limit : Nat) (src : Bytes) : Session × Except Error Unit :=
  s.readPackets limit (src.length + 1) src

theorem consume_nil : s.consume limit [] = (s, .ok ()) := readPackets_nil _

theorem consume_of_disconnecting (h : s.disconnecting = true) (src : Bytes) :
    s.consume limit src = (s, .ok ()) := by
  simp [consume, readPackets, h]

/-- The first packet of the input, and then the others. -/
theorem consume_eq (hs : s.Steady) (hopen : s.disconnecting = false) (src : Bytes) :
    s.consume limit src = andThen (s.parse limit src) fun s' rest =>
      if s'.phase = .complete then
        andThen s'.completePacket fun s' _ => s'.reset.consume limit rest
      else (s', .ok ()) := by
  by_cases hsrc : src = []
  · subst hsrc
    simp only [consume_nil, parse_nil, andThen_ok, hs.incomplete, if_false]
  simp only [consume, readPackets, hopen, List.isEmpty_eq_false_iff.mpr hsrc, Bool.or_false,
    Bool.false_eq_true, if_false]
  rcases hparse : s.parse limit src with ⟨s₁, e | rest⟩
  · simp only [andThen_error]
  obtain ⟨hdone, hless⟩ | ⟨hs₁, rfl⟩ := hs.of_parse hparse
  · simp only [andThen_ok, hdone, if_true]
    rcases hcomplete : s₁.completePacket with ⟨s₂, e | ⟨⟩⟩
    · simp only [andThen_error]
    · have hs₂ : s₂.reset.Steady := .of_completePacket hcomplete
      exact readPackets_fuel hs₂ hless (Nat.lt_succ_self _)
  · simp only [andThen_ok, hs₁.incomplete, if_false, readPackets_nil]

theorem consume_append (hs : s.Steady) (xs ys : Bytes) :
    s.consume limit (xs ++ ys) =
      andThen (s.consume limit xs) fun s' _ => s'.consume limit ys := by
  induction hn : xs.length using Nat.strongRecOn generalizing s xs with
  | ind n ih =>
    by_cases hopen : s.disconnecting = true
    · simp only [consume_of_disconnecting hopen, andThen_ok]
    have hopen : s.disconnecting = false := by simpa using hopen
    rw [consume_eq hs hopen (xs ++ ys), consume_eq hs hopen xs, parse_append hs]
    rcases hparse : s.parse limit xs with ⟨s₁, e | rest⟩
    · simp only [andThen_error]
    obtain ⟨hdone, hless⟩ | ⟨hs₁, rfl⟩ := hs.of_parse hparse
    · simp only [andThen_ok, hdone, if_true]
      rcases hcomplete : s₁.completePacket with ⟨s₂, e | ⟨⟩⟩
      · simp only [andThen_error]
      · have hs₂ : s₂.reset.Steady := .of_completePacket hcomplete
        exact ih _ (hn ▸ hless) hs₂ rest rfl
    · have hopen₁ : s₁.disconnecting = false := by
        have htalk := parse_talk limit s xs
        rw [hparse] at htalk
        exact (congrArg Talk.disconnecting htalk).trans hopen
      simp only [andThen_ok, hs₁.incomplete, if_false]
      exact (consume_eq hs₁ hopen₁ ys).symm

theorem Steady.of_consume {src : Bytes} (hs : s.Steady)
    (h : s.consume limit src = (s', .ok ())) : s'.Steady := by
  induction hn : src.length using Nat.strongRecOn generalizing s src with
  | ind n ih =>
    by_cases hopen : s.disconnecting = true
    · rw [consume_of_disconnecting hopen] at h
      cases h
      exact hs
    rw [consume_eq hs (by simpa using hopen)] at h
    rcases hparse : s.parse limit src with ⟨s₁, e | rest⟩
    · rw [hparse, andThen_error] at h
      cases h
    rw [hparse, andThen_ok] at h
    obtain ⟨hdone, hless⟩ | ⟨hs₁, rfl⟩ := hs.of_parse hparse
    · rw [if_pos hdone] at h
      rcases hcomplete : s₁.completePacket with ⟨s₂, e | ⟨⟩⟩
      · rw [hcomplete, andThen_error] at h
        cases h
      · have hs₂ : s₂.reset.Steady := .of_completePacket hcomplete
        rw [hcomplete, andThen_ok] at h
        exact ih _ (hn ▸ hless) hs₂ h rfl
    · rw [if_neg hs₁.incomplete] at h
      cases h
      exact hs₁

/-! ### Piece after piece -/

variable {α π : Type} (p : Service)

/-- Reads each piece, up to the first error. -/
def readAll : Turn α π → List Bytes → Turn α π × Except Failure Unit
  | t, [] => (t, .ok ())
  | t, src :: more =>
    match read p t src with
    | (t, .error e) => (t, .error e)
    | (t, .ok ()) => readAll t more

theorem arm_session (t : Turn α π) : (arm t).session = t.session := by
  simp only [arm]
  split <;> [rfl; (split <;> rfl)]

theorem read_eq (t : Turn α π) (src : Bytes) :
    (read p t src).1.session = (t.session.consume p.maxPacket src).1 ∧
      (read p t src).2 = (t.session.consume p.maxPacket src).2.mapError .mqtt := by
  simp only [read]
  rw [show t.session.readPackets p.maxPacket (src.length + 1) src =
    t.session.consume p.maxPacket src from rfl]
  rcases t.session.consume p.maxPacket src with ⟨s₁, e | ⟨⟩⟩
  · exact ⟨rfl, rfl⟩
  · exact ⟨arm_session _, rfl⟩

/-- The pieces come to what all of the input at once does. -/
theorem readAll_eq {t : Turn α π} (hs : t.session.Steady) (cuts : List Bytes) :
    (readAll p t cuts).1.session = (t.session.consume p.maxPacket cuts.flatten).1 ∧
      (readAll p t cuts).2 = (t.session.consume p.maxPacket cuts.flatten).2.mapError .mqtt := by
  induction cuts generalizing t with
  | nil =>
    rw [List.flatten_nil, consume_nil]
    exact ⟨rfl, rfl⟩
  | cons src more ih =>
    rw [List.flatten_cons, consume_append hs, readAll]
    obtain ⟨hsession, hresult⟩ := read_eq p t src
    rcases hread : read p t src with ⟨t₁, result⟩
    rw [hread] at hsession hresult
    rcases hconsume : t.session.consume p.maxPacket src with ⟨s₁, e | ⟨⟩⟩
    · simp only [hconsume] at hsession hresult
      subst hresult
      exact ⟨hsession, rfl⟩
    · simp only [hconsume] at hsession hresult
      subst hresult hsession
      exact ih (hs.of_consume hconsume)

end WireServer.Mqtt.Session
