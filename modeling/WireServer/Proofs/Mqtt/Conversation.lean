import Mathlib.Tactic.Ring
import WireServer.Proofs.Mqtt.Cuts
import WireServer.Proofs.Mqtt.Grammar

/-! A session answers the packets of its input, as the packet grammar reads it, and nothing else
counts: not how the input was cut into pieces, and not what stands behind DISCONNECT. -/

namespace WireServer.Mqtt

/-! ### The length of a packet -/

/-- The words in which a session counts, when `k` bytes of a length are read and spell `v`. -/
structure Counting (k v : Nat) (value : UInt64) (count : UInt8) (weight : UInt64) : Prop where
  value_eq : value.toNat = v
  count_eq : count.toNat = k
  weight_eq : weight.toNat = 128 ^ k
  few : k < 4
  small : v < 128 ^ k

namespace Counting

variable {k v : Nat} {value weight : UInt64} {count : UInt8}

theorem start : Counting 0 0 0 0 1 := ⟨rfl, rfl, rfl, by decide, by decide⟩

theorem pow_le (h : Counting k v value count weight) : 128 ^ k ≤ 2097152 :=
  Nat.pow_le_pow_right (by decide : 0 < 128) (Nat.lt_succ_iff.mp h.few)

/-- One byte more does not overflow. -/
theorem add_toNat (h : Counting k v value count weight) (b : UInt8) :
    (value + (b &&& 0x7F).toUInt64 * weight).toNat = v + b.toNat % 128 * 128 ^ k := by
  have hlow : (b &&& 0x7F).toUInt64.toNat = b.toNat % 128 := by
    rw [UInt8.toNat_toUInt64, UInt8.toNat_and]
    exact Nat.and_two_pow_sub_one_eq_mod b.toNat 7
  have hpow := h.pow_le
  have hsmall := h.small
  have hprod : b.toNat % 128 * 128 ^ k ≤ 127 * 2097152 :=
    Nat.mul_le_mul (by omega) hpow
  rw [UInt64.toNat_add, UInt64.toNat_mul, hlow, h.value_eq, h.weight_eq]
  omega

theorem next (h : Counting k v value count weight) (hk : k < 3) (b : UInt8) :
    Counting (k + 1) (v + b.toNat % 128 * 128 ^ k) (value + (b &&& 0x7F).toUInt64 * weight)
      (count + 1) (weight * 128) where
  value_eq := h.add_toNat b
  count_eq := by rw [UInt8.toNat_add, h.count_eq, UInt8.toNat_one]; omega
  weight_eq := by
    have hpow := h.pow_le
    rw [UInt64.toNat_mul, h.weight_eq, show (128 : UInt64).toNat = 128 from rfl, Nat.pow_succ]
    omega
  few := by omega
  small := by
    have hsmall := h.small
    have hle : b.toNat % 128 * 128 ^ k ≤ 127 * 128 ^ k := Nat.mul_le_mul_right _ (by omega)
    rw [Nat.pow_succ]; omega

theorem count_full (h : Counting k v value count weight) : count + 1 = maxLengthBytes ↔ k = 3 := by
  rw [← UInt8.toNat_inj, UInt8.toNat_add, h.count_eq, UInt8.toNat_one]
  have hmax : maxLengthBytes.toNat = 4 := rfl
  have hfew := h.few
  omega

end Counting

namespace Session

variable {s : Session} {limit k v n : Nat} {value weight : UInt64} {count : UInt8} {length : Bytes}

/-- Where a packet goes on behind its length. -/
def behindLength (n : Nat) : Phase := if n = 0 then .complete else .body n

theorem readLength_more (hc : Counting k v value count weight) {b : UInt8} (hb : 0x80 ≤ b)
    (hk : k < 3) :
    s.readLength limit value count weight b =
      ({ s with
        phase := .length (value + (b &&& 0x7F).toUInt64 * weight) (count + 1) (weight * 128) },
        none) := by
  have hnot : ¬ count + 1 = maxLengthBytes := fun h => by have := hc.count_full.mp h; omega
  simp only [readLength, hb, hnot, if_true, if_false]

theorem readLength_endless (hc : Counting 3 v value count weight) {b : UInt8} (hb : 0x80 ≤ b) :
    (s.readLength limit value count weight b).2 = some .malformedLength := by
  simp only [readLength, hb, hc.count_full.mpr rfl, if_true]

theorem readLength_last (s : Session) (limit : Nat) (hc : Counting k v value count weight)
    {b : UInt8} (hb : b < 0x80) :
    (v + b.toNat * 128 ^ k ≤ limit → s.readLength limit value count weight b =
      ({ s with phase := behindLength (v + b.toNat * 128 ^ k) }, none)) ∧
    (limit < v + b.toNat * 128 ^ k → (s.readLength limit value count weight b).2 =
      some (.tooLarge (v + b.toNat * 128 ^ k) limit)) := by
  have hlow : b.toNat % 128 = b.toNat := Nat.mod_eq_of_lt hb
  have hsum : (value + (b &&& 0x7F).toUInt64 * weight).toNat = v + b.toNat * 128 ^ k := by
    rw [hc.add_toNat, hlow]
  have hzero : value + (b &&& 0x7F).toUInt64 * weight = 0 ↔ v + b.toNat * 128 ^ k = 0 := by
    rw [← UInt64.toNat_inj, hsum, UInt64.toNat_zero]
  constructor
  · intro hfits
    simp only [readLength, UInt8.not_le.mpr hb, hsum, Nat.not_lt.mpr hfits, if_false, hzero,
      behindLength]
  · intro hlarge
    simp only [readLength, UInt8.not_le.mpr hb, hsum, gt_iff_lt, hlarge, if_true, if_false]

theorem parse_length_fault (hphase : s.phase = .length value count weight) {b : UInt8} {e : Error}
    (h : (s.readLength limit value count weight b).2 = some e) (rest : Bytes) :
    (s.parse limit (b :: rest)).2 = .error e := by
  have hread : s.readLength limit value count weight b =
      ((s.readLength limit value count weight b).1, some e) := Prod.ext rfl h
  rw [parse_length_error hphase hread]

/-- A whole length is read: the packet goes on, or it is too large. -/
theorem parse_spelled (limit : Nat) (hphase : s.phase = .length value count weight)
    (hc : Counting k v value count weight) (hn : Spells length n) (hfew : k + length.length ≤ 4)
    (rest : Bytes) :
    (v + n * 128 ^ k ≤ limit → s.parse limit (length ++ rest) =
      ({ s with phase := behindLength (v + n * 128 ^ k) } : Session).parse limit rest) ∧
    (limit < v + n * 128 ^ k → (s.parse limit (length ++ rest)).2 =
      .error (.tooLarge (v + n * 128 ^ k) limit)) := by
  induction hn generalizing s k v value count weight with
  | @last b hb =>
    obtain ⟨hfits, hlarge⟩ := readLength_last s limit hc hb
    constructor
    · intro h; rw [List.singleton_append, parse_length hphase (hfits h)]
    · exact fun h => parse_length_fault hphase (hlarge h) rest
  | @more b bs n hb hn ih =>
    have hpos : 0 < bs.length := by cases hn <;> simp
    have hk : k < 3 := by rw [List.length_cons] at hfew; omega
    have hfew' : k + 1 + bs.length ≤ 4 := by rw [List.length_cons] at hfew; omega
    have hsum : v + b.toNat % 128 * 128 ^ k + n * 128 ^ (k + 1) =
        v + (b.toNat - 128 + 128 * n) * 128 ^ k := by
      have hlow : b.toNat % 128 = b.toNat - 128 := by
        have hge : 128 ≤ b.toNat := hb
        have hlt := b.toNat_lt
        omega
      rw [hlow, Nat.pow_succ]; ring
    rw [List.cons_append, parse_length hphase (readLength_more hc hb hk), ← hsum]
    exact ih (s := { s with phase := _ }) rfl (hc.next hk b) hfew'

theorem parse_endless (hphase : s.phase = .length value count weight)
    (hc : Counting k v value count weight) (hall : Unended length) (hlen : k + length.length = 4)
    (rest : Bytes) : (s.parse limit (length ++ rest)).2 = .error .malformedLength := by
  induction length generalizing s k v value count weight with
  | nil => exact absurd hlen (Nat.ne_of_lt hc.few)
  | cons b bs ih =>
    have hb : 0x80 ≤ b := hall b (List.mem_cons_self ..)
    by_cases hk : k < 3
    · rw [List.cons_append, parse_length hphase (readLength_more hc hb hk)]
      exact ih (s := { s with phase := _ }) rfl (hc.next hk b)
        (fun c hmem => hall c (List.mem_cons_of_mem _ hmem))
        (by rw [List.length_cons] at hlen; omega)
    · obtain rfl : k = 3 := by have := hc.few; omega
      exact parse_length_fault hphase (readLength_endless hc hb) (bs ++ rest)

theorem parse_inLength (limit : Nat) (hphase : s.phase = .length value count weight)
    (hc : Counting k v value count weight) (hall : Unended length)
    (hlen : k + length.length < 4) :
    ∃ phase, s.parse limit length = ({ s with phase := phase }, .ok []) ∧ phase ≠ .complete := by
  induction length generalizing s k v value count weight with
  | nil => exact ⟨s.phase, parse_nil, hphase ▸ nofun⟩
  | cons b bs ih =>
    have hb : 0x80 ≤ b := hall b (List.mem_cons_self ..)
    have hk : k < 3 := by rw [List.length_cons] at hlen; omega
    rw [parse_length hphase (readLength_more hc hb hk)]
    exact ih (s := { s with phase := _ }) rfl (hc.next hk b)
      (fun c hmem => hall c (List.mem_cons_of_mem _ hmem))
      (by rw [List.length_cons] at hlen; omega)

/-! ### Packets -/

/-- A session in front of a packet. -/
structure Ready (s : Session) : Prop where
  phase : s.phase = .control
  body : s.body = []
  connected : s.disconnecting = false

theorem ready_fresh : Ready {} := ⟨rfl, rfl, rfl⟩

theorem Ready.steady (h : s.Ready) : s.Steady :=
  ⟨h.phase ▸ nofun, h.phase ▸ nofun, fun _ => h.body⟩

/-- The session at the end of a packet. -/
def holding (s : Session) (pk : Packet) : Session :=
  { s with control := pk.control, body := pk.body, phase := .complete }

/-- The length is read whole. -/
theorem parse_header (h : s.phase = .control) (control : UInt8) (hn : Spells length n)
    (hfew : length.length ≤ 4) (rest : Bytes) :
    (n ≤ limit → s.parse limit (control :: (length ++ rest)) =
      ({ s with control, phase := behindLength n } : Session).parse limit rest) ∧
    (limit < n → (s.parse limit (control :: (length ++ rest))).2 =
      .error (.tooLarge n limit)) := by
  have hspelled := parse_spelled (s := { s with control, phase := .length 0 0 1 }) limit rfl .start
    hn (by omega) rest
  rw [parse_control h]
  simpa only [Nat.pow_zero, Nat.mul_one, Nat.zero_add] using hspelled

theorem parse_packet (h : s.Ready) {pk : Packet} (hf : pk.Framed limit) (rest : Bytes) :
    s.parse limit (pk.bytes ++ rest) = (s.holding pk, .ok rest) := by
  let s₁ : Session := { s with control := pk.control, phase := behindLength pk.body.length }
  have hheader : s.parse limit (pk.bytes ++ rest) = s₁.parse limit (pk.body ++ rest) := by
    rw [Packet.bytes, List.cons_append, List.append_assoc]
    exact (parse_header h.phase pk.control hf.spelled hf.few _).1 hf.fits
  rw [hheader]
  by_cases hzero : pk.body.length = 0
  · have hnil : pk.body = [] := List.eq_nil_of_length_eq_zero hzero
    have hphase : s₁.phase = .complete := if_pos hzero
    rw [parse_complete hphase]
    simp [s₁, holding, hnil, h.body, behindLength]
  · have hphase : s₁.phase = .body pk.body.length := if_neg hzero
    have hroom : s₁.body.length < pk.body.length := by
      simpa [s₁, h.body] using Nat.pos_of_ne_zero hzero
    rw [parse_body hphase hroom, readBody_of_long hroom (by rw [List.length_append]; omega)]
    simp [s₁, holding, h.body]

/-- The end of a stream completes no packet. -/
theorem parse_ending (h : s.Ready) {rest : Bytes} {fault : Option Error}
    (hend : Ending limit rest fault) :
    (∀ e, fault = some e → (s.parse limit rest).2 = .error e) ∧
    (fault = none → ∃ s', s.parse limit rest = (s', .ok []) ∧ s'.phase ≠ .complete) := by
  cases hend with
  | nothing => exact ⟨nofun, fun _ => ⟨s, parse_nil, h.steady.incomplete⟩⟩
  | inLength control hall hlen =>
    obtain ⟨phase, hparse, hne⟩ := parse_inLength
      (s := { s with control, phase := .length 0 0 1 }) limit rfl .start hall (by omega)
    rw [parse_control h.phase]
    exact ⟨nofun, fun _ => ⟨_, hparse, hne⟩⟩
  | @inBody control length body n hn hlen hfits hshort =>
    let s₁ : Session := { s with control, phase := behindLength n }
    have hphase : s₁.phase = .body n := if_neg (Nat.ne_of_gt (Nat.zero_lt_of_lt hshort))
    have hless : s₁.body.length + body.length < n := by simpa [s₁, h.body] using hshort
    refine ⟨nofun, fun _ => ⟨{ s₁ with body := s₁.body ++ body, phase := .body n }, ?_, nofun⟩⟩
    rw [(parse_header h.phase control hn hlen body).1 hfits, parse_body hphase (by omega),
      readBody_of_short hless]
  | endless control rest hall hlen =>
    rw [parse_control h.phase]
    refine ⟨?_, nofun⟩
    rintro e ⟨⟩
    exact parse_endless rfl .start hall (by omega) rest
  | tooLarge control rest hn hlen hlarge =>
    refine ⟨?_, nofun⟩
    rintro e ⟨⟩
    exact (parse_header h.phase control hn hlen rest).2 hlarge

theorem completePacket_first (hc : s.connect = none) :
    s.completePacket =
      if s.packetType ≠ 1 then ({ s with body := [] }, .error (.notConnected s.packetType))
      else match Connect.parse s.body with
        | .error e => ({ s with body := [] }, .error e)
        | .ok c => ({ s with body := [], connect := some c, out := s.out.push connackAccepted },
            .ok ()) := by
  simp only [packetType]
  by_cases hconnect : s.control.toNat / 16 = 1
  · cases hparse : Connect.parse s.body <;>
      simp [completePacket, packetType, hconnect, hc, hparse]
  · simp [completePacket, packetType, hconnect, hc]

theorem completePacket_later {c : Connect} (hc : s.connect = some c) :
    s.completePacket =
      if s.packetType = 1 then ({ s with body := [] }, .error (.malformed "second CONNECT"))
      else if s.packetType = 12 then
        ({ s with body := [], out := s.out.push pingResponse }, .ok ())
      else if s.packetType = 14 then ({ s with body := [], disconnecting := true }, .ok ())
      else ({ s with body := [] }, .ok ()) := by
  simp only [packetType]
  by_cases hconnect : s.control.toNat / 16 = 1
  · simp [completePacket, packetType, hc, hconnect]
  by_cases hping : s.control.toNat / 16 = 12
  · simp [completePacket, packetType, hc, hping]
  by_cases hdisconnect : s.control.toNat / 16 = 14
  · simp [completePacket, packetType, hc, hdisconnect]
  · simp [completePacket, packetType, hc, hconnect, hping, hdisconnect]

/-- A packet is completed, and the input goes on behind it. -/
theorem consume_packet (h : s.Ready) {pk : Packet} (hf : pk.Framed limit) (rest : Bytes) :
    s.consume limit (pk.bytes ++ rest) =
      andThen (s.holding pk).completePacket fun s' _ => s'.reset.consume limit rest := by
  rw [consume_eq h.steady h.connected, parse_packet h hf, andThen_ok]
  exact if_pos rfl

/-- What an error makes of a reading. -/
def verdict (fault : Option Error) : Except Error Unit := fault.elim (.ok ()) .error

theorem consume_ending (h : s.Ready) {rest : Bytes} {fault : Option Error}
    (hend : Ending limit rest fault) :
    (s.consume limit rest).1.talk = s.talk ∧ (s.consume limit rest).2 = verdict fault := by
  have htalk := parse_talk limit s rest
  obtain ⟨hfault, hnone⟩ := parse_ending h hend
  rw [consume_eq h.steady h.connected]
  cases fault with
  | some e =>
    have herror := hfault e rfl
    rcases hresult : s.parse limit rest with ⟨s₁, _ | _⟩
    · rw [hresult] at herror htalk
      cases herror
      exact ⟨htalk, rfl⟩
    · rw [hresult] at herror
      cases herror
  | none =>
    obtain ⟨s₁, hresult, hne⟩ := hnone rfl
    rw [hresult] at htalk ⊢
    rw [andThen_ok, if_neg hne]
    exact ⟨htalk, rfl⟩

/-! ### The conversation -/

/-- A reading has come to this answer. -/
structure Gives (r : Session × Except Error Unit) (a : Answer) : Prop where
  replies : r.1.out = .ofList a.replies
  connect : r.1.connect = a.connect
  disconnecting : r.1.disconnecting = a.disconnecting
  error : r.2 = verdict a.error

theorem Gives.of_talk {r : Session × Except Error Unit} {a : Answer}
    (htalk : r.1.talk = ⟨a.connect, a.disconnecting, .ofList a.replies⟩)
    (herror : r.2 = verdict a.error) : Gives r a :=
  ⟨congrArg Talk.out htalk, congrArg Talk.connect htalk, congrArg Talk.disconnecting htalk, herror⟩

theorem ofList_push (sent : List Bytes) (bs : Bytes) :
    (Net.Chain.ofList sent).push bs = .ofList (sent ++ [bs]) := by
  simp [Net.Chain.ofList, Net.Chain.push]

/-- Once a CONNECT is accepted, each ping up to the end of the conversation has its response. -/
theorem consume_connected {c : Connect} {sent : List Bytes} {bs : Bytes} {packets : List Packet}
    {fault : Option Error} (hs : Stream limit bs packets fault) (h : s.Ready)
    (hc : s.connect = some c) (hout : s.out = .ofList sent) :
    Gives (s.consume limit bs) (converse c sent fault packets) := by
  induction hs generalizing s sent with
  | ending hend =>
    obtain ⟨htalk, herror⟩ := consume_ending h hend
    refine .of_talk ?_ herror
    rw [htalk]
    simp [talk, converse, hc, hout, h.connected]
  | @packet pk rest more fault hf hmore ih =>
    have htype : (s.holding pk).packetType = pk.kind := rfl
    rw [consume_packet h hf, completePacket_later (s := s.holding pk) hc, htype]
    by_cases hconnect : pk.kind = 1
    · have hfinal : pk.isFinal = true := by simp [Packet.isFinal, hconnect]
      rw [converse_final hfinal]
      simp only [hconnect, if_true]
      exact ⟨hout, hc, h.connected, rfl⟩
    by_cases hping : pk.kind = 12
    · rw [converse_ping hping]
      simp only [hping, if_true]
      exact ih ⟨rfl, rfl, h.connected⟩ hc ((congrArg (·.push pingResponse) hout).trans
        (ofList_push sent _))
    by_cases hdisconnect : pk.kind = 14
    · have hfinal : pk.isFinal = true := by simp [Packet.isFinal, hdisconnect]
      rw [converse_final hfinal]
      simp only [if_neg hconnect, if_neg hping, if_pos hdisconnect]
      rw [andThen_ok, consume_of_disconnecting (s := Session.reset _) rfl]
      exact ⟨hout, hc, by simp [reset, hdisconnect], rfl⟩
    · have hfinal : pk.isFinal = false := by simp [Packet.isFinal, hconnect, hdisconnect]
      rw [converse_ignored hfinal hping]
      simp only [hconnect, hping, hdisconnect, if_false]
      exact ih ⟨rfl, rfl, h.connected⟩ hc hout

/-- A fresh session answers a stream as its packets ask for. -/
theorem consume_fresh {bs : Bytes} {packets : List Packet} {fault : Option Error}
    (hs : Stream limit bs packets fault) :
    Gives (({} : Session).consume limit bs) (answer fault packets) := by
  cases hs with
  | ending hend =>
    obtain ⟨htalk, herror⟩ := consume_ending ready_fresh hend
    exact .of_talk htalk herror
  | @packet pk rest more fault hf hmore =>
    have htype : (({} : Session).holding pk).packetType = pk.kind := rfl
    rw [consume_packet ready_fresh hf, completePacket_first (s := ({} : Session).holding pk) rfl,
      htype, answer]
    by_cases hconnect : pk.kind = 1
    · simp only [hconnect, ne_eq, not_true, if_false, holding]
      cases Connect.parse pk.body with
      | error e => exact ⟨rfl, rfl, rfl, rfl⟩
      | ok c => exact consume_connected hmore ⟨rfl, rfl, rfl⟩ rfl rfl
    · simp only [ne_eq, hconnect, not_false_eq_true, if_true]
      exact ⟨rfl, rfl, rfl, rfl⟩

variable {α π : Type}

/-- Before the first input. -/
def fresh (ctx : Context π) (desk : Desk α) : Turn α π := ⟨ctx, {}, desk⟩

/-- A session behind DISCONNECT takes no notice of more input. -/
theorem readAll_append_of_disconnecting {p : Service} {t : Turn α π} (hs : t.session.Steady)
    {cuts : List Bytes} (h : (readAll p t cuts).1.session.disconnecting = true)
    (more : List Bytes) :
    (readAll p t (cuts ++ more)).1.session = (readAll p t cuts).1.session ∧
      (readAll p t (cuts ++ more)).2 = (readAll p t cuts).2 := by
  obtain ⟨hsession, hresult⟩ := readAll_eq p hs cuts
  obtain ⟨hsession', hresult'⟩ := readAll_eq p hs (cuts ++ more)
  have hsame : t.session.consume p.maxPacket (cuts ++ more).flatten =
      t.session.consume p.maxPacket cuts.flatten := by
    rw [List.flatten_append, consume_append hs]
    rcases hconsume : t.session.consume p.maxPacket cuts.flatten with ⟨s₁, e | ⟨⟩⟩
    · rw [andThen_error]
    · rw [hsession, hconsume] at h
      exact consume_of_disconnecting h _
  exact ⟨by rw [hsession', hsession, hsame], by rw [hresult', hresult, hsame]⟩

/-- A fresh session reads its input to the same end however it is cut into pieces. Every input is
packets and an ending, and these alone say what the session replies, which CONNECT it keeps, and
with which error it fails; behind DISCONNECT nothing counts. -/
theorem answers_by_grammar (p : Service) (ctx : Context π) (desk : Desk α) :
    (∀ cuts cuts' : List Bytes, cuts.flatten = cuts'.flatten →
      (readAll p (fresh ctx desk) cuts).1.session = (readAll p (fresh ctx desk) cuts').1.session ∧
      (readAll p (fresh ctx desk) cuts).2 = (readAll p (fresh ctx desk) cuts').2) ∧
    (∀ bs, ∃ packets fault, Stream p.maxPacket bs packets fault) ∧
    (∀ cuts packets fault, Stream p.maxPacket cuts.flatten packets fault →
      (readAll p (fresh ctx desk) cuts).1.session.out = .ofList (answer fault packets).replies ∧
      (readAll p (fresh ctx desk) cuts).1.session.connect = (answer fault packets).connect ∧
      (readAll p (fresh ctx desk) cuts).1.session.disconnecting =
        (answer fault packets).disconnecting ∧
      (readAll p (fresh ctx desk) cuts).2 =
        (verdict (answer fault packets).error).mapError Failure.mqtt) ∧
    (∀ cuts more, (readAll p (fresh ctx desk) cuts).1.session.disconnecting = true →
      (readAll p (fresh ctx desk) (cuts ++ more)).1.session =
        (readAll p (fresh ctx desk) cuts).1.session ∧
      (readAll p (fresh ctx desk) (cuts ++ more)).2 = (readAll p (fresh ctx desk) cuts).2) := by
  have hfresh : (fresh ctx desk).session.Steady := steady_fresh
  refine ⟨fun cuts cuts' hsame => ?_, Stream.exists_reading p.maxPacket,
    fun cuts packets fault hs => ?_, fun cuts more h =>
      readAll_append_of_disconnecting hfresh h more⟩
  · obtain ⟨hsession, hresult⟩ := readAll_eq p hfresh cuts
    obtain ⟨hsession', hresult'⟩ := readAll_eq p hfresh cuts'
    exact ⟨by rw [hsession, hsession', hsame], by rw [hresult, hresult', hsame]⟩
  · obtain ⟨hsession, hresult⟩ := readAll_eq p hfresh cuts
    have hgives := consume_fresh hs
    rw [hsession, hresult]
    exact ⟨hgives.replies, hgives.connect, hgives.disconnecting,
      congrArg (Except.mapError Failure.mqtt) hgives.error⟩

/-- A session that takes up to 64 bytes in a packet. -/
def chat (cuts : List Bytes) : Turn Unit Unit × Except Failure Unit :=
  readAll ⟨64⟩ (fresh {} ⟨(), {}, []⟩) cuts

/-- CONNECT, a ping whose length is spelled with a zero behind it, DISCONNECT and a stray byte, cut
within the packets. -/
theorem answers_by_grammar_across_cuts :
    let connect : Packet := ⟨0x10, [12], [0, 4, 77, 81, 84, 84, 4, 2, 0, 60, 0, 0]⟩
    let packets : List Packet := [connect, ⟨0xC0, [0x80, 0], []⟩, ⟨0xE0, [0], []⟩]
    let cuts : List Bytes :=
      [[0x10], [12, 0, 4, 77, 81, 84, 84, 4], [2, 0, 60, 0, 0, 0xC0, 0x80], [0, 0xE0], [0, 0xFF]]
    Stream 64 cuts.flatten packets none ∧
      (chat cuts).1.session.out.toBytes = connackAccepted ++ pingResponse ∧
      (chat cuts).1.session.disconnecting = true ∧
      (chat cuts).1.session = (chat [cuts.flatten]).1.session ∧
      ∀ more, (chat (cuts ++ more)).1.session = (chat cuts).1.session := by
  intro connect packets cuts
  have hconnect : connect.Framed 64 := ⟨.last (b := 12) (by decide), by decide, by decide⟩
  have hping : Packet.Framed 64 ⟨0xC0, [0x80, 0], []⟩ :=
    ⟨.more (b := 0x80) (by decide) (.last (b := 0) (by decide)), by decide, by decide⟩
  have hdisconnect : Packet.Framed 64 ⟨0xE0, [0], []⟩ :=
    ⟨.last (b := 0) (by decide), by decide, by decide⟩
  have hstream : Stream 64 cuts.flatten packets none :=
    .packet hconnect (.packet hping (.packet hdisconnect
      (.ending (.inLength 0xFF (by simp [Unended]) (by decide)))))
  obtain ⟨hcuts, -, hanswer, hbehind⟩ :=
    answers_by_grammar (α := Unit) (π := Unit) ⟨64⟩ {} ⟨(), {}, []⟩
  obtain ⟨hreplies, -, hdisconnecting, -⟩ := hanswer cuts packets none hstream
  have hends : (answer none packets).disconnecting = true := by decide
  unfold chat
  refine ⟨hstream, ?_, hdisconnecting.trans hends, (hcuts cuts [cuts.flatten] (by simp)).1,
    fun more => (hbehind cuts more (hdisconnecting.trans hends)).1⟩
  rw [hreplies]
  decide

end Session

end WireServer.Mqtt
