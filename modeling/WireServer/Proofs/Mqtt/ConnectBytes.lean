import WireServer.Mqtt.Connect
import WireServer.Proofs.BigEndian
import WireServer.Proofs.Text.Decoding

/-! A CONNECT packet as it is written, and that reading it gives it back: the whole packet whatever
stands behind it, and no packet at all from a part of it that stops short. -/

namespace WireServer.Mqtt.Connect

/-! ### Writing -/

/-- Bytes with their length in front, in two bytes. -/
def writeField (bs : Bytes) : Bytes := Bytes.ofNatBE 2 bs.length ++ bs

def writeText (s : String) : Bytes := writeField (Bytes.ofString s)

def writeWill (w : Will) : Bytes := writeText w.topic ++ writeField w.message

def writeOptional {α : Type} (write : α → Bytes) (o : Option α) : Bytes := o.elim [] write

/-- The packet under a protocol's name. The level stands behind the name, and the fields that the
flags announce stand behind the client's name, in this order. -/
def encode (name : Bytes) (c : Connect) : Bytes :=
  writeField name ++ ([c.level] ++ ([c.flags] ++ (Bytes.ofNatBE 2 c.keepAlive ++
    (writeText c.clientId ++ (writeOptional writeWill c.will ++
      (writeOptional writeText c.username ++ writeOptional writeField c.password))))))

/-- The most bytes that a field has room for. -/
def maxField : Nat := 65535

/-- The packet can be written under the name: the protocol is an accepted one, the flags announce
the fields that are there, and each number and field has room. -/
structure Writable (name : Bytes) (c : Connect) : Prop where
  protocol : (name, c.level) ∈ protocols
  willFlag : c.will.isSome = (c.flags &&& 0x04 != 0)
  usernameFlag : c.username.isSome = (c.flags &&& 0x80 != 0)
  passwordFlag : c.password.isSome = (c.flags &&& 0x40 != 0)
  keepAlive : c.keepAlive < 65536
  clientId : (Bytes.ofString c.clientId).length ≤ maxField
  topic : ∀ w ∈ c.will, (Bytes.ofString w.topic).length ≤ maxField
  message : ∀ w ∈ c.will, w.message.length ≤ maxField
  username : ∀ s ∈ c.username, (Bytes.ofString s).length ≤ maxField
  password : ∀ bs ∈ c.password, bs.length ≤ maxField

/-! ### Reading what is written -/

variable {α β : Type}

/-- The bytes spell the value: the reader takes them and no more, whatever stands behind them, and
finds a malformed packet if they stop short. -/
structure Reads (r : Reader α) (bs : Bytes) (a : α) : Prop where
  whole : ∀ rest, r (bs ++ rest) = .ok (a, rest)
  short : ∀ n < bs.length, ∃ reason, r (bs.take n) = .error (.malformed reason)

theorem Reads.pure (a : α) : Reads (pure a) [] a := ⟨fun _ => rfl, fun _ h => nomatch h⟩

theorem Reads.bind {r : Reader α} {k : α → Reader β} {bs cs : Bytes} {a : α} {b : β}
    (hr : Reads r bs a) (hk : Reads (k a) cs b) : Reads (r >>= k) (bs ++ cs) b := by
  have run (src : Bytes) : (r >>= k) src = r src >>= fun p => k p.1 p.2 := rfl
  refine ⟨fun rest => ?_, fun n hn => ?_⟩
  · rw [run, List.append_assoc, hr.whole]
    exact hk.whole rest
  · rw [run, List.take_append]
    by_cases hcut : n < bs.length
    · obtain ⟨reason, hreason⟩ := hr.short n hcut
      rw [Nat.sub_eq_zero_of_le (Nat.le_of_lt hcut), List.take_zero, List.append_nil, hreason]
      exact ⟨reason, rfl⟩
    · rw [List.length_append] at hn
      rw [List.take_of_length_le (Nat.le_of_not_lt hcut), hr.whole]
      exact hk.short _ (by omega)

/-- A reader that ends with what it has read. -/
theorem Reads.map {r : Reader α} {bs : Bytes} {a : α} (f : α → β) (hr : Reads r bs a) :
    Reads (r >>= fun a => Pure.pure (f a)) bs (f a) := by
  rw [← List.append_nil bs]
  exact hr.bind (.pure (f a))

theorem reads_take (bs : Bytes) : Reads (take bs.length) bs bs := by
  refine ⟨fun rest => ?_, fun n hn => ?_⟩
  · rw [take, if_neg (by simp), List.take_left, List.drop_left]
  · rw [take, if_pos (by rw [List.length_take]; omega)]
    exact ⟨_, rfl⟩

theorem reads_byte (b : UInt8) : Reads byte [b] b := (reads_take [b]).map _

theorem reads_number {n : Nat} (h : n < 65536) : Reads number (Bytes.ofNatBE 2 n) n := by
  have hread : Reads number _ _ := (reads_take (Bytes.ofNatBE 2 n)).map Bytes.toNatBE
  rwa [Bytes.toNatBE_ofNatBE, Nat.mod_eq_of_lt (show n < 256 ^ 2 from h)] at hread

theorem reads_field {bs : Bytes} (h : bs.length ≤ maxField) : Reads field (writeField bs) bs :=
  (reads_number (Nat.lt_succ_of_le h)).bind (reads_take bs)

theorem reads_text {s : String} (h : (Bytes.ofString s).length ≤ maxField) :
    Reads text (writeText s) s := by
  rw [← List.append_nil (writeText s)]
  refine (reads_field h).bind ?_
  rw [Utf8.decode_ofString]
  exact .pure s

theorem reads_will {w : Will} (htopic : (Bytes.ofString w.topic).length ≤ maxField)
    (hmessage : w.message.length ≤ maxField) :
    Reads (do return ⟨← text, ← field⟩) (writeWill w) w :=
  (reads_text htopic).bind ((reads_field hmessage).map _)

theorem reads_optional {r : Reader α} {write : α → Bytes} {present : Bool} {o : Option α}
    (hflag : o.isSome = present) (h : ∀ a ∈ o, Reads r (write a) a) :
    Reads (optional present r) (writeOptional write o) o := by
  subst hflag
  cases o with
  | none => exact .pure none
  | some a => exact (h a rfl).map some

theorem length_protocol {name : Bytes} {level : UInt8} (h : (name, level) ∈ protocols) :
    name.length ≤ maxField := by
  have hall : ∀ p ∈ protocols, p.1.length ≤ maxField := by decide
  exact hall _ h

theorem reads_reader {name : Bytes} {c : Connect} (h : Writable name c) :
    Reads reader (encode name c) c := by
  have hknown : ¬ (!protocols.contains (name, c.level)) = true := by
    simpa using h.protocol
  have hwill : ∀ w ∈ c.will, Reads (do return ⟨← text, ← field⟩) (writeWill w) w :=
    fun w hw => reads_will (h.topic w hw) (h.message w hw)
  refine (reads_field (length_protocol h.protocol)).bind ((reads_byte c.level).bind ?_)
  rw [if_neg hknown]
  refine (reads_byte c.flags).bind ((reads_number h.keepAlive).bind ((reads_text h.clientId).bind
    ((reads_optional h.willFlag hwill).bind
      ((reads_optional h.usernameFlag fun s hs => reads_text (h.username s hs)).bind ?_))))
  exact (reads_optional h.passwordFlag fun bs hbs => reads_field (h.password bs hbs)).map _

/-- Reading undoes writing. A packet is read back from its bytes, whatever other bytes stand behind
them, and where its bytes stop short, at any place, it is reported as malformed. -/
theorem parse_encode {name : Bytes} {c : Connect} (h : Writable name c) :
    (∀ extra, parse (encode name c ++ extra) = .ok c) ∧
      ∀ front, front <+: encode name c → front ≠ encode name c →
        ∃ reason, parse front = .error (.malformed reason) := by
  obtain ⟨whole, short⟩ := reads_reader h
  refine ⟨fun extra => ?_, fun front hfront hne => ?_⟩
  · rw [parse, StateT.run, whole]
    rfl
  · have htake : front = (encode name c).take front.length := List.prefix_iff_eq_take.1 hfront
    have hlt : front.length < (encode name c).length :=
      Nat.lt_of_le_of_ne hfront.length_le fun heq => hne (hfront.eq_of_length heq)
    obtain ⟨reason, hreason⟩ := short _ hlt
    rw [← htake] at hreason
    exact ⟨reason, by rw [parse, StateT.run, hreason]; rfl⟩

/-- A packet of the older protocol with all the fields there are. -/
def fullConnect : Connect where
  level := 3
  flags := 0xC4
  keepAlive := 60
  clientId := "é"
  will := some ⟨"last", [0xFF, 0x00]⟩
  username := some "user"
  password := some []

theorem writable_fullConnect : Writable (Bytes.ofString "MQIsdp") fullConnect where
  protocol := by decide
  willFlag := by decide
  usernameFlag := by decide
  passwordFlag := by decide
  keepAlive := by decide
  clientId := by decide
  topic := by rintro w ⟨⟩; decide
  message := by rintro w ⟨⟩; decide
  username := by rintro s ⟨⟩; decide
  password := by rintro bs ⟨⟩; decide

/-- Other bytes behind it change nothing; without its last byte the length of the empty password is
cut. -/
theorem parse_encode_fullConnect :
    Writable (Bytes.ofString "MQIsdp") fullConnect ∧
      parse (encode (Bytes.ofString "MQIsdp") fullConnect ++ [0xD0, 0x00]) = .ok fullConnect ∧
      ∃ reason, parse (encode (Bytes.ofString "MQIsdp") fullConnect).dropLast =
        .error (.malformed reason) :=
  ⟨writable_fullConnect, (parse_encode writable_fullConnect).1 _,
    (parse_encode writable_fullConnect).2 _ (List.dropLast_prefix _) (by decide)⟩

end WireServer.Mqtt.Connect
