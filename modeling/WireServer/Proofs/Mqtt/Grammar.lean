import Mathlib.Data.List.Basic
import WireServer.Mqtt.Session

/-! The packet grammar of a byte stream, and what a conversation of packets is answered with. A
stream is packets one behind the other and then a part that is none: nothing, the beginning of a
packet, or a length that cannot be. Every stream of bytes can be read this way. -/

namespace WireServer.Mqtt

/-- Bytes that spell a length: seven bits each, low bits first, and the high bit set on all but the
last. Zeros may stand at the end. -/
inductive Spells : Bytes → Nat → Prop where
  | last {b : UInt8} : b < 0x80 → Spells [b] b.toNat
  | more {b : UInt8} {bs : Bytes} {n : Nat} :
    0x80 ≤ b → Spells bs n → Spells (b :: bs) (b.toNat - 128 + 128 * n)

/-- Bytes of a length that goes on behind them. -/
def Unended (bs : Bytes) : Prop := ∀ b ∈ bs, 0x80 ≤ b

/-- A packet as it stands in a stream. -/
structure Packet where
  control : UInt8
  /-- The bytes that spell the length of the body. -/
  length : Bytes
  body : Bytes
  deriving DecidableEq, Inhabited, Repr

namespace Packet

def bytes (pk : Packet) : Bytes := pk.control :: (pk.length ++ pk.body)

/-- What the packet is: 1 for CONNECT, 12 for PINGREQ, 14 for DISCONNECT. -/
def kind (pk : Packet) : Nat := pk.control.toNat / 16

/-- The length is spelled in at most four bytes, is that of the body, and keeps to the limit. -/
structure Framed (limit : Nat) (pk : Packet) : Prop where
  spelled : Spells pk.length pk.body.length
  few : pk.length.length ≤ 4
  fits : pk.body.length ≤ limit

end Packet

/-- The end of a stream, behind its last packet, with the error that it is. -/
inductive Ending (limit : Nat) : Bytes → Option Error → Prop where
  | nothing : Ending limit [] none
  | inLength (control : UInt8) {length : Bytes} :
    Unended length → length.length < 4 → Ending limit (control :: length) none
  | inBody (control : UInt8) {length body : Bytes} {n : Nat} :
    Spells length n → length.length ≤ 4 → n ≤ limit → body.length < n →
    Ending limit (control :: (length ++ body)) none
  | endless (control : UInt8) {length : Bytes} (rest : Bytes) :
    Unended length → length.length = 4 →
    Ending limit (control :: (length ++ rest)) (some .malformedLength)
  | tooLarge (control : UInt8) {length : Bytes} {n : Nat} (rest : Bytes) :
    Spells length n → length.length ≤ 4 → limit < n →
    Ending limit (control :: (length ++ rest)) (some (.tooLarge n limit))

/-- The bytes are these packets and then an ending. -/
inductive Stream (limit : Nat) : Bytes → List Packet → Option Error → Prop where
  | ending {rest : Bytes} {fault : Option Error} :
    Ending limit rest fault → Stream limit rest [] fault
  | packet {pk : Packet} {rest : Bytes} {more : List Packet} {fault : Option Error} :
    pk.Framed limit → Stream limit rest more fault →
    Stream limit (pk.bytes ++ rest) (pk :: more) fault

/-! ### Every stream can be read -/

/-- At most `k` bytes of a length: it ends within them, it does not, or the bytes do. -/
theorem length_cases (k : Nat) (bs : Bytes) :
    (Unended bs ∧ bs.length < k) ∨
    (∃ length rest, bs = length ++ rest ∧ Unended length ∧ length.length = k) ∨
    (∃ length n rest, bs = length ++ rest ∧ Spells length n ∧ length.length ≤ k) := by
  induction k generalizing bs with
  | zero => exact .inr (.inl ⟨[], bs, rfl, by simp [Unended], rfl⟩)
  | succ k ih =>
    match bs with
    | [] => exact .inl ⟨by simp [Unended], by simp⟩
    | b :: bs =>
      by_cases hb : 0x80 ≤ b
      · have continues {length : Bytes} (h : Unended length) : Unended (b :: length) := by
          simpa [Unended, hb] using h
        rcases ih bs with
          ⟨hall, hshort⟩ | ⟨length, rest, rfl, hall, hlen⟩ | ⟨length, n, rest, rfl, hn, hlen⟩
        · exact .inl ⟨continues hall, by simpa using hshort⟩
        · exact .inr (.inl ⟨b :: length, rest, rfl, continues hall, by simpa using hlen⟩)
        · exact .inr (.inr ⟨b :: length, _, rest, rfl, .more hb hn, by simpa using hlen⟩)
      · exact .inr (.inr ⟨[b], b.toNat, bs, rfl, .last (UInt8.not_le.mp hb), by simp⟩)

/-- A stream ends at once, or a packet stands at its front. -/
theorem ending_or_packet (limit : Nat) (bs : Bytes) :
    (∃ fault, Ending limit bs fault) ∨
    ∃ pk : Packet, ∃ rest, bs = pk.bytes ++ rest ∧ pk.Framed limit := by
  match bs with
  | [] => exact .inl ⟨none, .nothing⟩
  | control :: bs =>
    obtain ⟨hall, hshort⟩ | ⟨length, rest, rfl, hall, hlen⟩ | ⟨length, n, rest, rfl, hn, hlen⟩ :=
      length_cases 4 bs
    · exact .inl ⟨none, .inLength control hall hshort⟩
    · exact .inl ⟨_, .endless control rest hall hlen⟩
    · by_cases hlimit : limit < n
      · exact .inl ⟨_, .tooLarge control rest hn hlen hlimit⟩
      · by_cases hbody : rest.length < n
        · exact .inl ⟨none, .inBody control hn hlen (by omega) hbody⟩
        · have hcount : (rest.take n).length = n := List.length_take_of_le (by omega)
          refine .inr ⟨⟨control, length, rest.take n⟩, rest.drop n, ?_, ?_, hlen, ?_⟩
          · simp [Packet.bytes]
          · rwa [hcount]
          · rw [hcount]; omega

/-- Every stream of bytes is packets and an ending. -/
theorem Stream.exists_reading (limit : Nat) (bs : Bytes) :
    ∃ packets fault, Stream limit bs packets fault := by
  induction hn : bs.length using Nat.strongRecOn generalizing bs with
  | ind n ih =>
    obtain ⟨fault, hend⟩ | ⟨pk, rest, rfl, hframed⟩ := ending_or_packet limit bs
    · exact ⟨[], fault, .ending hend⟩
    · have hless : rest.length < n := by simp [← hn, Packet.bytes]; omega
      obtain ⟨more, fault, hmore⟩ := ih _ hless rest rfl
      exact ⟨pk :: more, fault, .packet hframed hmore⟩

/-! ### The answer to a conversation -/

/-- What a session has come to: its replies, the CONNECT that it keeps, whether it is
disconnecting, and its error. -/
structure Answer where
  replies : List Bytes := []
  connect : Option Connect := none
  disconnecting : Bool := false
  error : Option Error := none
  deriving DecidableEq, Inhabited, Repr

/-- No packet behind this one is answered: a second CONNECT or a DISCONNECT. -/
def Packet.isFinal (pk : Packet) : Bool := pk.kind == 1 || pk.kind == 14

/-- After a CONNECT, and the replies that were sent: a response for each ping in front of the packet
that ends the conversation, or of the fault at the end of the stream. -/
def converse (c : Connect) (sent : List Bytes) (fault : Option Error) (more : List Packet) :
    Answer where
  replies :=
    sent ++ List.replicate ((more.takeWhile (!·.isFinal)).countP (·.kind == 12)) pingResponse
  connect := some c
  disconnecting := (more.find? (·.isFinal)).any (·.kind == 14)
  error :=
    match more.find? (·.isFinal) with
    | none => fault
    | some pk => if pk.kind = 1 then some (.malformed "second CONNECT") else none

theorem converse_final {pk : Packet} (h : pk.isFinal = true) (c : Connect) (sent : List Bytes)
    (fault : Option Error) (more : List Packet) :
    converse c sent fault (pk :: more) =
      { replies := sent, connect := some c, disconnecting := pk.kind == 14,
        error := if pk.kind = 1 then some (.malformed "second CONNECT") else none } := by
  simp [converse, h]

theorem converse_ping {pk : Packet} (h : pk.kind = 12) (c : Connect) (sent : List Bytes)
    (fault : Option Error) (more : List Packet) :
    converse c sent fault (pk :: more) = converse c (sent ++ [pingResponse]) fault more := by
  simp [converse, Packet.isFinal, h, List.replicate_succ]

theorem converse_ignored {pk : Packet} (hfinal : pk.isFinal = false) (hping : pk.kind ≠ 12)
    (c : Connect) (sent : List Bytes) (fault : Option Error) (more : List Packet) :
    converse c sent fault (pk :: more) = converse c sent fault more := by
  simp [converse, hfinal, hping]

/-- The first packet has to be a valid CONNECT. -/
def answer (fault : Option Error) : List Packet → Answer
  | [] => { error := fault }
  | first :: more =>
    if first.kind ≠ 1 then { error := some (.notConnected first.kind) }
    else match Connect.parse first.body with
      | .error e => { error := some e }
      | .ok c => converse c [connackAccepted] fault more

end WireServer.Mqtt
