import WireServer.Loop
import WireServer.Mqtt.Session

/-! The reader of packets as a record of registers that a loop works on, one part of a packet in each
round. Its words have 32 bits, the count of length bytes has eight, and what they cannot hold is a
trap. -/

namespace WireServer.Mqtt

/-- The part of a packet that comes next. -/
inductive Stage where
  | control | length | body | complete
  deriving DecidableEq, Inhabited, Repr

/-- An operation that must not happen. -/
inductive Trap where
  /-- A sum or a product beyond its word. -/
  | overflow
  /-- A difference below zero. -/
  | underflow
  deriving DecidableEq, Inhabited, Repr

structure Registers where
  stage : Stage := .control
  /-- The first byte of the packet. -/
  control : UInt8 := 0
  /-- What the bytes of the length spell, as far as they are in. -/
  remaining : UInt32 := 0
  /-- What the next byte of the length counts. -/
  multiplier : UInt32 := 1
  lengthBytes : UInt8 := 0
  body : Bytes := []
  connect : Option Connect := none
  disconnecting : Bool := false
  out : Net.Chain := {}
  deriving DecidableEq, Inhabited, Repr

namespace Registers

/-! ### Words -/

def sum (a b : UInt32) : Except Trap UInt32 :=
  if a.toNat + b.toNat < UInt32.size then .ok (a + b) else .error .overflow

def product (a b : UInt32) : Except Trap UInt32 :=
  if a.toNat * b.toNat < UInt32.size then .ok (a * b) else .error .overflow

def increment (n : UInt8) : Except Trap UInt8 :=
  if n.toNat + 1 < UInt8.size then .ok (n + 1) else .error .overflow

/-- The first of two lengths without the second. -/
def difference (a b : Nat) : Except Trap Nat := if b ≤ a then .ok (a - b) else .error .underflow

/-! ### The parts of a packet -/

/-- What a part or a call comes to: the registers, with the number of bytes that it used or the
error that it met. -/
abbrev Answer := Except Trap (Registers × Except Error Nat)

/-- One byte of the length, seven bits of it, low bits first. -/
def readLength (r : Registers) (limit : Nat) (b : UInt8) : Answer := do
  let part ← product (b &&& 0x7F).toUInt32 r.multiplier
  let remaining ← sum r.remaining part
  let lengthBytes ← increment r.lengthBytes
  let r := { r with remaining, lengthBytes }
  if b &&& 0x80 ≠ 0 then
    if lengthBytes = maxLengthBytes then return (r, .error .malformedLength)
    let multiplier ← product r.multiplier 128
    return ({ r with multiplier }, .ok 1)
  if limit < remaining.toNat then return (r, .error (.tooLarge remaining.toNat limit))
  return ({ r with stage := if remaining = 0 then .complete else .body }, .ok 1)

/-- Body bytes, up to the end of the packet. -/
def readBody (r : Registers) (rest : Bytes) : Answer := do
  let left ← difference r.remaining.toNat r.body.length
  let took := min left rest.length
  let r := { r with body := r.body ++ rest.take took }
  return ({ r with stage := if r.body.length = r.remaining.toNat then .complete else .body },
    .ok took)

/-- The part that comes next, or nothing where the loop is over. -/
def part (limit : Nat) (r : Registers) (rest : Bytes) : Option Answer :=
  match r.stage, rest with
  | _, [] => none
  | .complete, _ => none
  | .control, b :: _ => some (.ok ({ r with control := b, stage := .length }, .ok 1))
  | .length, b :: _ => some (r.readLength limit b)
  | .body, _ => some (r.readBody rest)

/-- One round at a place in the input. -/
def round (limit : Nat) (src : Bytes) : Registers × Nat → (Registers × Nat) ⊕ Answer
  | (r, offset) =>
    match r.part limit (src.drop offset) with
    | none => .inr (.ok (r, .ok offset))
    | some (.error trap) => .inr (.error trap)
    | some (.ok (r, .error e)) => .inr (.ok (r, .error e))
    | some (.ok (r, .ok took)) => .inl (r, offset + took)

/-- A call on some input, if it ends within so many rounds. -/
def parse (limit rounds : Nat) (r : Registers) (src : Bytes) : Option Answer :=
  Loop.run (round limit src) rounds (r, 0)

/-- Calls on pieces of input one after another, up to the end of a packet or the first error. What
is left is the end of the piece that completes the packet, and the pieces behind it. -/
def parseAll (limit : Nat) :
    Registers → List Bytes → Option (Except Trap (Registers × Except Error Bytes))
  | r, [] => some (.ok (r, .ok []))
  | r, src :: more =>
    match r.parse limit (src.length + 1) src with
    | none => none
    | some (.error trap) => some (.error trap)
    | some (.ok (r, .error e)) => some (.ok (r, .error e))
    | some (.ok (r, .ok used)) =>
      if r.stage = .complete then some (.ok (r, .ok (src.drop used ++ more.flatten)))
      else parseAll limit r more

/-! ### From packet to packet -/

/-- The session that the registers are those of. -/
def view (r : Registers) : Session where
  phase :=
    match r.stage with
    | .control => .control
    | .length => .length r.remaining.toUInt64 r.lengthBytes r.multiplier.toUInt64
    | .body => .body r.remaining.toNat
    | .complete => .complete
  control := r.control
  body := r.body
  connect := r.connect
  disconnecting := r.disconnecting
  out := r.out

/-- Hands a complete packet over: its body is taken out, and the length is left as it was. -/
def handOver (r : Registers) : Registers × Except Error Unit :=
  let (s, result) := r.view.completePacket
  ({ r with body := s.body, connect := s.connect, disconnecting := s.disconnecting, out := s.out },
    result)

/-- Makes room for the next packet. The body is left as it is. -/
def reset (r : Registers) : Registers :=
  { r with stage := .control, control := 0, remaining := 0, multiplier := 1, lengthBytes := 0 }

end Registers

end WireServer.Mqtt
