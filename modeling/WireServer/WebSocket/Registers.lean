import WireServer.Loop
import WireServer.WebSocket.Parser

/-! The frame parser as a record of registers that a loop works on, one part of a frame in each
round. Lengths are machine words, differences of lengths are taken only where they do not fall below
zero, and a part of the input is cut out only where it lies inside. -/

namespace WireServer.WebSocket

/-- Overwrites bytes of the key from one of its places on, if they fit. -/
def MaskKey.write (k : MaskKey) (i : Nat) (bs : Bytes) : Option MaskKey :=
  ofBytes? (k.toBytes.take i ++ bs ++ k.toBytes.drop (i + bs.length))

/-- The part of a frame that comes next. -/
inductive Stage where
  | op | len | lenExtended | maskingKey | payload | complete
  deriving DecidableEq, Inhabited, Repr

/-- An operation that must not happen. -/
inductive Trap where
  /-- A difference below zero. -/
  | underflow
  /-- A place outside of what is cut or copied. -/
  | outside
  deriving DecidableEq, Inhabited, Repr

structure Registers where
  rules : Rules := {}
  stage : Stage := .op
  flags : Flags := ⟨0⟩
  opcode : Opcode := .continuation
  masked : Bool := false
  len : UInt64 := 0
  /-- The bytes that an extended length has, and how many of them are in. -/
  lenNeeded : Nat := 0
  lenIdx : Nat := 0
  key : MaskKey := ⟨0, 0, 0, 0⟩
  keyIdx : Nat := 0
  mask : Mask := ⟨⟨0, 0, 0, 0⟩, 0⟩
  /-- The payload bytes that are in. -/
  parsed : UInt64 := 0
  payload : Bytes := []
  message : Option MessageKind := none
  utf8 : Utf8.State := .boundary
  deriving DecidableEq, Inhabited, Repr

namespace Registers

/-- What a part of the parser leaves, with its result or the violation that it met. -/
abbrev Outcome (α : Type) := Registers × Except Violation α

/-- The first of two lengths without the second. -/
def difference (a b : Nat) : Except Trap Nat := if b ≤ a then .ok (a - b) else .error .underflow

/-- The input from a place on. -/
def suffix (src : Bytes) (pos : Nat) : Except Trap Bytes :=
  if pos ≤ src.length then .ok (src.drop pos) else .error .outside

/-- Makes room for the next frame. A complete data frame with FIN ends the open message. -/
def reset (r : Registers) : Registers :=
  let r :=
    if r.stage = .complete ∧ r.opcode.isData ∧ r.flags.fin then
      { r with message := none, utf8 := .boundary }
    else r
  { r with
    stage := .op, len := 0, lenNeeded := 0, lenIdx := 0, keyIdx := 0, parsed := 0, payload := [] }

/-! ### The parts of a frame -/

def enterLen (r : Registers) (flags : Flags) (opcode : Opcode) (message : Option MessageKind) :
    Outcome Unit :=
  ({ r with stage := .len, flags, opcode, message }, .ok ())

def parseOp (r : Registers) (b : UInt8) : Outcome Unit :=
  let flags : Flags := ⟨b⟩
  if flags.reserved ≠ 0 then (r, .error (.reservedBits flags.reserved))
  else match flags.opcode? with
  | none => (r, .error (.unknownOpcode flags.rawOpcode))
  | some .continuation =>
    if r.message.isSome then r.enterLen flags .continuation r.message
    else (r, .error .unexpectedContinuation)
  | some .text =>
    if r.message.isNone then r.enterLen flags .text (some .text)
    else (r, .error .expectedContinuation)
  | some .binary =>
    if r.message.isNone then r.enterLen flags .binary (some .binary)
    else (r, .error .expectedContinuation)
  | some opcode =>
    if flags.fin then r.enterLen flags opcode r.message else (r, .error .fragmentedControl)

def beginExtended (r : Registers) (needed : Nat) : Registers :=
  { r with len := 0, lenNeeded := needed, lenIdx := 0, stage := .lenExtended }

/-- The length is in: it must not pass the limit. -/
def afterLen (r : Registers) : Outcome Unit :=
  if r.rules.maxPayload < r.len.toNat then
    (r, .error (.frameTooLarge r.len.toNat r.rules.maxPayload))
  else if r.masked then ({ r with keyIdx := 0, stage := .maskingKey }, .ok ())
  else ({ r with mask := ⟨⟨0, 0, 0, 0⟩, 0⟩, stage := .payload }, .ok ())

def parseLen (r : Registers) (b : UInt8) : Outcome Unit :=
  let r := { r with masked := b &&& 0x80 != 0 }
  let code := b &&& 0x7F
  if !r.masked && r.rules.requireMask then (r, .error .unmasked)
  else if r.opcode.isControl && code > 125 then (r, .error .controlTooLong)
  else if code = 126 then (r.beginExtended 2, .ok ())
  else if code = 127 then (r.beginExtended 8, .ok ())
  else { r with len := code.toUInt64 }.afterLen

/-- The length with more of its bytes. -/
def shiftIn (len : UInt64) (bs : Bytes) : UInt64 :=
  bs.foldl (fun len b => len <<< 8 ||| b.toUInt64) len

/-- The length is in, if no byte of it is missing. -/
def checkLen (r : Registers) : Outcome Unit :=
  if r.lenIdx ≠ r.lenNeeded then (r, .ok ())
  else if r.len >>> (63 : UInt64) ≠ 0 then (r, .error .invalidLength)
  else r.afterLen

def parseLenExtended (r : Registers) (src : Bytes) : Except Trap (Outcome Nat) := do
  let left ← difference r.lenNeeded r.lenIdx
  let took := min left src.length
  let r := { r with len := shiftIn r.len (src.take took), lenIdx := r.lenIdx + took }
  let (r, checked) := r.checkLen
  return (r, checked.map fun _ => took)

/-- The key is in, if no byte of it is missing. -/
def checkKey (r : Registers) : Registers :=
  if r.keyIdx = 4 then { r with mask := ⟨r.key, 0⟩, stage := .payload } else r

def parseMaskingKey (r : Registers) (src : Bytes) : Except Trap (Outcome Nat) := do
  let left ← difference 4 r.keyIdx
  let took := min left src.length
  match r.key.write r.keyIdx (src.take took) with
  | none => throw .outside
  | some key => return ({ r with key, keyIdx := r.keyIdx + took }.checkKey, .ok took)

/-- Takes in payload bytes. The count stays where it was when the text goes wrong. -/
def append (r : Registers) (chunk : Bytes) : Outcome Unit :=
  let data := if r.masked then r.mask.apply chunk else chunk
  let r := { r with
    payload := r.payload ++ data
    mask := if r.masked then r.mask.skip chunk.length else r.mask }
  if r.message = some .text ∧ r.opcode.isData then
    let (utf8, fits) := Utf8.feed r.utf8 data
    if fits then ({ r with utf8, parsed := r.parsed + UInt64.ofNat chunk.length }, .ok ())
    else ({ r with utf8 }, .error .invalidUtf8)
  else ({ r with parsed := r.parsed + UInt64.ofNat chunk.length }, .ok ())

def absorb (r : Registers) (chunk : Bytes) : Outcome Unit :=
  if 0 < chunk.length then r.append chunk else (r, .ok ())

/-- The last byte is in: text must not end inside a character, nor the reason of a close frame. -/
def finish (r : Registers) : Outcome Unit :=
  if r.opcode.isData ∧ r.message = some .text ∧ !r.utf8.finish r.flags.fin then
    (r, .error .invalidUtf8)
  else if r.opcode = .close ∧ 2 < r.payload.length ∧ !Utf8.valid (r.payload.drop 2) then
    (r, .error .invalidUtf8)
  else ({ r with stage := .complete }, .ok ())

/-- The payload is in, if no byte of it is missing. -/
def checkPayload (r : Registers) : Outcome Unit :=
  if r.parsed = r.len then r.finish else (r, .ok ())

def parsePayload (r : Registers) (src : Bytes) : Except Trap (Outcome Nat) := do
  let remaining ← difference r.len.toNat r.parsed.toNat
  let took := min remaining src.length
  match r.absorb (src.take took) with
  | (r, .error v) => return (r, .error v)
  | (r, .ok ()) =>
    let (r, checked) := r.checkPayload
    return (r, checked.map fun _ => took)

/-! ### The loop -/

/-- What a call comes to: the registers, with the number of bytes that it used or the violation that
it met. -/
abbrev Answer := Except Trap (Outcome Nat)

/-- The part that comes next at a place in the input, or nothing where the loop is over. -/
def part (r : Registers) (rest : Bytes) : Option Answer :=
  match r.stage, rest with
  | .complete, _ => none
  | .payload, _ => some (r.parsePayload rest)
  | _, [] => none
  | .op, b :: _ => let (r, result) := r.parseOp b; some (.ok (r, result.map fun _ => 1))
  | .len, b :: _ => let (r, result) := r.parseLen b; some (.ok (r, result.map fun _ => 1))
  | .lenExtended, _ => some (r.parseLenExtended rest)
  | .maskingKey, _ => some (r.parseMaskingKey rest)

/-- Payload is still to come, and the input is used up. -/
def starved (r : Registers) (src : Bytes) (pos : Nat) : Bool :=
  r.stage = .payload ∧ r.parsed < r.len ∧ pos = src.length

/-- One round at a place in the input. -/
def round (src : Bytes) : Registers × Nat → (Registers × Nat) ⊕ Answer
  | (r, pos) =>
    match suffix src pos with
    | .error trap => .inr (.error trap)
    | .ok rest =>
      match r.part rest with
      | none => .inr (.ok (r, .ok pos))
      | some (.error trap) => .inr (.error trap)
      | some (.ok (r, .error v)) => .inr (.ok (r, .error v))
      | some (.ok (r, .ok took)) =>
        if r.starved src (pos + took) then .inr (.ok (r, .ok (pos + took)))
        else .inl (r, pos + took)

/-- A call on some input, if it ends within so many rounds. -/
def parse (rounds : Nat) (r : Registers) (src : Bytes) : Option Answer :=
  Loop.run (round src) rounds (r, 0)

/-- Calls on pieces of input one after another, up to the first violation, with the number of all
the bytes that they used. -/
def parseAll (rounds : Nat) : Registers → List Bytes → Option Answer
  | r, [] => some (.ok (r, .ok 0))
  | r, src :: more =>
    match r.parse rounds src with
    | some (.ok (r, .ok used)) =>
      match parseAll rounds r more with
      | some (.ok (r, result)) => some (.ok (r, result.map (used + ·)))
      | ended => ended
    | ended => ended

/-! ### What the registers say -/

/-- The parser with the registers that its phase needs. -/
def view (r : Registers) : Parser where
  rules := r.rules
  phase :=
    match r.stage with
    | .op => .op
    | .len => .len
    | .lenExtended => .extended r.masked (r.lenNeeded - r.lenIdx)
    | .maskingKey => .maskingKey (r.key.toBytes.take r.keyIdx)
    | .payload => .payload (if r.masked then some r.mask else none)
    | .complete => .complete
  flags := r.flags
  opcode := r.opcode
  length := r.len.toNat
  parsed := r.parsed.toNat
  payload := r.payload
  current := r.message
  utf8 := r.utf8

end Registers

end WireServer.WebSocket
