/-! Frame opcodes. Data frames may be fragmented, control frames may not. -/

namespace WireServer.WebSocket

/-- The opcodes in use; the other values of the nibble are reserved. -/
inductive Opcode where
  | continuation | text | binary | close | ping | pong
  deriving DecidableEq, Inhabited, Repr

namespace Opcode

def code : Opcode → Nat
  | .continuation => 0x0
  | .text => 0x1
  | .binary => 0x2
  | .close => 0x8
  | .ping => 0x9
  | .pong => 0xA

def ofCode? : Nat → Option Opcode
  | 0x0 => some .continuation
  | 0x1 => some .text
  | 0x2 => some .binary
  | 0x8 => some .close
  | 0x9 => some .ping
  | 0xA => some .pong
  | _ => none

def name : Opcode → String
  | .continuation => "CONTINUATION"
  | .text => "TEXT"
  | .binary => "BINARY"
  | .close => "CLOSE"
  | .ping => "PING"
  | .pong => "PONG"

/-- Close, ping and pong. -/
def isControl : Opcode → Bool
  | .close | .ping | .pong => true
  | _ => false

/-- Continuation, text and binary. -/
def isData (o : Opcode) : Bool := !o.isControl

def all : List Opcode := [.continuation, .text, .binary, .close, .ping, .pong]

theorem ofCode?_code (o : Opcode) : ofCode? o.code = some o := by cases o <;> rfl

end Opcode

/-- What a message is made of: the opcode of its first frame. -/
inductive MessageKind where
  | text | binary
  deriving DecidableEq, Inhabited, Repr

def MessageKind.opcode : MessageKind → Opcode
  | .text => .text
  | .binary => .binary

end WireServer.WebSocket
