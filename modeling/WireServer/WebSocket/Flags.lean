import WireServer.WebSocket.Opcode

/-! The first byte of a frame: FIN, three reserved bits and the opcode. -/

namespace WireServer.WebSocket

/-- The first byte of a frame. -/
structure Flags where
  bits : UInt8
  deriving DecidableEq, Inhabited, Repr

namespace Flags

/-- The byte of an outbound frame. -/
def new (fin : Bool) (o : Opcode) : Flags := ⟨(if fin then 0x80 else 0) ||| UInt8.ofNat o.code⟩

def fin (f : Flags) : Bool := f.bits &&& 0x80 != 0

/-- The reserved bits in their place. -/
def reserved (f : Flags) : UInt8 := f.bits &&& 0x70

def rawOpcode (f : Flags) : UInt8 := f.bits &&& 0x0F

def opcode? (f : Flags) : Option Opcode := Opcode.ofCode? f.rawOpcode.toNat

def withOpcode (f : Flags) (o : Opcode) : Flags := ⟨(f.bits &&& 0xF0) ||| UInt8.ofNat o.code⟩

def withFin (f : Flags) (fin : Bool) : Flags :=
  ⟨if fin then f.bits ||| 0x80 else f.bits &&& 0x7F⟩

theorem opcode?_withOpcode (flags : Flags) (o : Opcode) :
    (flags.withOpcode o).opcode? = some o := by
  have hcode : (UInt8.ofNat o.code &&& 0x0F).toNat = o.code := by cases o <;> decide
  have hraw : (flags.withOpcode o).rawOpcode = UInt8.ofNat o.code &&& 0x0F := by
    rw [← UInt8.toNat_inj]
    simp [rawOpcode, withOpcode, Nat.and_or_distrib_right, Nat.and_assoc]
  rw [opcode?, hraw, hcode, Opcode.ofCode?_code]

/-- The parts by name, with the reserved bits shifted down. -/
def describe (f : Flags) : String :=
  s!"FrameFlags \x7b fin: {f.fin}, reserved: {f.reserved.toNat / 16}, opcode: {f.rawOpcode.toNat} \x7d"

end Flags

end WireServer.WebSocket
