import WireServer.Net.Send

/-! Sockets with both directions, and one that lives in memory. -/

namespace WireServer.Net

/-- What a socket says to a receive; no bytes at all mean that the peer is done sending. -/
inductive RecvAnswer where
  | data (bytes : Bytes)
  | failed (fault : Fault)
  deriving DecidableEq, Inhabited, Repr

/-- Whether an operation would get anywhere right now. -/
inductive Readiness where
  | waiting | ready
  /-- The socket cannot even be watched. -/
  | broken (fault : Fault)
  deriving DecidableEq, Inhabited, Repr

/-- A socket, over the state of the socket. -/
structure Socket (σ : Type) extends Sender σ where
  /-- Receives at most so many bytes. -/
  recv : σ → Nat → σ × RecvAnswer
  /-- Tells the peer that nothing more is sent; `none` if the socket refuses. -/
  shutdownWrite : σ → Option σ
  readable : σ → Readiness
  writable : σ → Readiness
  /-- After so many receives in a row one of them got nothing. -/
  backlog : σ → Nat

/-- A socket whose peer is what it has sent and what it still takes. -/
structure MemorySocket where
  /-- Sent by the peer and not received yet. -/
  input : Bytes := []
  /-- The peer is done sending. -/
  ended : Bool := false
  /-- Said to be readable although nothing came. -/
  spurious : Bool := false
  /-- The failure of the next receive that finds no input. -/
  recvFault : Option Fault := none
  /-- The failure of the next send. -/
  sendFault : Option Fault := none
  readFault : Option Fault := none
  writeFault : Option Fault := none
  refusesShutdown : Bool := false
  /-- How many more bytes the peer takes, if there is a limit. -/
  window : Option Nat := none
  /-- What the peer took, since it was last looked at. -/
  written : Bytes := []
  shut : Bool := false
  deriving DecidableEq, Inhabited, Repr

namespace MemorySocket

def recv (s : MemorySocket) (room : Nat) : MemorySocket × RecvAnswer :=
  if s.spurious then ({ s with spurious := false }, .failed .wouldBlock)
  else if !s.input.isEmpty then
    ({ s with input := s.input.drop room }, .data (s.input.take room))
  else match s.recvFault with
    | some fault => ({ s with recvFault := none }, .failed fault)
    | none => (s, if s.ended then .data [] else .failed .wouldBlock)

/-- Takes as much of the data as the window lets through. -/
def accept (s : MemorySocket) (data : Bytes) : MemorySocket × SendAnswer :=
  match s.window with
  | none => ({ s with written := s.written ++ data }, .accepted data.length)
  | some 0 => (s, .failed .wouldBlock)
  | some room =>
    let data := data.take room
    ({ s with written := s.written ++ data, window := some (room - data.length) },
      .accepted data.length)

def send (s : MemorySocket) (slices : List Bytes) : MemorySocket × SendAnswer :=
  match s.sendFault with
  | some fault => ({ s with sendFault := none }, .failed fault)
  | none => s.accept slices.flatten

def shutdownWrite (s : MemorySocket) : Option MemorySocket :=
  if s.refusesShutdown then none else some { s with shut := true }

def readable (s : MemorySocket) : Readiness :=
  match s.readFault with
  | some fault => .broken fault
  | none =>
    if s.spurious || !s.input.isEmpty || s.recvFault.isSome || s.ended then .ready else .waiting

def writable (s : MemorySocket) : Readiness :=
  match s.writeFault with
  | some fault => .broken fault
  | none => if s.sendFault.isSome || s.window != some 0 then .ready else .waiting

/-- Each byte can come alone, and a failure in front of the end. -/
def backlog (s : MemorySocket) : Nat := s.input.length + 2

def socket : Socket MemorySocket :=
  { send, recv, shutdownWrite, readable, writable, backlog }

/-- What the peer took since it was last looked at. -/
def takeWritten (s : MemorySocket) : MemorySocket × Bytes := ({ s with written := [] }, s.written)

end MemorySocket

end WireServer.Net
