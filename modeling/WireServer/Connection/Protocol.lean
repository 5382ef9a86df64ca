import WireServer.Session.Turn

/-! What a connection asks of the protocol that it speaks, whatever protocol that is. -/

namespace WireServer.Connection

/-- Callbacks on a session `σ`; each may leave requests to the connection, and those that can fail
end it when they do. The socket has state `τ`, and `π` are the protocols to switch to. -/
structure Protocol (τ σ α π : Type) where
  /-- A fresh session of a protocol that starts or takes over. -/
  bind : π → Turn Unit α π → Turn Unit α π × Except Failure σ
  /-- The connection is ready to exchange data. -/
  ready : Turn σ α π → Turn σ α π × Except Failure Unit
  /-- Uses up input from its front, and gives the number of bytes. -/
  read : Turn σ α π → Bytes → Turn σ α π × Except Failure Nat
  /-- Sends queued output. -/
  write : Turn σ α π → τ → Turn σ α π × τ × Except Failure WriteStatus
  /-- Applies items from the outbox. -/
  wakeup : Turn σ α π → List Item → Turn σ α π × Except Failure Unit
  /-- The server stops. -/
  stop : Turn σ α π → Turn σ α π × Except Failure Unit
  /-- Input that was read but belongs to the next protocol. -/
  takeLeftover : Turn σ α π → Turn σ α π × Bytes
  /-- The session goes away. -/
  cleanup : Turn σ α π → Turn σ α π × Except Failure Unit

end WireServer.Connection
