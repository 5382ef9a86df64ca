import WireServer.Connection.Machine
import WireServer.Server.Lifecycle
import WireServer.Server.Live

/-! A server at work. It accepts connections until it is asked to stop, and then waits until the
last of them is over. The application's state is shared: it goes with the connection that runs. -/

namespace WireServer.Server

structure Serving (τ σ α π : Type) where
  phase : Phase := .started
  /-- The server was asked to stop. -/
  stopped : Bool := false
  /-- The server sleeps until a notice comes that no connection is left. -/
  asleep : Bool := false
  live : Live := {}
  app : α
  /-- All connections so far, in the order in which they were accepted. -/
  connections : List (Connection τ σ α π) := []
  deriving DecidableEq, Inhabited, Repr

namespace Serving

variable {τ σ α π : Type}

/-- Takes back the application's state from a connection, which no longer counts once it is
over. -/
def takeBack (s : Serving τ σ α π) (c : Connection τ σ α π) : Serving τ σ α π :=
  { s with app := c.desk.app, live := if c.phase = .closed then s.live.leave else s.live }

/-- Accepts a socket, as long as the server has not noticed that it was asked to stop. The task of
the new connection has not begun yet. -/
def spawn (ctx : Context π) (io : τ) (now : Nat) (s : Serving τ σ α π) : Serving τ σ α π :=
  if s.phase ≠ .started then s
  else
    let c := { ctx, session := none, desk := { app := s.app }, io, lastActive := now }
    { s with live := s.live.enter, connections := s.connections ++ [c] }

/-- Lets the task of a connection go on for a while, unless it has ended. -/
def poll (f : Connection τ σ α π → Connection τ σ α π) (s : Serving τ σ α π) (i : Nat) :
    Serving τ σ α π :=
  match s.connections[i]? with
  | none => s
  | some c =>
    if c.phase = .closed then s
    else
      let c := f { c with desk := { c.desk with app := s.app } }
      { s with connections := s.connections.set i c }.takeBack c

/-- The task of a connection unwinds, with the application's state as it is then: it ends without
its last callbacks. -/
def unwind (app : α) : Serving τ σ α π → Nat → Serving τ σ α π :=
  poll fun c => { c with
    phase := .closed, session := none
    desk := { c.desk with app, outbox := c.desk.outbox.shut } }

/-- Accepts a connection on a socket, with its first session. A stop that is there comes first. -/
def accept (h : Connection.Host τ σ α π) (now : Nat) (ctx : Context π) (session : σ) (io : τ)
    (s : Serving τ σ α π) : Serving τ σ α π :=
  if s.phase ≠ .started ∨ s.stopped then s
  else
    (s.spawn ctx io now).poll (fun c => Connection.start h ctx session c.desk.app io now)
      s.connections.length

/-- Lets a connection run until it waits, unless it is over. -/
def drive (h : Connection.Host τ σ α π) (now : Nat) (s : Serving τ σ α π) (i : Nat) :
    Serving τ σ α π :=
  s.poll (·.runToRest h s.stopped now) i

/-- Lets every connection run until it waits. -/
def driveAll (h : Connection.Host τ σ α π) (now : Nat) (s : Serving τ σ α π) : Serving τ σ α π :=
  (List.range s.connections.length).foldl (drive h now) s

/-- One turn of the server itself. A notice may be an old one, so who is woken by it looks again
at the count. -/
def turn (s : Serving τ σ α π) : Serving τ σ α π :=
  match s.phase with
  | .started => if s.stopped then { s with phase := .stopGraceful } else s
  | .stopGraceful =>
    if s.asleep then
      if s.live.drained then { s with asleep := false, live := s.live.settle } else s
    else if s.live.count = 0 then { s with phase := .stopped }
    else { s with asleep := true }
  | _ => s

/-- As many turns as get the server anywhere: it stops accepting, falls asleep, is woken by an old
notice, and looks again. -/
def turns (s : Serving τ σ α π) : Serving τ σ α π := s.turn.turn.turn.turn

end Serving

end WireServer.Server
