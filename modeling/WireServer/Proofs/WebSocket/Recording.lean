import WireServer.Proofs.WebSocket.Handshake
import WireServer.Proofs.WebSocket.Views

/-! Recording a connection. The application carries the notes along: each of its callbacks looks at
the standing when it starts and when it is over. Nothing else changes, whatever the events are. -/

namespace WireServer.WebSocket

open Handshake

variable {α π τ : Type}

/-- The program with a last look at the standing. -/
def Program.recorded (l : List Note) : Program α → Program (α × List Note)
  | .done app outcome => .look fun st _ => .done (app, l ++ [⟨.returned, st⟩]) outcome
  | .sendFrame flags payload next => .sendFrame flags payload fun r => (next r).recorded l
  | .close code next => .close code fun r => (next r).recorded l
  | .post item next => .post item fun r => (next r).recorded l
  | .look next => .look fun st n => (next st n).recorded l
  | .fetch next => .fetch fun a => (next a).recorded l
  | .attach a next => .attach a (next.recorded l)

/-- The program with a look at the standing before and behind it. -/
def Program.noted (m : Moment) (p : Program α) (l : List Note) : Program (α × List Note) :=
  .look fun st _ => p.recorded (l ++ [⟨m, st⟩])

/-- The same application, with notes. -/
def Handler.recorded (h : Handler α) : Handler (α × List Note) where
  onConnect app := (h.onConnect app.1).noted .connecting app.2
  onMessage app flags payload := (h.onMessage app.1 flags payload).noted .message app.2
  onClose app code := (h.onClose app.1 code).noted .closing app.2

/-- The same service, with notes. -/
def Service.recorded (s : Service α) : Service (α × List Note) where
  handler := s.handler.recorded
  maxFrame := s.maxFrame
  buffered := s.buffered
  maxMessage := s.maxMessage

theorem recorded_onConnect (s : Service α) (app : α × List Note) :
    s.recorded.handler.onConnect app = (s.handler.onConnect app.1).noted .connecting app.2 := rfl

theorem recorded_onMessage (s : Service α) (app : α × List Note) (flags : Flags)
    (payload : Bytes) : s.recorded.handler.onMessage app flags payload =
      (s.handler.onMessage app.1 flags payload).noted .message app.2 := rfl

theorem recorded_onClose (s : Service α) (app : α × List Note) (code : UInt16) :
    s.recorded.handler.onClose app code = (s.handler.onClose app.1 code).noted .closing app.2 := rfl

theorem Program.run_recorded (p : Program α) (l : List Note) (w : Session) (o : Outbox) :
    (p.recorded l).run w o = ((p.run w o).1, (p.run w o).2.1,
      ((p.run w o).2.2.1, l ++ [⟨.returned, (p.run w o).1.standing⟩]), (p.run w o).2.2.2) := by
  induction p generalizing w o with
  | done app outcome => rfl
  | sendFrame flags payload next ih => exact ih _ _ _
  | close code next ih => exact ih _ _ _
  | post item next ih => exact ih _ _ _
  | look next ih => exact ih _ _ _ _
  | fetch next ih => exact ih _ _ _
  | attach a next ih => exact ih _ _

namespace Link

/-- The same without the notes. -/
def plain (t : Turn (α × List Note) π) : Turn α π :=
  { ctx := t.ctx, session := t.session
    desk := { app := t.desk.app.1, outbox := t.desk.outbox, shelf := t.desk.shelf } }

/-- The session with the notes. -/
def scene (t : Turn (α × List Note) π) : Scene := ⟨t.session.session, t.desk.app.2⟩

/-! ### Nothing else changes -/

section Plain

variable (s : Service α) (t : Turn (α × List Note) π)

theorem plain_call (m : Moment) (p : Program α) :
    Prod.map plain id (call t (p.noted m t.desk.app.2)) = call (plain t) p := by
  simp only [call, Program.noted, Program.run, Program.run_recorded]
  rfl

theorem plain_shows : Shows (plain : Turn (α × List Note) π → Turn α π) where
  session _ := rfl
  message _ := rfl
  shown _ := rfl
  put _ _ _ := rfl
  enableTx _ := rfl
  shutdown _ := rfl
  close _ := rfl

theorem plain_view : ClearView s.recorded s (plain : Turn (α × List Note) π → Turn α π) where
  toShows := plain_shows
  buffered := rfl
  maxMessage := rfl
  onConnect t := plain_call t .connecting (s.handler.onConnect t.desk.app.1)
  onMessage t flags payload := plain_call t .message (s.handler.onMessage t.desk.app.1 flags payload)
  onClose t code := plain_call t .closing (s.handler.onClose t.desk.app.1 code)
  parser _ := rfl
  setParser _ _ := rfl

theorem plain_read (src : Bytes) :
    Prod.map plain id (read s.recorded t src) = read s (plain t) src :=
  (plain_view s).read t src

theorem plain_stop : plain (stop t) = stop (plain t) := plain_shows.stop t

theorem plain_ready : plain (ready s.recorded t) = ready s (plain t) :=
  (plain_view s).ready t fun _ => rfl

theorem plain_wakeup (items : List Item) : plain (wakeup t items) = wakeup (plain t) items :=
  plain_shows.wakeup t items

theorem plain_write (socket : Net.Sender τ) (io : τ) :
    plain (write t socket io).1 = (write (plain t) socket io).1 :=
  plain_shows.write t (fun _ => rfl) socket io

end Plain

/-! ### Runs -/

/-- What can happen to a connection between its start and its end. The socket's state is whatever it
is when output is sent; in between, others change what the connection shares with them. -/
inductive Event (τ α π : Type) where
  | read (src : Bytes)
  | wakeup (items : List Item)
  | write (io : τ)
  | stop
  | outside (ctx : Context π) (desk : Desk α)

/-- One event; how it ended is up to the connection. -/
def step (s : Service α) (socket : Net.Sender τ) (t : Turn α π) : Event τ α π → Turn α π
  | .read src => (read s t src).1
  | .wakeup items => wakeup t items
  | .write io => (write t socket io).1
  | .stop => stop t
  | .outside ctx desk => { t with ctx, desk }

/-- A connection from its start on. -/
def run (s : Service α) (socket : Net.Sender τ) (ctx : Context π) (desk : Desk α)
    (events : List (Event τ α π)) : Turn α π :=
  events.foldl (step s socket) (ready s ⟨ctx, new s, desk⟩)

/-- A desk on which the application has notes. -/
def withNotes (desk : Desk α) (l : List Note) : Desk (α × List Note) :=
  { app := (desk.app, l), outbox := desk.outbox, shelf := desk.shelf }

/-- The event for an application with notes, which nobody else can reach. -/
def Event.recorded (l : List Note) : Event τ α π → Event τ (α × List Note) π
  | .read src => .read src
  | .wakeup items => .wakeup items
  | .write io => .write io
  | .stop => .stop
  | .outside ctx desk => .outside ctx (withNotes desk l)

/-- A note at the end of an event. -/
def rest (t : Turn (α × List Note) π) : Turn (α × List Note) π :=
  { t with desk := { t.desk with
    app := (t.desk.app.1, t.desk.app.2 ++ [⟨.rest, t.session.session.standing⟩]) } }

/-- A recorded connection, with the bytes that were queued on its session since the start. -/
structure Record (α π : Type) where
  turn : Turn (α × List Note) π
  queued : Bytes

/-- The bytes that an event adds to the queue. Sending takes some off its front. -/
def Event.adds (before after : Session) : Event τ α π → Bytes
  | .write _ => []
  | _ => after.out.toBytes.drop before.out.total

def Record.step (s : Service α) (socket : Net.Sender τ) (r : Record α π) (e : Event τ α π) :
    Record α π :=
  let t := Link.step s.recorded socket r.turn (e.recorded r.turn.desk.app.2)
  { turn := rest t, queued := r.queued ++ e.adds r.turn.session.session t.session.session }

/-- The recorded connection at its start. -/
def Record.start (s : Service α) (ctx : Context π) (desk : Desk α) : Record α π :=
  let t := ready s.recorded ⟨ctx, new s.recorded, withNotes desk []⟩
  { turn := rest t, queued := t.session.session.out.toBytes }

def Record.run (s : Service α) (socket : Net.Sender τ) (ctx : Context π) (desk : Desk α)
    (events : List (Event τ α π)) : Record α π :=
  events.foldl (Record.step s socket) (start s ctx desk)

theorem plain_step (s : Service α) (socket : Net.Sender τ) (t : Turn (α × List Note) π)
    (e : Event τ α π) :
    plain (step s.recorded socket t (e.recorded t.desk.app.2)) = step s socket (plain t) e := by
  cases e with
  | read src => exact congrArg Prod.fst (plain_read s t src)
  | wakeup items => exact plain_wakeup t items
  | write io => exact plain_write t socket io
  | stop => exact plain_stop t
  | outside ctx desk => rfl

/-- The record is one of the connection. -/
theorem Record.plain_run (s : Service α) (socket : Net.Sender τ) (ctx : Context π) (desk : Desk α)
    (events : List (Event τ α π)) :
    plain (run s socket ctx desk events).turn = Link.run s socket ctx desk events := by
  have h (events : List (Event τ α π)) (r : Record α π) :
      plain (events.foldl (Record.step s socket) r).turn =
        events.foldl (Link.step s socket) (plain r.turn) := by
    induction events generalizing r with
    | nil => rfl
    | cons e events ih =>
      rw [List.foldl_cons, List.foldl_cons, ih, ← plain_step]
      rfl
  rw [run, h, Link.run]
  congr 1
  exact plain_ready s _

end Link

end WireServer.WebSocket
