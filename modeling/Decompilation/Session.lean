import Decompilation.Ir.Procedure
import Decompilation.Event

/-!
# Sessions

A session is a procedure under analysis together with the log of what was done to it. The
optimizer and the structurer work in `Work`, which edits the procedure, records events and may
fail; a failure keeps the edits and events that came before it, as an answer to a caller
that goes on after an error must show them.
-/

namespace Decompilation

/-- A procedure under analysis and the events recorded about it. -/
structure Session where
  proc : Procedure
  log : EventLog := {}

/-- Steps on a session that may fail, keeping what they did before the failure. -/
abbrev Work := ExceptT Error (StateM Session)

namespace Work

/-- The procedure as it is now. -/
def current : Work Procedure := do pure (← get).proc

/-- Runs an edit of the procedure. -/
def edit {α : Type} (m : Edit α) : Work α := do
  let s ← get
  let (r, p) := (m.run).run s.proc
  set { s with proc := p }
  match r with
  | .ok a => pure a
  | .error e => throw e

/-- Runs a computation that may fail. -/
def lift {α : Type} : Except Error α → Work α
  | .ok a => pure a
  | .error e => throw e

/-- Records an event. -/
def record (e : Event) : Work Unit := modify fun s => { s with log := s.log.record e }

end Work

end Decompilation
