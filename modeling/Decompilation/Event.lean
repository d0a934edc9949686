import Decompilation.Word

/-!
# Events

The log of a decompilation: an event records one transformation (a value propagated, a
definition pruned, a loop structured), one milestone of the pass scheduler, or a diagnostic.
Events keep the order they were recorded in. An event may name the function and the address it
is about, and the pass that caused it; its message defaults to the description of its kind.

* `Event.render`: `[kind] 0xaddr: message`, the address only when there is one;
* `EventLog.summary`: the transformations counted by kind, as `2 constant propagated, ...`.
-/

namespace Decompilation

/-- The kinds of event. -/
inductive EventKind where
  | constantPropagated
  | copyPropagated
  | dereferencePropagated
  | definitionPruned
  | callResultExtracted
  | phiPruned
  | expressionSimplified
  | loopStructured
  | branchLinked
  | edgeUnresolved
  | passStarted
  | passCompleted
  | info
  | warning
  | error
  deriving DecidableEq, Repr

namespace EventKind

/-- Every kind, in the order of their declaration. -/
def all : List EventKind :=
  [constantPropagated, copyPropagated, dereferencePropagated, definitionPruned,
   callResultExtracted, phiPruned, expressionSimplified, loopStructured, branchLinked,
   edgeUnresolved, passStarted, passCompleted, info, warning, error]

/-- The description of a kind, which is also the default message of its events. -/
def description : EventKind → String
  | constantPropagated => "constant propagated"
  | copyPropagated => "copy propagated"
  | dereferencePropagated => "dereference propagated"
  | definitionPruned => "definition pruned"
  | callResultExtracted => "call result extracted"
  | phiPruned => "phi pruned"
  | expressionSimplified => "expression simplified"
  | loopStructured => "loop structured"
  | branchLinked => "branch linked"
  | edgeUnresolved => "edge unresolved"
  | passStarted => "pass started"
  | passCompleted => "pass completed"
  | info => "info"
  | warning => "warning"
  | error => "error"

/-- The kind of a description. -/
def ofDescription? (s : String) : Option EventKind := all.find? (·.description == s)

/-- Reading a description back gives its kind: the descriptions are distinct. -/
theorem ofDescription?_description (k : EventKind) : ofDescription? k.description = some k := by
  cases k <;> rfl

/-- Whether events of this kind record a change of the code. An unresolved edge is noted
    but changes nothing. -/
def isTransformation : EventKind → Bool
  | constantPropagated | copyPropagated | dereferencePropagated | definitionPruned
  | callResultExtracted | phiPruned | expressionSimplified | loopStructured | branchLinked => true
  | _ => false

/-- Whether events of this kind are diagnostics: information, warnings and errors. -/
def isDiagnostic : EventKind → Bool
  | info | warning | error => true
  | _ => false

end EventKind

/-- One event of the log. -/
structure Event where
  kind : EventKind
  /-- The function the event is about. -/
  function : Option UInt64 := none
  /-- The address the event is about. -/
  location : Option UInt64 := none
  message : String := kind.description
  /-- The pass that caused the event. -/
  pass : Option String := none
  deriving Repr

/-- The text of an event: its kind in brackets, the address it is about, and its message. -/
def Event.render (e : Event) : String :=
  let place := match e.location with
    | some l => " " ++ hex l.toNat ++ ":"
    | none => ""
  "[" ++ e.kind.description ++ "]" ++ place ++ " " ++ e.message

/-- The events recorded so far, oldest first. -/
structure EventLog where
  events : List Event := []
  deriving Repr

namespace EventLog

/-- Appends an event. -/
def record (log : EventLog) (e : Event) : EventLog := ⟨log.events ++ [e]⟩

@[simp]
theorem events_record (log : EventLog) (e : Event) : (log.record e).events = log.events ++ [e] :=
  rfl

/-- Appends a warning with the given message and nothing else. -/
def warn (log : EventLog) (message : String) : EventLog := log.record { kind := .warning, message }

/-- The number of events. -/
def size (log : EventLog) : Nat := log.events.length

@[simp]
theorem size_record (log : EventLog) (e : Event) : (log.record e).size = log.size + 1 := by
  simp [size]

/-- Whether no event was recorded. -/
def isEmpty (log : EventLog) : Bool := log.events.isEmpty

/-- The number of events whose kind passes `test`. -/
def countIf (log : EventLog) (test : EventKind → Bool) : Nat :=
  log.events.countP fun e => test e.kind

/-- The number of events of one kind. -/
def countKind (log : EventLog) (k : EventKind) : Nat := log.countIf (· == k)

/-- The number of events about the function at `address`. -/
def countFunction (log : EventLog) (address : UInt64) : Nat :=
  log.events.countP fun e => e.function == some address

/-- The kinds that occur, each with its number of events, in the order of their
    descriptions. -/
def tally (log : EventLog) : List (EventKind × Nat) :=
  let present := (EventKind.all.map fun k => (k, log.countKind k)).filter (·.2 > 0)
  present.mergeSort fun a b => !decide (b.1.description < a.1.description)

/-- The transformations counted by kind, `count description` for each kind, the parts in
    text order and separated by commas; `no events` for an empty log and `N events` for one
    without a transformation. -/
def summary (log : EventLog) : String :=
  if log.isEmpty then "no events" else
  let parts := (log.tally.filter (·.1.isTransformation)).map fun (k, n) =>
    toString n ++ " " ++ k.description
  if parts.isEmpty then toString log.size ++ " events"
  else ", ".intercalate (parts.mergeSort fun a b => !decide (b < a))

end EventLog

end Decompilation
