import Decompilation.Optimize.Fixpoint
import Decompilation.Structure.Loop

/-!
# Decompiling a function

The stages of decompiling one function:

1. naming: a function without a name takes the one the symbol table gives its address;
2. checking: the entry must be a block, and each block the entry cannot reach is noted;
3. simplifying every statement of every block, in address order, then linking definitions
   and uses;
4. optimizing: the propagation passes, then the cleanup passes, each to a fixpoint, after which
   the chains must still be consistent;
5. structuring the control flow;
6. gathering the statements of all blocks, in address order, into the function's body.

Any failure is reported as a failure within the function, and the edits made before it stay.
-/

namespace Decompilation

/-- Names of functions by address; a later name for an address replaces an earlier one. -/
structure SymbolTable where
  functions : List (UInt64 × String) := []
  deriving Repr

namespace SymbolTable

/-- Names the function at `address`. -/
def addFunction (t : SymbolTable) (address : UInt64) (name : String) : SymbolTable :=
  ⟨(address, name) :: t.functions.filter (·.1 != address)⟩

/-- The name of the function at `address`. -/
def functionName? (t : SymbolTable) (address : UInt64) : Option String :=
  (t.functions.find? (·.1 == address)).map (·.2)

/-- The name last given to an address is its name. -/
@[simp]
theorem functionName?_addFunction_self (t : SymbolTable) (address : UInt64) (name : String) :
    (t.addFunction address name).functionName? address = some name := by
  simp [addFunction, functionName?]

end SymbolTable

/-- The outcome of decompiling a function: its address and name, the container of its body,
    the structuring warnings, the events, the structuring report, and the sweeps of the two
    optimizer stages. -/
structure Decompiled where
  address : UInt64
  name : Option String
  root : CntrId
  warnings : List String
  events : EventLog
  layout : StructureReport
  propagateSweeps : Nat
  cleanupSweeps : Nat
  deriving Repr

/-- One line about a decompiled function: its address, the number of transformations and of
    warnings, and the sweeps of the two optimizer stages. -/
def Decompiled.summary (d : Decompiled) : String :=
  hex d.address.toNat ++ ": " ++ toString (d.events.countIf EventKind.isTransformation) ++
    " transformations, " ++ toString d.warnings.length ++ " warnings (" ++
    toString d.propagateSweeps ++ "+" ++ toString d.cleanupSweeps ++ " sweeps)"

open Work

/-- Notes every block that the entry cannot reach, after checking that the entry is a block. -/
def noteUnreachable : Work Unit := do
  let p ← current
  let some entry := p.entry
    | throw (.malformed ("function " ++ hex p.address.toNat ++ " has no blocks"))
  if !p.hasBlock entry then throw (.missingBlock p.address entry)
  let cfg ← lift p.cfg
  let dom ← lift (DominatorTree.compute cfg)
  for b in p.blocks do
    let reachable := ((cfg.find? b.address).map dom.isReachable).getD false
    if !reachable then
      record { kind := .info, function := some p.address, location := some b.address,
               message := "block " ++ hex b.address.toNat ++ " is unreachable" }

/-- The stages of decompiling the function, on a session with an empty log. -/
def decompileStages (settings : Settings) (symbols : SymbolTable) : Work Decompiled := do
  let p ← current
  if p.name.isNone then
    if let some n := symbols.functionName? p.address then
      modify fun s => { s with proc := { s.proc with name := some n } }
  noteUnreachable
  let cfg := settings.optimizer
  let simp := cfg.simplifier
  let q ← current
  for s in q.blocks.flatMap fun b => (q.cntrNode b.container).stmts do
    let _ ← edit (simp.reduceStmt s)
  let _ ← edit Procedure.linkDefs
  let propagateSweeps ← runToFixpoint cfg.propagateOnly cfg.maxIterations cfg
  let cleanupSweeps ← runToFixpoint cfg.fullCleanup cfg.maxIterations cfg
  lift (← current).validate
  let layout ← structureFlow settings.verifyBackEdges
  let p ← current
  let root ← edit (Procedure.newContainer p.address)
  for b in p.blocks do
    edit (Procedure.moveStmts b.container root)
  modify fun s => { s with proc := { s.proc with body := some root } }
  let s ← get
  pure { address := p.address, name := s.proc.name, root, warnings := layout.warnings,
         events := s.log, layout, propagateSweeps, cleanupSweeps }

/-- Decompiles a function: the outcome, or the failure within the function, and the function
    as the stages left it. -/
def decompile (settings : Settings) (symbols : SymbolTable) (p : Procedure) :
    Except Error Decompiled × Procedure :=
  let (r, s) := ((decompileStages settings symbols).run).run { proc := p }
  (r.mapError (Error.withinFunction p.address), s.proc)

end Decompilation
