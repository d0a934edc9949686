import Decompilation.Simplify.Reduce

/-!
# Settings of the optimizer

The optimizer runs two lists of passes to a fixpoint, one after the other: the *propagation*
passes, which push values into their uses, and the *cleanup* passes, which then delete what
became dead and propagate once more. Its settings say which passes each list holds, whether
memory accesses may be assumed not to alias, whether arithmetic is signed, and how many sweeps
and simplification steps are allowed before a failure to settle is reported.

* `PassKind`: the eight passes, with their names;
* `OptimizerConfig`: the optimizer's settings, with the presets `aggressive` and
  `propagateOnly`;
* `Settings`: the optimizer's settings with the structurer's.
-/

namespace Decompilation

/-- The passes of the optimizer. -/
inductive PassKind where
  /-- Literal values replace the reads of their definitions. -/
  | propagateConstants
  /-- A value read once moves into its one reader. -/
  | propagateSingleUse
  /-- Values read in address computations of memory definitions are copied there. -/
  | propagateDereferenced
  /-- Register definitions nobody reads are deleted. -/
  | pruneDeadRegs
  /-- Memory definitions nobody reads, through no alias, are deleted. -/
  | pruneDeadDerefs
  /-- The result of a call nobody reads is dropped, the call kept as a statement. -/
  | pruneDeadResults
  /-- A merge of one value read only by itself is deleted. -/
  | pruneSinglePhi
  /-- A merge whose only reader is its own definition's merge is deleted. -/
  | pruneCircularPhi
  deriving DecidableEq, Repr

namespace PassKind

/-- Every pass, in the order of their declaration. -/
def all : List PassKind :=
  [propagateConstants, propagateSingleUse, propagateDereferenced, pruneDeadRegs, pruneDeadDerefs,
   pruneDeadResults, pruneSinglePhi, pruneCircularPhi]

/-- The name of a pass, in lower case with underscores. -/
def name : PassKind → String
  | propagateConstants => "propagate_constants"
  | propagateSingleUse => "propagate_single_use"
  | propagateDereferenced => "propagate_dereferenced"
  | pruneDeadRegs => "prune_dead_regs"
  | pruneDeadDerefs => "prune_dead_derefs"
  | pruneDeadResults => "prune_dead_results"
  | pruneSinglePhi => "prune_single_phi"
  | pruneCircularPhi => "prune_circular_phi"

/-- The pass of a name; names are matched exactly, case included. -/
def ofName? (s : String) : Option PassKind := all.find? (·.name == s)

/-- Reading a pass name back gives the pass: the names are distinct. -/
theorem ofName?_name (k : PassKind) : ofName? k.name = some k := by
  cases k <;> rfl

end PassKind

/-- The optimizer's settings. -/
structure OptimizerConfig where
  /-- Whether memory accesses may be assumed not to alias. -/
  noalias : Bool := false
  /-- Whether literals are folded as two's-complement numbers. -/
  signed : Bool := false
  /-- The most sweeps of a list of passes. -/
  maxIterations : Nat := 1000
  /-- The most simplification steps on one expression tree. -/
  maxSimplifyIterations : Nat := 256
  /-- The passes run first, to a fixpoint. -/
  propagateOnly : List PassKind := [.propagateConstants, .propagateDereferenced]
  /-- The passes run second, to a fixpoint. -/
  fullCleanup : List PassKind :=
    [.pruneDeadRegs, .pruneDeadDerefs, .pruneDeadResults, .propagateSingleUse,
     .propagateConstants, .pruneSinglePhi, .pruneCircularPhi]
  deriving Repr

namespace OptimizerConfig

/-- The default settings with memory accesses assumed not to alias. -/
def aggressive : OptimizerConfig := { noalias := true }

/-- The default settings without the cleanup passes. -/
def propagateOnlyPreset : OptimizerConfig := { fullCleanup := [] }

/-- Whether neither list holds a pass. -/
def isEmpty (c : OptimizerConfig) : Bool := c.propagateOnly.isEmpty && c.fullCleanup.isEmpty

/-- The simplifier these settings ask for. -/
def simplifier (c : OptimizerConfig) : Simplifier :=
  { signed := c.signed, maxIterations := c.maxSimplifyIterations }

end OptimizerConfig

/-- The settings of a decompilation: the optimizer's, and whether the structurer checks that
    every loop it builds has a head dominating its latch. -/
structure Settings where
  optimizer : OptimizerConfig := {}
  verifyBackEdges : Bool := false
  deriving Repr

end Decompilation
