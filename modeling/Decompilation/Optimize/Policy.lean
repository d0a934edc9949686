import Decompilation.Ir.DefUse
import Decompilation.Simplify.Replacement
import Decompilation.Optimize.Config
import Decompilation.Event

/-!
# Policies of the passes

Every pass visits the registered definitions `d` with their assigned values `v`. A
*propagation* pass chooses definitions and replaces their readers: each reader is replaced by
a copy of the value where the pass allows it. A *pruning* pass chooses definitions and deletes
their assignments. The policies here say which definitions and readers each pass takes.

Entry values (implicit definitions, and subscript `0`, the value on entry) are never
propagated: they are unknown. Calls and inline assembly have unseen effects, so a value holding
one is never copied, and a memory access may alias unless the settings or a no-alias mark say
otherwise.

* `Propagator`, `Pruner`: the two shapes of pass;
* `PassKind.pass`: the policy of each pass.
-/

namespace Decompilation

/-- Whether an expression's value may change between two points: a call, inline assembly, or
    a memory read. -/
def ExprNode.isVolatile (x : ExprNode) : Bool := x.hasEffect || x.isDeref

/-- Whether an expression changes state: a call, inline assembly, or a memory write. -/
def ExprNode.isWrite (x : ExprNode) : Bool := x.hasEffect || (x.isDeref && x.isDef)

namespace Procedure

variable (p : Procedure)

/-- Whether the subtree at `e` reads memory. -/
def enclosesDeref (e : ExprId) : Bool := p.encloses ExprNode.isDeref e

/-- Whether `d` holds the value on entry: an implicit definition, or subscript `0`. -/
def isEntryValue (d : ExprId) : Bool := (p.node d).weak || (p.node d).idx == some 0

/-- The container of the statement that holds `e`. -/
def containerOf (e : ExprId) : Option CntrId := (p.stmtOf e).bind fun s => (p.stmtNode s).parent

/-- Whether `e` is an argument of a merge. -/
def isPhiArgument (e : ExprId) : Bool := ((p.parentExpr e).map fun q => (p.node q).isPhi).getD false

/-- Whether a statement strictly between the statement defining `d` and the one reading it
    through `u` holds an expression with a part satisfying `test`. Statements in other
    containers than the definition's are not compared and never interfere; a definition or
    reader outside any statement always does. -/
def interferes (d u : ExprId) (test : ExprNode → Bool) : Bool :=
  match p.stmtOf d, p.stmtOf u with
  | some ds, some us =>
    match (p.stmtNode ds).parent with
    | none => true
    | some c =>
      let stmts := (p.cntrNode c).stmts
      match stmts.idxOf? ds, stmts.idxOf? us with
      | some i, some j =>
        ((stmts.take j).drop (i + 1)).any fun s => (p.stmtNode s).exprs.any (p.encloses test)
      | _, _ => false
  | _, _ => true

/-- The expression an address computation above `u` feeds: the first ancestor that is not an
    addition, subtraction or mask. -/
def addressUser (u : ExprId) : Option ExprId := go p.depthBound u
where
  /-- The walk up from `c`. -/
  go : Nat → ExprId → Option ExprId
    | 0, _ => none
    | n + 1, c =>
      match p.parentExpr c with
      | none => none
      | some q =>
        match (p.node q).binaryOp? with
        | some .add | some .sub | some .bitAnd => go n q
        | _ => some q

/-- Whether the address of the memory definition `d` is read elsewhere: a part of the address
    reads a definition that also has a reader outside the address. -/
def addressEscapes (d : ExprId) : Bool :=
  match (p.node d).operand? 0 with
  | none => true
  | some address =>
    let nodes := p.postOrder address
    nodes.any fun n =>
      match (p.node n).defLink with
      | some used => (p.node used).uses.any fun u => !nodes.contains u
      | none => false

end Procedure

/-- A propagation pass: which definitions it takes, and the replacement of a reader `u` by
    the value `v` of its definition, if any. A pass that *consumes* its definitions deletes the
    assignment of one left with no reader. -/
structure Propagator where
  kind : PassKind
  event : EventKind
  select : OptimizerConfig → Procedure → ExprId → ExprId → Bool
  generate : Procedure → ExprId → ExprId → Option Replacement
  consumes : Bool := false

/-- A pruning pass: which definitions it deletes, and what it keeps of their values first. -/
structure Pruner where
  kind : PassKind
  event : EventKind
  select : OptimizerConfig → Procedure → ExprId → ExprId → Bool
  prepare : ExprId → ExprId → Edit Unit := fun _ _ => pure ()

/-- A pass of either shape. -/
inductive Pass where
  | propagate (p : Propagator)
  | prune (p : Pruner)

namespace Pass

open Procedure

/-- Literal values replace their readers, except merge arguments and operands of `&`. A memory
    definition is propagated only when it cannot alias. -/
def constants : Propagator where
  kind := .propagateConstants
  event := .constantPropagated
  select cfg p d v :=
    !p.isEntryValue d && (!(p.node d).isDeref || (p.node d).safe || cfg.noalias) &&
      (p.node v).isVal
  generate p u v :=
    match (p.parentExpr u).map fun q => (p.node q).kind with
    | some .phi | some (.unary .addrOf) => none
    | _ => some (.copy v)

/-- A value read exactly once moves into its reader when the reader is in the same container,
    is a merge argument, or the value is a literal; a value that calls, or a memory definition,
    moves only past statements that neither call nor read memory, and a value that reads memory
    only past statements that neither call nor write memory. Into a merge only a register
    moves, and only in place of a register. -/
def singleUse : Propagator where
  kind := .propagateSingleUse
  event := .copyPropagated
  select _ p d v :=
    if p.isEntryValue d || (p.node v).isPhi then false else
    match (p.node d).uses with
    | [u] =>
      if !(p.containerOf d == p.containerOf u || p.isPhiArgument u || (p.node v).isVal) then false
      else if p.enclosesEffect v || p.enclosesDeref d then !p.interferes d u ExprNode.isVolatile
      else if p.enclosesDeref v then !p.interferes d u ExprNode.isWrite
      else true
    | _ => false
  generate p u v :=
    if p.isPhiArgument u && !((p.node u).isReg && (p.node v).isReg) then none
    else some (.copy v)
  consumes := true

/-- Register values that neither merge nor call, and read memory only when it cannot alias, are
    copied into the address computations of memory definitions. -/
def dereferenced : Propagator where
  kind := .propagateDereferenced
  event := .dereferencePropagated
  select cfg p d v :=
    !p.isEntryValue d && (p.node d).isReg && !(p.node v).isPhi && !p.enclosesEffect v &&
      (cfg.noalias || !p.enclosesDeref v)
  generate p u v :=
    match p.addressUser u with
    | some q => if (p.node q).isDeref && (p.node q).isDef then some (.copy v) else none
    | none => none

/-- Register definitions with no reader whose value does not call are deleted. -/
def deadRegs : Pruner where
  kind := .pruneDeadRegs
  event := .definitionPruned
  select _ p d v := (p.node d).uses.isEmpty && (p.node d).isReg && !p.enclosesEffect v

/-- Memory definitions with no reader whose value does not call are deleted, when they cannot
    alias (a merge, the settings, or a no-alias mark say so) and their address is not read
    elsewhere, or they carry the no-alias mark. -/
def deadDerefs : Pruner where
  kind := .pruneDeadDerefs
  event := .definitionPruned
  select cfg p d v :=
    let x := p.node d
    if !x.uses.isEmpty || !x.isDeref || p.enclosesEffect v then false
    else if !((p.node v).isPhi || cfg.noalias || x.safe) then false
    else if (x.operand? 0).isNone then false
    else !p.addressEscapes d || x.safe

/-- A register holding the unread result of a call loses it: the call stays as a statement of
    its own, right after the assignment. -/
def deadResults : Pruner where
  kind := .pruneDeadResults
  event := .callResultExtracted
  select _ p d v := (p.node d).uses.isEmpty && (p.node d).isReg && (p.node v).isCall
  prepare d v := do
    let call ← pluckExpr v
    let _ ← pushExprAfter call ((← get).topOf d)

/-- A merge whose definition is read only by the merge itself is deleted. -/
def singlePhi : Pruner where
  kind := .pruneSinglePhi
  event := .phiPruned
  select _ p d v :=
    match (p.node d).uses with
    | [u] => (p.node v).isPhi && p.parentExpr u == some v
    | _ => false

/-- A definition read only as an argument of a merge that is assigned to a place equal to the
    definition's value is deleted, with that argument. -/
def circularPhi : Pruner where
  kind := .pruneCircularPhi
  event := .phiPruned
  select _ p d v :=
    match (p.node d).uses with
    | [u] =>
      match (p.parentExpr u).filter fun q => (p.node q).isPhi with
      | none => false
      | some phi =>
        match (p.parentExpr phi).filter fun a => (p.node a).isAssign with
        | none => false
        | some a => (((p.node a).operand? 0).map fun t => p.equals t v).getD false
    | _ => false
  prepare d _ := do
    for u in ((← get).node d).uses do
      discardExpr u

end Pass

/-- The policy of each pass. -/
def PassKind.pass : PassKind → Pass
  | .propagateConstants => .propagate Pass.constants
  | .propagateSingleUse => .propagate Pass.singleUse
  | .propagateDereferenced => .propagate Pass.dereferenced
  | .pruneDeadRegs => .prune Pass.deadRegs
  | .pruneDeadDerefs => .prune Pass.deadDerefs
  | .pruneDeadResults => .prune Pass.deadResults
  | .pruneSinglePhi => .prune Pass.singlePhi
  | .pruneCircularPhi => .prune Pass.circularPhi

end Decompilation
