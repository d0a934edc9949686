import Decompilation.Optimize.Policy
import Decompilation.Simplify.Reduce
import Decompilation.Session

/-!
# Running a pass

A pass visits the registered definitions as they are when it starts, in increasing number,
skipping those deleted on the way.

A propagation pass replaces the readers of each definition it takes, one at a time, in the
order they were linked, skipping those its policy leaves alone. After each replacement the
statement of the reader is simplified again, and the replacement is recorded with the
statement's new text. A definition whose value reads the definition itself would have readers forever; a
bound on the number of replacements for one definition, far above what any other definition needs,
ends that.

A pruning pass deletes the assignment of each definition it takes, when the assignment is a
statement's expression, and records its text.

`Pass.run` answers whether the pass changed anything.
-/

namespace Decompilation

namespace Procedure

/-- Deletes an assignment: as a statement's expression, taking an expression statement left
    empty with it, or else as a subtree. -/
def removeAssignment (a : ExprId) : Edit Unit := do
  match ((← get).node a).parent with
  | some (.stmt s) => let _ ← removeExpr s a
  | _ => discardExpr a

end Procedure

open Work

namespace Propagator

/-- Replaces the readers of `d` from the one at position `skipped` on, with at most `fuel`
    more steps, and returns the number of replacements added to `done`. -/
def drain (pr : Propagator) (simp : Simplifier) (d : ExprId) :
    Nat → Nat → Nat → Work Nat
  | 0, _, done => pure done
  | fuel + 1, skipped, done => do
    let p ← current
    let some x := p.expr? d | return done
    let some u := x.uses[skipped]? | return done
    let some (_, v) ← Work.lift (p.assignmentOf d) | return done
    match (p.node u).parent, pr.generate p u v with
    | some _, some w =>
      let st := p.stmtOf u
      edit do
        let r ← w.build
        Procedure.replaceExpr u r
        Procedure.discardExpr u
      if let some s := st then
        let q ← current
        let loc := some (q.stmtNode s).address
        record { kind := pr.event, function := some q.address, location := loc,
                 message := (← Work.lift (q.showStmt s)).trimAsciiEnd.toString,
                 pass := some pr.kind.name }
        if (← edit (simp.reduceStmt s)) > 0 then
          record { kind := .expressionSimplified, function := some q.address, location := loc,
                   pass := some pr.kind.name }
      drain pr simp d fuel skipped (done + 1)
    | _, _ => drain pr simp d fuel (skipped + 1) done

/-- One run of a propagation pass; whether it replaced a reader. -/
def run (pr : Propagator) (cfg : OptimizerConfig) : Work Bool := do
  let mut propagated := 0
  for d in (← current).defs do
    let p ← current
    if !p.isTracked d then continue
    let some (a, v) ← Work.lift (p.assignmentOf d) | continue
    if !pr.select cfg p d v then continue
    let fuel := 2 * ((p.node d).uses.length + 1) * (p.exprs.size + 1)
    propagated ← pr.drain cfg.simplifier d fuel 0 propagated
    if pr.consumes then
      if let some x := (← current).expr? d then
        if x.uses.isEmpty then edit (Procedure.removeAssignment a)
  pure (propagated > 0)

end Propagator

/-- One run of a pruning pass; whether it deleted an assignment. -/
def Pruner.run (pr : Pruner) (cfg : OptimizerConfig) : Work Bool := do
  let mut pruned := 0
  for d in (← current).defs do
    let p ← current
    if !p.isTracked d then continue
    let some (a, v) ← Work.lift (p.assignmentOf d) | continue
    let some (.stmt _) := (p.node a).parent | continue
    if !pr.select cfg p d v then continue
    let location := match p.stmtOf a with
      | some s => (p.stmtNode s).address
      | none => p.address
    let text ← Work.lift (p.showExpr a)
    edit (pr.prepare d v)
    edit (Procedure.removeAssignment a)
    record { kind := pr.event, function := some p.address, location := some location,
             message := text, pass := some pr.kind.name }
    pruned := pruned + 1
  pure (pruned > 0)

/-- One run of a pass over the procedure; whether it changed anything. -/
def Pass.run (cfg : OptimizerConfig) : Pass → Work Bool
  | .propagate pr => pr.run cfg
  | .prune pr => pr.run cfg

/-- One run of the pass of a kind; whether it changed anything. -/
def PassKind.run (k : PassKind) (cfg : OptimizerConfig) : Work Bool := k.pass.run cfg

end Decompilation
