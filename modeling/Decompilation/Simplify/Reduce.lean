import Decompilation.Simplify.Rules

/-!
# Reducing expressions

The simplifier works on one tree at a time. A step scans the tree in post-order (operands
before the expression that holds them), skipping definition positions, and applies the first
rule that fires on the first expression it fires on; the replaced expression is discarded. The
steps repeat until none fires. Every rule removes an expression or moves a negation or literal
towards the leaves, so this ends; a cap on the number of steps still reports a failure to
settle as an error rather than looping.

* `Simplifier.reduceExpr`: reduces a tree and returns its new root;
* `Simplifier.reduceStmt`: reduces each expression of a statement, returning the number of
  replacements.
-/

namespace Decompilation

/-- The simplifier's settings: signed or unsigned arithmetic, and the most replacements in
    one tree before it is taken not to settle. -/
structure Simplifier where
  signed : Bool := false
  maxIterations : Nat := 256
  deriving Repr

namespace Simplifier

/-- Runs an answer of the rules in the editing monad. -/
def lift {α : Type} : Except Error α → Edit α
  | .ok a => pure a
  | .error e => throw e

/-- One simplification step on the tree at `root`: the new root when a rule fired (the
    replacement itself when the root was replaced), none when the tree is settled. -/
def step (s : Simplifier) (root : ExprId) : Edit (Option ExprId) := do
  let p ← get
  for node in p.postOrder root do
    if (p.node node).isDef then continue
    let some w ← lift (firstReplacement s.signed p node) | continue
    let replacement ← w.build
    if ((← get).node node).parent.isSome then
      Procedure.replaceExpr node replacement
    Procedure.discardExpr node
    return some (if node == root then replacement else root)
  return none

/-- Reduces the tree at `root`, returning its new root and the number of replacements.
    After `maxIterations` replacements one more step must find the tree settled. -/
def reduceCounted (s : Simplifier) (root : ExprId) : Edit (ExprId × Nat) :=
  go (s.maxIterations + 1) root 0
where
  /-- At most `fuel` more steps from `root`, after `done` replacements. -/
  go : Nat → ExprId → Nat → Edit (ExprId × Nat)
    | 0, _, _ => throw (.nonConvergence .simplifier s.maxIterations)
    | fuel + 1, root, done => do
      match ← s.step root with
      | some next => go fuel next (done + 1)
      | none => pure (root, done)

/-- Reduces the tree at `root` until no rule applies and returns its root, which is the
    replacement of `root` when `root` itself was replaced. -/
def reduceExpr (s : Simplifier) (root : ExprId) : Edit ExprId := do
  pure (← s.reduceCounted root).1

/-- Reduces every expression of statement `st` and returns the number of replacements. -/
def reduceStmt (s : Simplifier) (st : StmtId) : Edit Nat := do
  let mut total := 0
  for e in ((← get).stmtNode st).exprs do
    total := total + (← s.reduceCounted e).2
  pure total

end Simplifier

end Decompilation
