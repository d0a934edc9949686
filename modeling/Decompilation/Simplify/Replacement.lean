import Decompilation.Ir.Edit

/-!
# Replacements

A replacement describes the expression that replaces the one a rule fired on, in terms of that
expression's existing parts: a part moved into the replacement, a deep copy of a part, a new
literal, or a new operation over further replacements. `Replacement.build` allocates the replacement,
detached, its parts first and left to right.
-/

namespace Decompilation

/-- What an expression is replaced by. -/
inductive Replacement where
  /-- An existing subtree, moved out of where it is. -/
  | keep (e : ExprId)
  /-- A deep copy of an existing subtree that keeps everything, its chain links included. -/
  | copy (e : ExprId)
  /-- A new literal. -/
  | val (value : UInt64) (size : Nat)
  /-- A new unary operation. -/
  | unary (op : UnaryOp) (a : Replacement)
  /-- A new binary operation. -/
  | binary (op : BinaryOp) (l r : Replacement)
  deriving Repr

namespace Replacement

/-- Allocates the expression a replacement describes and returns it, detached. -/
def build : Replacement → Edit ExprId
  | .keep e => do
    if ((← get).node e).parent.isSome then
      let _ ← Procedure.pluckExpr e
    pure e
  | .copy e => Procedure.cloneExpr e CloneTags.all
  | .val v s => Procedure.val v s
  | .unary op a => do
    let a ← build a
    Procedure.unary op a
  | .binary op l r => do
    let l ← build l
    let r ← build r
    Procedure.binary op l r

end Replacement

end Decompilation
