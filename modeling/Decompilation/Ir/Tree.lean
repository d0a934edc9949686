import Decompilation.Ir.Procedure

/-!
# Walking the tree

Reading the tree structure of a procedure: where a node is listed, the statement and the
outermost expression above it, its subtree in post-order, pre-order and breadth-first order,
every expression of a container, and structural comparison.

A well-formed procedure is a forest, so no walk goes deeper than the number of node slots;
each walk takes that number (plus one) as its fuel.

* `Procedure.postOrder`: a subtree, operands before the expression;
* `Procedure.iterOperands`: the operands of an expression and everything below them, depth
  first (post-order) or breadth first;
* `Procedure.exprsIn`: every expression of a container in pre-order, statement by statement,
  the nested bodies after their statement;
* `Procedure.equals`, `like`: the same shape and kinds, with or without equal subscripts.
-/

namespace Decompilation

namespace Procedure

variable (p : Procedure)

/-- The position of an expression in the list that holds it. -/
def slotOf (e : ExprId) : Option Nat :=
  match (p.node e).parent with
  | some (.expr q) => (p.node q).operands.idxOf? e
  | some (.stmt s) => (p.stmtNode s).exprs.idxOf? e
  | none => none

/-- The expression whose operand `e` is. -/
def parentExpr (e : ExprId) : Option ExprId :=
  match (p.node e).parent with
  | some (.expr q) => some q
  | _ => none

/-- A bound on the depth of any expression tree of the procedure. -/
def depthBound : Nat := p.exprs.size + 1

/-- The statement that an expression belongs to, through its chain of parents. -/
def stmtOf (e : ExprId) : Option StmtId := go p.depthBound e
where
  /-- The walk up from `c`. -/
  go : Nat → ExprId → Option StmtId
    | 0, _ => none
    | n + 1, c =>
      match (p.node c).parent with
      | some (.expr q) => go n q
      | some (.stmt s) => some s
      | none => none

/-- The outermost expression above `e` (possibly `e` itself). -/
def topOf (e : ExprId) : ExprId := go p.depthBound e
where
  /-- The walk up from `c`. -/
  go : Nat → ExprId → ExprId
    | 0, c => c
    | n + 1, c =>
      match (p.node c).parent with
      | some (.expr q) => go n q
      | _ => c

/-- The subtree at `e`, each expression after its operands, left to right. -/
def postOrder (e : ExprId) : List ExprId := go p.depthBound e []
where
  /-- The subtree at `c`, in front of `acc`: the walks of the operands, each in front of those
      after it, then `c`. -/
  go : Nat → ExprId → List ExprId → List ExprId
    | 0, _, acc => acc
    | n + 1, c, acc => (p.node c).operands.foldr (go n) (c :: acc)

/-- The subtree at `e`, each expression before its operands, left to right. -/
def preOrder (e : ExprId) : List ExprId := go p.depthBound e
where
  /-- The subtree at `c`. -/
  go : Nat → ExprId → List ExprId
    | 0, _ => []
    | n + 1, c => c :: (p.node c).operands.flatMap (go n)

/-- The expressions below `e` level by level, starting with its operands. -/
def breadthFirst (e : ExprId) : List ExprId := go p.depthBound (p.node e).operands
where
  /-- The levels from `level` down. -/
  go : Nat → List ExprId → List ExprId
    | 0, _ => []
    | _, [] => []
    | n + 1, level => level ++ go n (level.flatMap fun c => (p.node c).operands)

/-- The expressions below `e`, depth first (each subtree in post-order) or breadth first. -/
def iterOperands (e : ExprId) (depthFirst : Bool) : List ExprId :=
  if depthFirst then (p.node e).operands.flatMap p.postOrder else p.breadthFirst e

/-- A bound on the nesting of containers in statements. -/
def nestingBound : Nat := p.cntrs.size + 1

/-- Every expression of container `c`: for each statement, its expressions in pre-order, then
    the expressions of its bodies. -/
def exprsIn (c : CntrId) : List ExprId := go p.nestingBound c
where
  /-- The expressions of container `c`. -/
  go : Nat → CntrId → List ExprId
    | 0, _ => []
    | n + 1, c => (p.cntrNode c).stmts.flatMap fun s =>
      let st := p.stmtNode s
      st.exprs.flatMap p.preOrder ++ st.children.flatMap (go n)

/-- Whether two expressions have the same kinds in the same shape, and, when `withIndex`,
    the same subscripts. -/
def compare (withIndex : Bool) (a b : ExprId) : Bool := go p.depthBound a b
where
  /-- The comparison of the subtrees at `x` and `y`. -/
  go : Nat → ExprId → ExprId → Bool
    | 0, _, _ => true
    | n + 1, x, y =>
      let ex := p.node x
      let ey := p.node y
      ex.kind == ey.kind && ex.operands.length == ey.operands.length &&
        (!withIndex || ex.idx == ey.idx) &&
        (ex.operands.zip ey.operands).all fun (u, v) => go n u v

/-- The same kinds, shape and subscripts. -/
def equals (a b : ExprId) : Bool := p.compare true a b

/-- The same kinds and shape, subscripts aside. -/
def like (a b : ExprId) : Bool := p.compare false a b

/-- The last statement of a container, when control cannot fall through it. -/
def terminator (c : CntrId) : Option StmtId :=
  match (p.cntrNode c).stmts.getLast? with
  | some s => if (p.stmtNode s).kind.isTerminator then some s else none
  | none => none

/-- Whether the subtree at `e` holds an expression satisfying `test`. -/
def encloses (test : ExprNode → Bool) (e : ExprId) : Bool :=
  (p.postOrder e).any fun n => test (p.node n)

/-- Whether the subtree at `e` holds a call or inline assembly, whose effects the analysis
    cannot see. -/
def enclosesEffect (e : ExprId) : Bool := p.encloses ExprNode.hasEffect e

end Procedure

end Decompilation
