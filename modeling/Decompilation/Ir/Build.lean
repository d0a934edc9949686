import Decompilation.Ir.Edit

/-!
# Building procedures from descriptions

Descriptions are plain trees: `ExprTree` for expressions, `StmtSpec` for statements and
`ProcedureSpec` for a whole function. Building one allocates its nodes depth-first, left to
right, operands before the expression that owns them, so the numbering of the nodes, which
decides the order in which later passes visit definitions, is fixed by the description.
`Procedure.tree` reads a subtree back as a description.

* `Procedure.addTree`: the nodes of an expression description;
* `ProcedureSpec.build`: a procedure from its description, or the first error;
* `Procedure.tree`: the description of a live subtree.
-/

namespace Decompilation

/-- The properties of an expression node besides its kind: the SSA subscript, the no-alias
    mark, the definition-position mark and the implicit-definition mark. -/
structure ExprTags where
  idx : Option Nat := none
  safe : Bool := false
  isDef : Bool := false
  weak : Bool := false
  deriving DecidableEq, Repr

/-- An expression as a plain tree: a kind, its tags and its operands. -/
inductive ExprTree where
  | node (kind : ExprKind) (tags : ExprTags) (operands : List ExprTree)
  deriving Repr

/-- A statement as a plain tree. Each carries an optional address; a missing one is the
    address of the enclosing block, or of the statement owning the body it is in. -/
inductive StmtSpec where
  | expr (addr : Option UInt64) (e : ExprTree)
  | assign (addr : Option UInt64) (l r : ExprTree)
  | goto (addr : Option UInt64) (dest : ExprTree)
  | branch (addr : Option UInt64) (c taken notTaken : ExprTree)
  | ifElse (addr : Option UInt64) (c : ExprTree) (thenBody : List StmtSpec)
      (elseBody : Option (List StmtSpec))
  | whileLoop (addr : Option UInt64) (c : ExprTree) (body : List StmtSpec)
  | doWhile (addr : Option UInt64) (c : ExprTree) (body : List StmtSpec)
  | breakLoop (addr : Option UInt64)
  | continueLoop (addr : Option UInt64)
  | ret (addr : Option UInt64) (value : Option ExprTree)
  deriving Repr

/-- A basic block: its address, its successors and its statements. -/
structure BlockSpec where
  address : UInt64
  jump : Option UInt64 := none
  fail : Option UInt64 := none
  stmts : List StmtSpec := []
  deriving Repr

/-- A function: its address, optional name and entry, and its blocks; the first block is the
    entry unless another is named. -/
structure ProcedureSpec where
  address : UInt64
  name : Option String := none
  entry : Option UInt64 := none
  blocks : List BlockSpec := []
  deriving Repr

namespace Procedure

mutual

/-- Allocates the nodes of an expression description, operands first, and returns the
    number of its root. -/
def addTree : ExprTree → Edit ExprId
  | .node kind tags operands => do
    let ops ← addTrees operands
    let e ← match kind, ops with
      | .val v s, _ => val v s
      | .assign, [l, r] => assign l r
      | _, _ => allocExpr { kind, operands := ops }
    if tags.idx.isSome then setIndex e tags.idx
    if tags.safe then markSafe e
    pure e

/-- Allocates a list of expression descriptions in order. -/
def addTrees : List ExprTree → Edit (List ExprId)
  | [] => pure []
  | t :: ts => do
    let e ← addTree t
    let es ← addTrees ts
    pure (e :: es)

end

mutual

/-- Allocates a statement description; `d` is the address of a statement that gives none. -/
def addStmt (d : UInt64) : StmtSpec → Edit StmtId
  | .expr a e => do exprStmt (a.getD d) (← addTree e)
  | .assign a l r => do
    let l ← addTree l
    let r ← addTree r
    exprStmt (a.getD d) (← assign l r)
  | .goto a e => do goto (a.getD d) (← addTree e)
  | .branch a c t f => do
    let c ← addTree c
    let t ← addTree t
    let f ← addTree f
    branch (a.getD d) c t f
  | .ifElse a c th el => do
    let loc := a.getD d
    let c ← addTree c
    let tc ← newContainer loc
    addBody loc tc th
    let ec ← match el with
      | some body => do
        let ec ← newContainer loc
        addBody loc ec body
        pure (some ec)
      | none => pure none
    ifStmt loc c tc ec
  | .whileLoop a c body => do
    let loc := a.getD d
    let c ← addTree c
    let bc ← newContainer loc
    addBody loc bc body
    whileStmt loc c bc
  | .doWhile a c body => do
    let loc := a.getD d
    let c ← addTree c
    let bc ← newContainer loc
    addBody loc bc body
    doWhile loc c bc
  | .breakLoop a => breakStmt (a.getD d)
  | .continueLoop a => continueStmt (a.getD d)
  | .ret a v => do
    match v with
    | some v => returnStmt (a.getD d) (some (← addTree v))
    | none => returnStmt (a.getD d) none

/-- Allocates statement descriptions in order, listing each in container `c`. -/
def addBody (d : UInt64) (c : CntrId) : List StmtSpec → Edit Unit
  | [] => pure ()
  | s :: rest => do
    let id ← addStmt d s
    pushStmt c id
    addBody d c rest

end

/-- The description of the live subtree at `e`, tags included. -/
def tree (p : Procedure) (e : ExprId) : ExprTree := go p.depthBound e
where
  /-- The description of the subtree at `c`. -/
  go : Nat → ExprId → ExprTree
    | 0, _ => .node (.asm "") {} []
    | n + 1, c =>
      let x := p.node c
      .node x.kind { idx := x.idx, safe := x.safe, isDef := x.isDef, weak := x.weak }
        (x.operands.map (go n))

end Procedure

/-- Builds a procedure from its description: the procedure, its name, then block by block the
    block and its statements, and last the entry. The first error ends the building. -/
def ProcedureSpec.build (spec : ProcedureSpec) : Except Error Procedure :=
  let steps : Edit Unit := do
    if let some n := spec.name then modify fun p => { p with name := some n }
    for b in spec.blocks do
      let c ← Procedure.addBlock b.address b.jump b.fail
      Procedure.addBody b.address c b.stmts
    if let some e := spec.entry then Procedure.setEntry e
  match (steps.run).run (Procedure.new spec.address) with
  | (.ok (), p) => .ok p
  | (.error e, _) => .error e

end Decompilation
