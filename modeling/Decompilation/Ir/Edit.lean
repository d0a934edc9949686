import Decompilation.Ir.Tree

/-!
# Editing the tree

The edits keep the parent records in step with the lists: a listed node records its lister,
and a detached node records none. Moving a subtree is plucking it and listing it elsewhere;
deleting it is discarding, which empties the slot of every node below it.

Discarding also keeps the definition/use chains exact: a discarded reader leaves the readers
of its definition, and the readers of a discarded definition lose their link to it.

* `Procedure.cloneExpr`: a fresh copy of a subtree, keeping the properties the tags ask for;
* `Procedure.replaceExpr`, `pluckExpr`, `discardExpr`: edits of expressions;
* `Procedure.pushExprAfter`, `removeExpr`: an expression as a new statement after another
  one's statement, and the removal of a statement's expression;
* `Procedure.pushStmt`, `replaceStmt`, `pluckStmt`, `moveStmts`: edits of statement lists.
-/

namespace Decompilation

namespace Procedure

/-- Records `u` as a reader of the definition `d`. -/
def linkUse (p : Procedure) (u d : ExprId) : Procedure :=
  let p := p.modifyExpr u fun x => { x with defLink := some d }
  p.modifyExpr d fun x => { x with uses := x.uses ++ [u] }

/-- A fresh copy of the subtree at `e`, every node new and detached. The copy keeps the
    subscripts, the no-alias marks and the implicit-definition marks when the tags ask for
    them; with `defLink`, each copied reader of a live definition reads it too. -/
def cloneExpr (e : ExprId) (tags : CloneTags) : Edit ExprId := do
  go (← get).depthBound e
where
  /-- The copy of the subtree at `c`, its operands copied first. -/
  go : Nat → ExprId → Edit ExprId
    | 0, c => pure c
    | n + 1, c => do
      let src := (← get).node c
      let copied ← src.operands.mapM (go n)
      let new ← allocExpr
        { kind := src.kind, operands := copied
          idx := if tags.index then src.idx else none
          safe := tags.safe && src.safe
          weak := tags.weak && src.weak }
      if tags.defLink then
        if let some d := src.defLink then
          if (← get).isLive d then
            modify fun p => p.linkUse new d
      pure new

/-- Puts the detached expression `new` in the place of `old`, which becomes detached. -/
def replaceExpr (old new : ExprId) : Edit Unit := do
  let p ← get
  if (p.node new).parent.isSome then
    throw (.malformed ("replacement " ++ new.name ++ " is already owned"))
  match (p.node old).parent, p.slotOf old with
  | some par, some slot =>
    let p := match par with
      | .expr q => p.modifyExpr q fun x => { x with operands := x.operands.set slot new }
      | .stmt s => p.modifyStmt s fun x => { x with exprs := x.exprs.set slot new }
    let p := p.modifyExpr new fun x => { x with parent := some par }
    set (p.modifyExpr old fun x => { x with parent := none })
  | _, _ => throw (.malformed ("cannot replace detached expression " ++ old.name))

/-- Takes an expression out of the list that holds it; the later entries move up. -/
def pluckExpr (e : ExprId) : Edit ExprId := do
  let p ← get
  match (p.node e).parent, p.slotOf e with
  | some par, some slot =>
    let p := match par with
      | .expr q => p.modifyExpr q fun x => { x with operands := x.operands.eraseIdx slot }
      | .stmt s => p.modifyStmt s fun x => { x with exprs := x.exprs.eraseIdx slot }
    set (p.modifyExpr e fun x => { x with parent := none })
    pure e
  | _, _ => throw (.malformed ("cannot pluck detached expression " ++ e.name))

/-- Empties the slot of one expression: it leaves the readers of its definition, and if it
    is a definition its readers lose their link. -/
def dropExpr (p : Procedure) (n : ExprId) : Procedure :=
  match p.expr? n with
  | none => p
  | some x =>
    let p := { p with exprs := p.exprs.modify n.index fun _ => none }
    let p := match x.defLink with
      | some d => p.modifyExpr d fun y => { y with uses := y.uses.filter (· != n) }
      | none => p
    if x.isDef then
      x.uses.foldl (fun p u => p.modifyExpr u fun y => { y with defLink := none }) p
    else p

/-- Deletes the subtree at `e`, detaching it first, operands before their expression. -/
def discardExpr (e : ExprId) : Edit Unit := do
  let p ← get
  if !p.isLive e then return
  if (p.node e).parent.isSome then
    tryCatch (do let _ ← pluckExpr e) fun _ => pure ()
  let nodes := (← get).postOrder e
  modify fun p => nodes.foldl dropExpr p

/-- The position of statement `s` in container `c`. -/
def stmtSlot (c : CntrId) (s : StmtId) : Edit Nat := do
  match ((← get).cntrNode c).stmts.idxOf? s with
  | some i => pure i
  | none => throw (.malformed (s.name ++ " is not listed by " ++ c.name))

/-- Lists the detached statement `s` at the end of container `c`. -/
def pushStmt (c : CntrId) (s : StmtId) : Edit Unit := do
  if ((← get).stmtNode s).parent.isSome then
    throw (.malformed ("statement " ++ s.name ++ " is already owned"))
  modify fun p =>
    let p := p.modifyCntr c fun x => { x with stmts := x.stmts ++ [s] }
    p.modifyStmt s fun x => { x with parent := some c }

/-- Wraps the detached expression `e` in a new expression statement at the address of the
    statement holding `existing`, right after that statement. -/
def pushExprAfter (e existing : ExprId) : Edit StmtId := do
  let p ← get
  let some anchor := p.stmtOf existing
    | throw (.malformed ("expression " ++ existing.name ++ " has no statement"))
  let some c := (p.stmtNode anchor).parent
    | throw (.malformed ("statement " ++ anchor.name ++ " has no container"))
  let pos ← stmtSlot c anchor
  let s ← allocStmt .expr (p.stmtNode anchor).address [e] []
  modify fun p =>
    let p := p.modifyCntr c fun x => { x with stmts := x.stmts.insertIdx (pos + 1) s }
    p.modifyStmt s fun x => { x with parent := some c }
  pure s

/-- Deletes statement `s`, if still there, with all its expressions and bodies. -/
def discardStmt (s : StmtId) : Edit Unit := do
  go (← get).nestingBound s
where
  /-- The deletion, with a fuel above the nesting depth. -/
  go : Nat → StmtId → Edit Unit
    | 0, _ => pure ()
    | n + 1, s => do
      let some st := (← get).stmt? s | return
      modify fun p => { p with stmts := p.stmts.modify s.index fun _ => none }
      for e in st.exprs do
        modify fun p => p.modifyExpr e fun x => { x with parent := none }
        discardExpr e
      for c in st.children do
        let some ct := (← get).cntr? c | continue
        modify fun p => { p with cntrs := p.cntrs.modify c.index fun _ => none }
        for t in ct.stmts do
          modify fun p => p.modifyStmt t fun x => { x with parent := none }
          go n t

/-- Takes statement `s` out of its container, if it has one, and deletes it when `detach`. -/
def pluckStmt (s : StmtId) (detach : Bool) : Edit Unit := do
  if let some c := ((← get).stmtNode s).parent then
    let pos ← stmtSlot c s
    modify fun p =>
      let p := p.modifyCntr c fun x => { x with stmts := x.stmts.eraseIdx pos }
      p.modifyStmt s fun x => { x with parent := none }
  if detach then discardStmt s

/-- Deletes the expression `e` of statement `s`; an expression statement left with no
    expression is deleted too, which the answer reports. -/
def removeExpr (s : StmtId) (e : ExprId) : Edit Bool := do
  if ((← get).node e).parent != some (.stmt s) then
    throw (.malformed (e.name ++ " is not an expression of " ++ s.name))
  discardExpr e
  let st := (← get).stmtNode s
  let emptied := st.kind == .expr && st.exprs.isEmpty
  if emptied then pluckStmt s true
  pure emptied

/-- Puts the detached statement `new` in the place of `old`, which becomes detached. -/
def replaceStmt (old new : StmtId) : Edit Unit := do
  let p ← get
  if (p.stmtNode new).parent.isSome then
    throw (.malformed ("replacement " ++ new.name ++ " is already owned"))
  let some c := (p.stmtNode old).parent
    | throw (.malformed ("cannot replace detached statement " ++ old.name))
  let pos ← stmtSlot c old
  modify fun p =>
    let p := p.modifyCntr c fun x => { x with stmts := x.stmts.set pos new }
    let p := p.modifyStmt new fun x => { x with parent := some c }
    p.modifyStmt old fun x => { x with parent := none }

/-- Moves every statement of container `src` to the end of container `dst`. -/
def moveStmts (src dst : CntrId) : Edit Unit :=
  modify fun p =>
    let moved := (p.cntrNode src).stmts
    let p := p.modifyCntr src fun x => { x with stmts := [] }
    let p := moved.foldl (fun p s => p.modifyStmt s fun x => { x with parent := some dst }) p
    p.modifyCntr dst fun x => { x with stmts := x.stmts ++ moved }

/-- Sets the container that control falls through to from container `c`. -/
def setFallthrough (c : CntrId) (next : Option CntrId) : Edit Unit :=
  modify fun p => p.modifyCntr c fun x => { x with fallthrough := next }

end Procedure

end Decompilation
