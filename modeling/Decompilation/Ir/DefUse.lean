import Decompilation.Ir.Edit
import Decompilation.Ir.Render

/-!
# Definition/use chains

The chains link every definition position (the written side of an assignment) to the
expressions that read the value it defines, and each reader back to its definition. They are
derived from SSA subscripts: a read of `eax_3` reads the definition of `eax_3`, the place being
named by its `locationKey`. A place read before it is ever written gets an implicit *weak*
definition `x_N = 0` in the procedure's container of implicit definitions, so every subscripted
read has a definition.

* `Procedure.linkDefs`: rebuilds all chains, returning the number of links;
* `Procedure.validate`, `isValid`: check that the chains agree with the tree;
* `Procedure.defUseTable`: a listing of every definition with its readers.
-/

namespace Decompilation

namespace Procedure

/-- The registered definitions, in increasing number. -/
def defs (p : Procedure) : List ExprId :=
  p.liveExprs.filter fun d => (p.node d).tracked

/-- Whether `d` is a live registered definition. -/
def isTracked (p : Procedure) (d : ExprId) : Bool := ((p.expr? d).map ExprNode.tracked).getD false

/-- The assignment whose written side is `d`, with its value; none when `d` is not the written
    side of an assignment. An assignment that has lost its value fails. -/
def assignmentOf (p : Procedure) (d : ExprId) : Except Error (Option (ExprId × ExprId)) :=
  match p.expr? d with
  | some x =>
    match x.parent with
    | some (.expr a) =>
      let ax := p.node a
      if ax.kind == .assign && ax.operands.head? == some d then do
        pure (some (a, ← ax.operandAt 1))
      else pure none
    | _ => pure none
  | none => pure none

/-- Cuts the link of a reader to its definition, on both ends. -/
def unlinkUse (p : Procedure) (u : ExprId) : Procedure :=
  match (p.node u).defLink with
  | some d =>
    let p := p.modifyExpr u fun x => { x with defLink := none }
    p.modifyExpr d fun x => { x with uses := x.uses.filter (· != u) }
  | none => p

/-- Links the reader `u` to the registered definition `d`, replacing any earlier link. -/
def addUse (u d : ExprId) : Edit Unit := do
  let p ← get
  if !p.isTracked d then
    throw (.defUse ((← p.showExpr d) ++ " is not a registered definition"))
  set ((p.unlinkUse u).linkUse u d)

/-- The implicit definition `x_N = 0` of the place read by `u`, added to the container of
    implicit definitions and registered. The value has the register's width, and no width for
    a memory access. -/
def defineUninit (u : ExprId) : Edit ExprId := do
  let d ← cloneExpr u { index := true, safe := true }
  modify fun p => p.modifyExpr d fun x => { x with weak := true }
  let size := match ((← get).node u).kind with
    | .reg _ s => s
    | _ => 0
  let z ← val 0 size
  let a ← assign d z
  let s ← exprStmt (← get).address a
  pushStmt uninitContainer s
  modify fun p => p.modifyExpr d fun x => { x with tracked := true }
  pure d

/-- The entry for a key in a list of pairs. -/
def lookupKey (table : List ((String × Nat) × ExprId)) (k : String × Nat) : Option ExprId :=
  (table.find? (·.1 == k)).map (·.2)

/-- Sets the entry for a key in a list of pairs. -/
def setKey (table : List ((String × Nat) × ExprId)) (k : String × Nat) (v : ExprId) :
    List ((String × Nat) × ExprId) :=
  (k, v) :: table.filter (·.1 != k)

/-- Rebuilds the chains from the subscripts. Every link and registration is cleared and the
    old implicit definitions are deleted; then every subscripted place in definition position
    in the blocks (in address order) and the body is registered, the last of a place and
    subscript being the one read; finally every subscripted read of a place is linked to its
    definition, made up as an implicit one when there is none. Returns the number of links. -/
def linkDefs : Edit Nat := do
  let clear (x : ExprNode) : ExprNode := { x with defLink := none, uses := [], tracked := false }
  modify fun p => { p with exprs := p.exprs.map (Option.map clear) }
  for s in ((← get).cntrNode uninitContainer).stmts do
    pluckStmt s true
  let p ← get
  let roots := p.blocks.map Block.container ++ p.body.toList
  let nodes := roots.flatMap p.exprsIn
  let mut table : List ((String × Nat) × ExprId) := []
  for n in nodes do
    let x := (← get).node n
    if let (true, true, some i) := (x.isDef, x.isLocation, x.idx) then
      table := setKey table (← (← get).locationKey n, i) n
      modify fun p => p.modifyExpr n fun y => { y with tracked := true }
  let mut links := 0
  for n in nodes do
    let x := (← get).node n
    if let (false, true, some i) := (x.isDef, x.isLocation, x.idx) then
      let k := (← (← get).locationKey n, i)
      let d ← match lookupKey table k with
        | some d => pure d
        | none => do
          let d ← defineUninit n
          table := setKey table k d
          pure d
      addUse n d
      links := links + 1
  pure links

/-- Checks that the chains agree with the tree: every registered definition is in definition
    position and attached, and each of its readers is live and links back to it; and every
    link of a live expression points at a live registered definition. -/
def validate (p : Procedure) : Except Error Unit := do
  for d in p.defs do
    let x := p.node d
    if !x.isDef then
      throw (.defUse ("registered " ++ (← p.showExpr d) ++ " is not a definition position"))
    if x.parent.isNone then
      throw (.defUse ("registered " ++ (← p.showExpr d) ++ " is detached"))
    for u in x.uses do
      match p.expr? u with
      | some ux =>
        if ux.defLink != some d then
          throw (.defUse ("use " ++ (← p.showExpr u) ++ " does not point back at " ++
            (← p.showExpr d)))
      | none => throw (.defUse ((← p.showExpr d) ++ " records discarded use " ++ u.name))
  for e in p.liveExprs do
    if let some d := (p.node e).defLink then
      if !p.isTracked d then
        throw (.defUse ((← p.showExpr e) ++ " points at an untracked definition " ++ d.name))

/-- Whether the chains agree with the tree; an error that stops the whole run, met while
    writing the text of a disagreement, is passed on. -/
def isValid (p : Procedure) : Except Error Bool :=
  match p.validate with
  | .ok () => pure true
  | .error e => if e.stopsRun then throw e else pure false

/-- Pads a text with spaces to at least `width` characters. -/
def padRight (s : String) (width : Nat) : String := s.pushn ' ' (width - s.length)

/-- The def/use table: a line per registered definition with its number of readers (weak ones
    marked), then a line per reader with its statement and that statement's address. -/
def defUseTable (p : Procedure) : Except Error String := do
  let entry (d : ExprId) : Except Error String := do
    let x := p.node d
    let head := (← p.showExpr d) ++ (if x.weak then " (weak)" else "")
    let readers ← x.uses.mapM fun u => do
      let site := match p.stmtOf u with
        | some s => hex (p.stmtNode s).address.toNat
        | none => "<detached>"
      pure ("    " ++ (← p.showExpr (p.topOf u)) ++ " @ " ++ site ++ "\n")
    pure (padRight head 24 ++ s!" {x.uses.length} use(s)\n" ++ String.join readers)
  pure (String.join (← p.defs.mapM entry))

end Procedure

end Decompilation
