import Decompilation.Graph.Basic
import Decompilation.Ir.Node

/-!
# Procedures

A `Procedure` holds one function of the program under analysis: its numbered expression,
statement and container nodes, its basic blocks in address order, and the root container of
the structured body once there is one. Nodes are never renumbered: deleting a node empties its
slot for good, so the number of a live node stays valid and a stale number can be told apart.
Container 0 is made with the procedure and collects the implicit definitions of values read
before they are written.

Edits run in the `Edit` monad: they may fail with an `Error`, and a failure keeps every change
made before it.

* `Procedure.new`, `addBlock`, `setEntry`: making a procedure and its blocks;
* `Procedure.reg`, `val`, `unary`, `binary`, …: making detached expressions, whose operands
  become owned by the new node;
* `Procedure.exprStmt`, `goto`, `branch`, …: making detached statements;
* `Procedure.cfg`: the control flow graph over block addresses.
-/

namespace Decompilation

/-- One function: its address and name, the node slots, the blocks in address order, the
    entry block's address and the structured body. -/
structure Procedure where
  address : UInt64
  name : Option String := none
  exprs : Array (Option ExprNode) := #[]
  stmts : Array (Option Stmt) := #[]
  cntrs : Array (Option Container) := #[]
  blocks : List Block := []
  entry : Option UInt64 := none
  body : Option CntrId := none

/-- Edits of a procedure that may fail; a failure keeps the changes made before it. -/
abbrev Edit := ExceptT Error (StateM Procedure)

/-- The container of implicit definitions, made first with every procedure. -/
def uninitContainer : CntrId := ⟨0⟩

namespace Procedure

/-- A procedure at `address` with no blocks, holding only the container of implicit
    definitions. -/
def new (address : UInt64) : Procedure :=
  { address, cntrs := #[some { address }] }

/-! ## Access -/

/-- The live expression with number `e`. -/
def expr? (p : Procedure) (e : ExprId) : Option ExprNode := (p.exprs[e.index]?).getD none

/-- The expression with number `e`, or a placeholder for a deleted one. -/
def node (p : Procedure) (e : ExprId) : ExprNode := (p.expr? e).getD default

/-- Whether the expression with number `e` is live. -/
def isLive (p : Procedure) (e : ExprId) : Bool := (p.expr? e).isSome

/-- The live statement with number `s`. -/
def stmt? (p : Procedure) (s : StmtId) : Option Stmt := (p.stmts[s.index]?).getD none

/-- The statement with number `s`, or a placeholder for a deleted one. -/
def stmtNode (p : Procedure) (s : StmtId) : Stmt := (p.stmt? s).getD default

/-- The live container with number `c`. -/
def cntr? (p : Procedure) (c : CntrId) : Option Container := (p.cntrs[c.index]?).getD none

/-- The container with number `c`, or a placeholder for a deleted one. -/
def cntrNode (p : Procedure) (c : CntrId) : Container := (p.cntr? c).getD default

/-- Changes the live expression `e`. -/
def modifyExpr (p : Procedure) (e : ExprId) (f : ExprNode → ExprNode) : Procedure :=
  { p with exprs := p.exprs.modify e.index (Option.map f) }

/-- Changes the live statement `s`. -/
def modifyStmt (p : Procedure) (s : StmtId) (f : Stmt → Stmt) : Procedure :=
  { p with stmts := p.stmts.modify s.index (Option.map f) }

/-- Changes the live container `c`. -/
def modifyCntr (p : Procedure) (c : CntrId) (f : Container → Container) : Procedure :=
  { p with cntrs := p.cntrs.modify c.index (Option.map f) }

/-- The number of live expressions. -/
def exprCount (p : Procedure) : Nat := p.exprs.foldl (fun n e => if e.isSome then n + 1 else n) 0

/-- The numbers of the live expressions, in increasing order. -/
def liveExprs (p : Procedure) : List ExprId :=
  ((List.range p.exprs.size).filter fun i => (p.exprs[i]?).getD none |>.isSome).map ExprId.mk

/-- The block at `address`. -/
def block? (p : Procedure) (address : UInt64) : Option Block :=
  p.blocks.find? (·.address == address)

/-- Whether there is a block at `address`. -/
def hasBlock (p : Procedure) (address : UInt64) : Bool := (p.block? address).isSome

/-- Changes the block at `address`. -/
def modifyBlock (p : Procedure) (address : UInt64) (f : Block → Block) : Procedure :=
  { p with blocks := p.blocks.map fun b => if b.address == address then f b else b }

/-! ## Making nodes -/

/-- Adds an expression node; its operands become owned by it. -/
def allocExpr (n : ExprNode) : Edit ExprId :=
  modifyGet fun p =>
    let id : ExprId := ⟨p.exprs.size⟩
    let p := n.operands.foldl (fun p o => p.modifyExpr o fun x => { x with parent := some (.expr id) }) p
    (id, { p with exprs := p.exprs.push (some n) })

/-- A register of the given width. -/
def reg (name : String) (size : Nat) : Edit ExprId := allocExpr { kind := .reg name size }

/-- A literal, masked to its width. -/
def val (value : UInt64) (size : Nat) : Edit ExprId :=
  allocExpr { kind := .val (value &&& widthMask size) size }

/-- A unary operation. -/
def unary (op : UnaryOp) (a : ExprId) : Edit ExprId := allocExpr { kind := .unary op, operands := [a] }

/-- A binary operation. -/
def binary (op : BinaryOp) (l r : ExprId) : Edit ExprId :=
  allocExpr { kind := .binary op, operands := [l, r] }

/-- A conditional expression. -/
def tcond (c a b : ExprId) : Edit ExprId := allocExpr { kind := .tcond, operands := [c, a, b] }

/-- An assignment; its left side becomes a definition position. -/
def assign (l r : ExprId) : Edit ExprId := do
  modify fun p => p.modifyExpr l fun x => { x with isDef := true }
  allocExpr { kind := .assign, operands := [l, r] }

/-- A phi over the incoming values. -/
def phi (args : List ExprId) : Edit ExprId := allocExpr { kind := .phi, operands := args }

/-- A call of `target` with the arguments. -/
def call (target : ExprId) (args : List ExprId) : Edit ExprId :=
  allocExpr { kind := .call, operands := target :: args }

/-- A line of inline assembly. -/
def asm (text : String) : Edit ExprId := allocExpr { kind := .asm text }

/-- Sets the SSA subscript of an expression. -/
def setIndex (e : ExprId) (idx : Option Nat) : Edit Unit :=
  modify fun p => p.modifyExpr e fun x => { x with idx }

/-- Marks a memory location as not aliased. -/
def markSafe (e : ExprId) : Edit Unit :=
  modify fun p => p.modifyExpr e fun x => { x with safe := true }

/-- Adds a statement node; its expressions and bodies become owned by it. -/
def allocStmt (kind : StmtKind) (address : UInt64) (exprs : List ExprId)
    (bodies : List (Option CntrId)) : Edit StmtId :=
  modifyGet fun p =>
    let sid : StmtId := ⟨p.stmts.size⟩
    let p := exprs.foldl (fun p e => p.modifyExpr e fun x => { x with parent := some (.stmt sid) }) p
    let p := (bodies.filterMap id).foldl
      (fun p c => p.modifyCntr c fun x => { x with parent := some sid }) p
    (sid, { p with stmts := p.stmts.push (some { kind, address, exprs, bodies }) })

/-- A new empty container at `address`. -/
def newContainer (address : UInt64) : Edit CntrId :=
  modifyGet fun p => (⟨p.cntrs.size⟩, { p with cntrs := p.cntrs.push (some { address }) })

/-- An expression statement. -/
def exprStmt (address : UInt64) (e : ExprId) : Edit StmtId := allocStmt .expr address [e] []

/-- A jump to `dest`. -/
def goto (address : UInt64) (dest : ExprId) : Edit StmtId := allocStmt .goto address [dest] []

/-- A conditional jump. -/
def branch (address : UInt64) (c taken notTaken : ExprId) : Edit StmtId :=
  allocStmt .branch address [c, taken, notTaken] []

/-- An `if` with a then-body and an optional else-body. -/
def ifStmt (address : UInt64) (c : ExprId) (thenBody : CntrId) (elseBody : Option CntrId) :
    Edit StmtId :=
  allocStmt .ifElse address [c] (some thenBody :: match elseBody with
    | some e => [some e]
    | none => [])

/-- A pre-tested loop. -/
def whileStmt (address : UInt64) (c : ExprId) (body : CntrId) : Edit StmtId :=
  allocStmt .whileLoop address [c] [some body]

/-- A post-tested loop. -/
def doWhile (address : UInt64) (c : ExprId) (body : CntrId) : Edit StmtId :=
  allocStmt .doWhile address [c] [some body]

/-- A `break`. -/
def breakStmt (address : UInt64) : Edit StmtId := allocStmt .breakLoop address [] []

/-- A `continue`. -/
def continueStmt (address : UInt64) : Edit StmtId := allocStmt .continueLoop address [] []

/-- A `return` with an optional value. -/
def returnStmt (address : UInt64) (value : Option ExprId) : Edit StmtId :=
  allocStmt .ret address value.toList []

/-! ## Blocks -/

/-- Inserts a block into a list kept in increasing address order. -/
def insertBlock (b : Block) : List Block → List Block
  | [] => [b]
  | c :: rest => if b.address < c.address then b :: c :: rest else c :: insertBlock b rest

/-- Adds a block with its successor addresses and returns its new container. The first block
    added is the entry. -/
def addBlock (address : UInt64) (jump fail : Option UInt64) : Edit CntrId := do
  let p ← get
  if p.hasBlock address then
    throw (.malformed ("duplicate block at " ++ hex address.toNat ++ " in function " ++
      hex p.address.toNat))
  let c ← newContainer address
  let isEntry := (← get).entry.isNone
  modify fun p =>
    { p with
      entry := if isEntry then some address else p.entry
      blocks := insertBlock { address, container := c, jump, fail, isEntry } p.blocks }
  pure c

/-- Makes the block at `address` the entry. -/
def setEntry (address : UInt64) : Edit Unit := do
  let p ← get
  if !p.hasBlock address then
    throw (.missingBlock p.address address)
  let blocks := p.blocks.map fun (b : Block) => { b with isEntry := b.address == address }
  set { p with blocks, entry := some address }

/-- The control flow graph: one node per block in address order, an edge to the jump target
    and then to the fall-through target of each block when that target is a block of the
    procedure, and the entry as root. -/
def cfg (p : Procedure) : Except Error (Digraph UInt64) := do
  let some entry := p.entry
    | throw (.malformed ("function " ++ hex p.address.toNat ++ " has no blocks"))
  let mut g : Digraph UInt64 := Digraph.empty
  for b in p.blocks do
    let (_, g') ← g.addNode b.address
    g := g'
  for b in p.blocks do
    for t in [b.jump, b.fail].filterMap id do
      if g.contains t then
        g ← g.addEdge b.address t
  let (_, rooted) ← g.setRoot entry
  pure rooted

end Procedure

end Decompilation
