import Decompilation.Structure.Shape
import Decompilation.Ir.Edit
import Decompilation.Graph.Dominance
import Decompilation.Session

/-!
# Structuring control flow

Structuring links each block to the block that follows it and turns back jumps into loops.

1. Each block's container falls through to the container of its fall-through block, or else of
   its jump target.
2. Each block is classified (`Procedure.plans`), and the class decides the block that follows
   it: the fall-through block, the taken target of a branch, the target of a forward jump, the
   fall-through block after a loop. An unresolved jump is marked and warned about.
3. Each loop is built, inner loops (the shorter spans) first, so that an inner loop moves into
   the body of the outer one: the statements of the blocks from the head to the latch move
   into a new body, and the closing jump becomes a loop over it, tested at the start (on the
   condition of the test's branch) or at the end (forever).
4. On request, each loop is checked against the dominators: its head must dominate its latch.

`structureFlow` answers the classes, with the warnings.
-/

namespace Decompilation

/-- What structuring found: the class of every block in address order, and the warnings. -/
structure StructureReport where
  shapes : List (UInt64 × Shape) := []
  warnings : List String := []
  deriving Repr

namespace StructureReport

/-- The number of loops. -/
def loops (r : StructureReport) : Nat := r.shapes.countP fun s => s.2.isLoop

/-- The blocks closed by an unresolved jump, in address order. -/
def unresolved (r : StructureReport) : List UInt64 :=
  (r.shapes.filter fun s => s.2.isUnresolved).map (·.1)

end StructureReport

/-- A loop to build: its head and latch blocks, the jump closing it, and whether it is tested
    at the start. -/
structure LoopRegion where
  head : UInt64
  latch : UInt64
  jump : StmtId
  preTested : Bool
  deriving Repr

/-- The loop's keyword and range, as `while 0x10..=0x20`. -/
def LoopRegion.describe (r : LoopRegion) : String :=
  (if r.preTested then "while" else "do-while") ++ " " ++ hex r.head.toNat ++ "..=" ++
    hex r.latch.toNat

/-- Whether loop `a` is built before loop `b`: the shorter span first, then the earlier head. -/
def LoopRegion.before (a b : LoopRegion) : Bool :=
  a.latch - a.head < b.latch - b.head || (a.latch - a.head == b.latch - b.head && a.head ≤ b.head)

/-- The loop closed by the block at `address` under `plan`: a jump back closes a loop tested
    at the end, a loop test one tested at the start. -/
def Plan.region? (address : UInt64) (plan : Plan) : Option LoopRegion :=
  match plan.shape, plan.jump with
  | .backward head, some j => some { head, latch := address, jump := j, preTested := false }
  | .loopTest head, some j => some { head, latch := address, jump := j, preTested := true }
  | _, _ => none

namespace Procedure

/-- Sets every block container to fall through to the container of the block's fall-through
    successor, or else of its jump target. -/
def linkFallthroughs : Edit Unit := do
  let p ← get
  for b in p.blocks do
    let next := ((b.fail.bind p.block?).orElse fun _ => b.jump.bind p.block?).map Block.container
    setFallthrough b.container next

/-- Builds one loop: a new body at the head takes the statements of the blocks from the head
    to the latch, the closing jump aside, and the jump is replaced by the loop. -/
def buildLoop (r : LoopRegion) : Edit Unit := do
  let body ← newContainer r.head
  let p ← get
  let containers := (p.blocks.filter fun b => r.head ≤ b.address && b.address ≤ r.latch).map
    Block.container
  for c in containers do
    for s in ((← get).cntrNode c).stmts do
      if s != r.jump then
        pluckStmt s false
        pushStmt body s
  let jump := (← get).stmtNode r.jump
  let cond ← match r.preTested, jump.kind, jump.cond? with
    | true, .branch, some c => pluckExpr c
    | _, _, _ => val 1 0
  let loop ← if r.preTested then whileStmt jump.address cond body
    else doWhile jump.address cond body
  replaceStmt r.jump loop
  pluckStmt r.jump true

end Procedure

open Work

/-- Records the consequences of a block's class: the block that follows it, and for an
    unresolved jump the mark on the jump and a warning, which is returned. -/
def applyPlan (address : UInt64) (plan : Plan) : Work (Option String) := do
  let p ← current
  let fail := ((p.block? address).bind Block.fail).filter p.hasBlock
  let mut warning := none
  let next ← match plan.shape with
    | .fallthrough n => pure n
    | .branch t => do
      record { kind := .branchLinked, function := some p.address, location := some address,
               message := hex address.toNat ++ " -> " ++ hex t.toNat }
      pure (some t)
    | .forward t _ => pure (some t)
    | .backward _ | .loopTest _ => pure fail
    | .unresolved _ => pure none
  if let .unresolved target := plan.shape then
    let w := match target with
      | some t => "function " ++ hex p.address.toNat ++ ": unresolved edge " ++ hex address.toNat ++
          " -> " ++ hex t.toNat
      | none => "function " ++ hex p.address.toNat ++ ": indirect jump at block " ++
          hex address.toNat
    record { kind := .edgeUnresolved, function := some p.address, location := some address,
             message := w }
    warning := some w
    if let some j := plan.jump then
      modify fun s => { s with proc := s.proc.modifyStmt j fun x => { x with unresolved := true } }
  modify fun s => { s with proc := s.proc.modifyBlock address fun b =>
    { b with next, unresolved := plan.shape.isUnresolved } }
  pure warning

/-- Whether the dominator tree `dom` of the control flow graph `cfg` confirms a loop: its
    latch can be reached, and its head dominates its latch. -/
def LoopRegion.confirmed (cfg : Digraph UInt64) (dom : DominatorTree) (r : LoopRegion) : Bool :=
  match cfg.find? r.head, cfg.find? r.latch with
  | some h, some l => dom.isReachable l && dom.dominates h l
  | _, _ => false

/-- The warnings for the loops whose head does not dominate their latch in the control flow
    graph, or whose latch cannot be reached, each also recorded. -/
def checkLoops (regions : List LoopRegion) : Work (List String) := do
  let p ← current
  let cfg ← lift p.cfg
  let dom ← lift (DominatorTree.compute cfg)
  let mut warnings := []
  for r in regions do
    if !r.confirmed cfg dom then
      let w := "function " ++ hex p.address.toNat ++ ": loop " ++ hex r.head.toNat ++ "..=" ++
        hex r.latch.toNat ++ " has no dominating head"
      record { kind := .warning, function := some p.address, location := some r.latch,
               message := w }
      warnings := warnings ++ [w]
  pure warnings

/-- Links the blocks and applies each block's class, in address order: the classes, the
    warnings about unresolved jumps, and the loops the classes close. -/
def planLoops : Work (List (UInt64 × Plan) × List String × List LoopRegion) := do
  edit Procedure.linkFallthroughs
  let plans := (← current).plans
  let mut warnings : List String := []
  let mut regions : List LoopRegion := []
  for (address, plan) in plans do
    if let some w ← applyPlan address plan then warnings := warnings ++ [w]
    if let some r := plan.region? address then regions := regions ++ [r]
  pure (plans, warnings, regions)

/-- Builds the loops in the order given, recording each. -/
def buildLoops (ordered : List LoopRegion) : Work Unit := do
  for r in ordered do
    edit (Procedure.buildLoop r)
    record { kind := .loopStructured, function := some (← current).address,
             location := some r.latch, message := r.describe }

/-- Structures the procedure's control flow: links the blocks, builds the loops, inner loops
    first, and, when `verify`, checks each loop's head against the dominators. -/
def structureFlow (verify : Bool) : Work StructureReport := do
  if (← current).blocks.isEmpty then return {}
  let (plans, warnings, regions) ← planLoops
  let ordered := sortBy LoopRegion.before regions
  buildLoops ordered
  let checked ← if verify && !ordered.isEmpty then checkLoops ordered else pure []
  pure { shapes := plans.map fun (a, pl) => (a, pl.shape), warnings := warnings ++ checked }

end Decompilation
