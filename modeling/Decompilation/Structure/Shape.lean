import Decompilation.Ir.Tree

/-!
# Shapes of blocks

Structuring first classifies every block by the jump that closes it, in address order:

* no jump: control falls through to the fall-through block;
* a jump whose target is not a literal address of a block: unresolved;
* a conditional branch to a block: a branch;
* a jump back, to the block itself or an earlier one: the latch of a loop tested at the end;
* a jump forward to a block whose own jump leads back between the two, to a block: that block
  is the test of a loop tested at the start, and is claimed by it; otherwise a plain forward
  jump.

A claimed block is not classified again, and a block is claimed by the first forward jump that
finds it a loop test.

* `Shape`: the classes;
* `sortBy`: a stable sort by insertion, which puts the plans in address order;
* `Procedure.plans`: the class of every block, with the jump it was read from.
-/

namespace Decompilation

/-- The class of a block. -/
inductive Shape where
  /-- No jump closes the block; control goes on to `next`, if that is a block. -/
  | fallthrough (next : Option UInt64)
  /-- A conditional branch to the block `taken`. -/
  | branch (taken : UInt64)
  /-- A jump forward to `target`; `loopHead` is the head of the loop whose test it is. -/
  | forward (target : UInt64) (loopHead : Option UInt64)
  /-- A jump back to `head`, closing a loop tested at the end. -/
  | backward (head : UInt64)
  /-- The test of a loop starting at `head`, tested at the start. -/
  | loopTest (head : UInt64)
  /-- A jump to `target`, which is not a block, or to an unknown address. -/
  | unresolved (target : Option UInt64)
  deriving DecidableEq, Repr

/-- Whether a shape closes a loop. -/
def Shape.isLoop : Shape → Bool
  | .backward _ | .loopTest _ => true
  | _ => false

/-- Whether a shape is an unresolved jump. -/
def Shape.isUnresolved : Shape → Bool
  | .unresolved _ => true
  | _ => false

/-- Puts `a` before the first entry `b` of a list with `le a b`. -/
def insertBy {α : Type} (le : α → α → Bool) (a : α) : List α → List α
  | [] => [a]
  | b :: l => if le a b then a :: b :: l else b :: insertBy le a l

/-- Sorts a list under `le` by insertion. The sort is stable: entries that compare equal keep
    their order. -/
def sortBy {α : Type} (le : α → α → Bool) : List α → List α
  | [] => []
  | a :: l => insertBy le a (sortBy le l)

/-- The class of a block with the jump statement it was read from. -/
structure Plan where
  shape : Shape
  jump : Option StmtId := none
  deriving Repr

namespace Procedure

variable (p : Procedure)

/-- The jump closing a container, if its last statement is one. -/
def closingJump (c : CntrId) : Option StmtId :=
  (p.terminator c).filter fun s => (p.stmtNode s).kind.isJump

/-- The literal target of a jump: the destination of a jump, the taken target of a branch. -/
def jumpTarget (s : StmtId) : Option UInt64 :=
  let st := p.stmtNode s
  let dest := match st.kind with
    | .goto => st.dest?
    | .branch => st.taken?
    | _ => none
  dest.bind fun d => (p.node d).literal?.map (·.1)

/-- The test of a loop tested at the start, seen from a jump at `origin` forward to `target`:
    the block at `target` jumps back to a block `head` after `origin` and not after `target`;
    the head and that jump. -/
def loopTest (origin target : UInt64) : Option (UInt64 × StmtId) := do
  let b ← p.block? target
  let jump ← p.closingJump b.container
  let head ← p.jumpTarget jump
  if origin < head && head ≤ target && p.hasBlock head then some (head, jump) else none

/-- The plans found so far and the blocks claimed as loop tests, after one more block. -/
def classifyBlock (acc : List (UInt64 × Plan) × List UInt64) (b : Block) :
    List (UInt64 × Plan) × List UInt64 :=
  let (plans, claimed) := acc
  let address := b.address
  if claimed.contains address then acc else
  match p.closingJump b.container with
  | none => ((address, { shape := .fallthrough (b.fail.filter p.hasBlock) }) :: plans, claimed)
  | some jump =>
    let target := p.jumpTarget jump
    let plan (s : Shape) : UInt64 × Plan := (address, { shape := s, jump := some jump })
    match target.filter p.hasBlock with
    | none => (plan (.unresolved target) :: plans, claimed)
    | some t =>
      if (p.stmtNode jump).kind == .branch then (plan (.branch t) :: plans, claimed)
      else if t ≤ address then (plan (.backward t) :: plans, claimed)
      else
        let test := (p.loopTest address t).filter fun _ => !claimed.contains t
        match test with
        | some (head, testJump) =>
          (plan (.forward t (some head)) ::
            (t, { shape := .loopTest head, jump := some testJump }) :: plans, t :: claimed)
        | none => (plan (.forward t none) :: plans, claimed)

/-- The plan of every block, in address order. -/
def plans : List (UInt64 × Plan) :=
  sortBy (fun a b => a.1 ≤ b.1) (p.blocks.foldl p.classifyBlock ([], [])).1

end Procedure

end Decompilation
