import Decompilation.Structure.Loop
import Decompilation.Proofs.Optimize.Chains
import Decompilation.Proofs.Structure.Regions

/-!
# Structuring keeps the chains

Structuring moves statements between containers and builds loops over them. The only
expressions it touches are a loop's condition, taken out of the branch that tested it, and a
constant for a loop without one; everything else is an edit of statements, containers and
blocks, or an event recorded. So the chains stay consistent, whether structuring succeeds or
fails.

* `linkFallthroughs_runs`, `buildLoop_runs`: the two edits;
* `applyPlan_runs`, `checkLoops_runs`: the steps on the session;
* `structureFlow_runs`: the whole structuring.
-/

namespace Decompilation

namespace Procedure

variable {p : Procedure} {l : Option ExprId}

/-- The condition of a statement is an expression a statement may list: a deleted statement
    has none. -/
theorem DefsPlaced.listable_of_cond (h : p.DefsPlaced l) {s : StmtId} {c : ExprId}
    (hc : (p.stmtNode s).cond? = some c) : p.Listable c := by
  cases hs : p.stmt? s with
  | none =>
    rw [stmtNode, hs] at hc
    cases hc
  | some st =>
    rw [stmtNode, hs, Option.getD_some, Stmt.cond?] at hc
    split at hc
    · exact h.stmt hs c (List.mem_of_mem_head? hc)
    · cases hc

/-- A new statement over expressions a statement may list, put in the place of another, which
    is then deleted. -/
theorem swapStmt_runs (h : p.Consistent) {kind : StmtKind} {address : UInt64}
    {exprs : List ExprId} (hexprs : ∀ e ∈ exprs, p.Listable e) {bodies : List (Option CntrId)}
    (old : StmtId) :
    Runs (allocStmt kind address exprs bodies >>= fun s => replaceStmt old s >>= fun _ =>
      pluckStmt old true) p (fun _ p' => p'.Consistent) (fun p' => p'.Consistent) :=
  runs_bind (allocStmt_runs h kind address hexprs bodies) fun s _ h₁ =>
    runs_bind (replaceStmt_runs h₁.1 old s) fun _ _ h₂ =>
      runs_mono (pluckStmt_runs h₂.1 old true) (fun _ _ h₃ => h₃.1) fun _ h₃ => h₃

theorem Consistent.modifyBlock (h : p.Consistent) (address : UInt64) (f : Block → Block) :
    (p.modifyBlock address f).Consistent :=
  ((show p.StmtsOnly (p.modifyBlock address f) from ⟨rfl, fun h => ⟨_, h, rfl⟩⟩).consistent h).1

theorem Consistent.markUnresolved (h : p.Consistent) (s : StmtId) :
    (p.modifyStmt s fun x => { x with unresolved := true }).Consistent :=
  ((stmtsOnly_modifyStmt s (fun x => { x with unresolved := true }) fun _ => rfl).consistent h).1

theorem linkFallthroughs_runs (h : p.Consistent) :
    Runs linkFallthroughs p (fun _ p' => p'.Consistent) (fun p' => p'.Consistent) := by
  unfold linkFallthroughs
  refine runs_get_bind (runs_bind (runs_forIn_inv (fun _ q => q.Consistent) h
    fun b _ _ q hq => ?_) fun _ _ h' => runs_pure _ h')
  exact runs_bind (setFallthrough_runs hq _ _) fun _ _ h' => runs_pure _ h'.1

theorem buildLoop_runs (h : p.Consistent) (r : LoopRegion) :
    Runs (buildLoop r) p (fun _ p' => p'.Consistent) (fun p' => p'.Consistent) := by
  unfold buildLoop
  refine runs_bind (newContainer_runs h _) fun body q₁ ⟨h₁, _⟩ => ?_
  refine runs_get_bind ?_
  dsimp only
  -- the statements of the region move into the new body one by one, the jump aside
  refine runs_bind (runs_forIn_inv (fun _ q => q.Consistent) h₁ fun c _ _ q hq => ?_)
    fun _ q₂ h₂ => ?_
  · refine runs_get_bind (runs_bind (runs_forIn_inv (fun _ q => q.Consistent) hq
      fun s _ _ q' hq' => ?_) fun _ _ h' => runs_pure _ h')
    split
    · exact runs_bind (pluckStmt_runs hq' s false) fun _ _ h₁' =>
        runs_bind (pushStmt_runs h₁'.1 _ s) fun _ _ h₂' => runs_pure _ h₂'.1
    · exact runs_pure _ hq'
  refine runs_get_bind ?_
  -- the condition is the test's, taken out of it, or a constant
  split
  · next c hc =>
    have hl := h₂.placed.listable_of_cond hc
    refine runs_bind (Q := fun cond q => q.Consistent ∧ q.Listable cond)
      (runs_mono (pluckExpr_runs h₂.placed h₂.chains (.inl hl.2))
      (fun _ _ ⟨hd, hch, hlat, hr⟩ => ⟨⟨hd, hch⟩, hr ▸ hlat.listable hl⟩)
      fun _ ⟨hd, hch, _⟩ => ⟨hd, hch⟩) fun cond q₃ ⟨h₃, hc₃⟩ => ?_
    split <;> exact swapStmt_runs h₃ (by simpa using hc₃) _
  · refine runs_bind (val_runs h₂ 1 0) fun cond q₃ ⟨h₃, _, hc₃⟩ => ?_
    split <;> exact swapStmt_runs h₃ (by simpa using hc₃) _

end Procedure

open Procedure Work

variable {s : Session}

theorem applyPlan_runs (address : UInt64) (plan : Plan) (h : s.proc.Consistent) :
    Runs (applyPlan address plan) s (fun _ s' => s'.proc.Consistent)
      (fun s' => s'.proc.Consistent) := by
  unfold applyPlan
  refine current_bind ?_
  -- the class decides the block that follows, and whether the jump is marked
  cases plan.shape <;> simp only [pure_bind]
  case branch => exact record_bind _ (runs_modify_bind (runs_pure _ (h.modifyBlock _ _)))
  case unresolved =>
    refine record_bind _ ?_
    split
    · exact runs_modify_bind (runs_modify_bind (runs_pure _ ((h.markUnresolved _).modifyBlock _ _)))
    · exact runs_modify_bind (runs_pure _ (h.modifyBlock _ _))
  all_goals exact runs_modify_bind (runs_pure _ (h.modifyBlock _ _))

/-- Checking the loops against the dominators changes nothing but the log. -/
theorem checkLoops_runs (regions : List LoopRegion) :
    Runs (checkLoops regions) s (fun _ s' => s'.proc = s.proc) (fun s' => s'.proc = s.proc) := by
  unfold checkLoops
  refine current_bind (runs_bind (lift_runs (Q := fun _ s' => s' = s) (fun _ _ => rfl) rfl)
    fun _ _ hs => ?_)
  rw [hs]
  refine runs_bind (lift_runs (Q := fun _ s' => s' = s) (fun _ _ => rfl) rfl) fun _ _ hs => ?_
  rw [hs]
  refine runs_bind (runs_forIn_inv (fun _ s' => s'.proc = s.proc) rfl fun r _ _ s₁ h₁ => ?_)
    fun _ _ h' => runs_pure _ h'
  dsimp only
  -- an unconfirmed loop is recorded with its warning
  refine runs_ite (fun _ => record_bind _ ?_) fun _ => runs_pure _ h₁
  exact runs_pure _ h₁

theorem structureFlow_runs (verify : Bool) (h : s.proc.Consistent) :
    Runs (structureFlow verify) s (fun _ s' => s'.proc.Consistent)
      (fun s' => s'.proc.Consistent) := by
  unfold structureFlow
  refine current_bind ?_
  split
  · exact runs_pure _ h
  -- linking and each block's class keep the chains; the loops found are only noted
  refine runs_bind (planLoops_runs (P := fun _ (s' : Session) => s'.proc.Consistent)
    (edit_runs (linkFallthroughs_runs h)) fun a pl _ _ h₂ => applyPlan_runs a pl h₂)
    fun r s₃ h₃ => ?_
  -- then the loops are built, inner loops first
  obtain ⟨plans, warnings, regions⟩ := r
  dsimp only
  simp only [buildLoops, bind_pure_unit]
  refine runs_bind (runs_forIn_inv (fun _ (s' : Session) => s'.proc.Consistent) h₃.2
    fun r _ _ s₄ h₄ => ?_) fun _ s₅ h₅ => ?_
  · exact runs_bind (edit_runs (buildLoop_runs h₄ r)) fun _ _ h₄' =>
      current_bind (record_bind _ (runs_pure _ h₄'))
  split
  · refine runs_bind (Q := fun _ s' => s'.proc.Consistent) (runs_mono (checkLoops_runs _)
      (fun _ _ h₆ => h₆ ▸ h₅) fun _ h₆ => h₆ ▸ h₅) fun _ _ h₆ => runs_pure _ h₆
  · exact runs_pure _ h₅

end Decompilation
