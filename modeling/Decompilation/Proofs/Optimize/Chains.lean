import Decompilation.Optimize.Fixpoint
import Decompilation.Proofs.Simplify.Chains
import Decompilation.Proofs.DefUse.Statements
import Decompilation.Proofs.Except

/-!
# The passes keep the chains

A pass edits the procedure of a session through the edits of expressions and statements, so
what it does to the chains follows from what those edits do. Two facts about the policies carry
the rest: a propagator replaces a reader only by a copy of the assigned value, which a
statement may list since the value of an assignment is no definition position; and what a
pruner does to the value before the assignment goes keeps the chains. A run of any pass, a
sweep and a run to a fixpoint then keep the chains consistent, whether they succeed or fail.

* `Work.edit_runs`: an edit run on a session ends as the edit ends;
* `Propagator.drain_runs`, `Propagator.run_runs`, `Pruner.run_runs`: the two shapes of pass;
* `PassKind.run_runs`, `sweep_runs`, `runToFixpoint_runs`: every pass, and the fixpoint.
-/

namespace Decompilation

namespace Work

variable {α : Type} {s : Session} {Q : α → Session → Prop} {E : Session → Prop}

/-- An edit run on a session ends as the edit ends, read on the session's procedure. -/
theorem edit_runs {m : Edit α} {P : α → Procedure → Prop} {F : Procedure → Prop}
    (h : Runs m s.proc P F) :
    Runs (edit m) s (fun a s' => P a s'.proc) (fun s' => F s'.proc) := by
  unfold edit
  refine runs_get_bind ?_
  unfold Runs at h
  revert h
  rcases (ExceptT.run m).run s.proc with ⟨_ | a, p'⟩ <;> exact id

theorem lift_runs {x : Except Error α} (hok : ∀ a, x = .ok a → Q a s) (herr : E s) :
    Runs (lift x) s Q E := by
  cases x with
  | ok a => exact runs_pure a (hok a rfl)
  | error e => exact runs_throw e herr

theorem current_bind {f : Procedure → Work α} (h : Runs (f s.proc) s Q E) :
    Runs (current >>= f) s Q E := h

theorem record_bind {f : Unit → Work α} (e : Event)
    (h : Runs (f ()) { s with log := s.log.record e } Q E) : Runs (record e >>= f) s Q E := h

end Work

namespace Procedure

variable {p : Procedure}

/-- An assignment lists its value second. -/
theorem operands_of_assignmentOf {d a v : ExprId} (h : p.assignmentOf d = .ok (some (a, v))) :
    (p.node a).kind = .assign ∧ (p.node a).operands[1]? = some v := by
  unfold assignmentOf at h
  split at h
  · split at h
    · dsimp only at h
      split at h
      · next a' _ _ hk =>
        obtain ⟨o, hop, ho⟩ := bind_eq_ok.1 h
        simp only [pure_eq_ok, Option.some.injEq, Prod.mk.injEq] at ho
        obtain ⟨rfl, rfl⟩ := ho
        simp only [Bool.and_eq_true, beq_iff_eq] at hk
        refine ⟨hk.1, ?_⟩
        unfold ExprNode.operandAt at hop
        split at hop <;> simp_all
      · cases h
    · cases h
  · cases h

/-- The value of an assignment is no definition position: a definition position among the
    operands of an assignment is the first one, listed once. -/
theorem DefsPlaced.listable_of_assignmentOf {l : Option ExprId} (hp : p.DefsPlaced l)
    {d a v : ExprId} (h : p.assignmentOf d = .ok (some (a, v))) : p.Listable v := by
  obtain ⟨hk, hv⟩ := operands_of_assignmentOf h
  cases ha : p.expr? a with
  | none => simp [node_of_expr?_eq_none p ha] at hk
  | some y =>
    rw [node_of_expr? p ha] at hk hv
    have hmem : v ∈ y.operands := List.mem_of_getElem? hv
    refine ⟨hp.operand_lt ha v hmem, fun x hx => Bool.eq_false_iff.2 fun hdef => ?_⟩
    obtain ⟨-, rest, hops, hnot⟩ := hp.operand hx hdef ha hmem
    rw [hops] at hv
    exact hnot (List.mem_of_getElem? (by simpa using hv))

/-- A reader recorded by a definition is no definition position. -/
theorem ChainsExact.notDef_of_mem_uses (h : p.ChainsExact)
    {d u : ExprId} {x : ExprNode} (hx : p.expr? d = some x) (hu : u ∈ x.uses) : p.NotDef u := by
  obtain ⟨y, hy, hyl⟩ := h.uses hx u hu
  intro y' hy'
  rw [hy] at hy'
  cases hy'
  exact h.reader hy hyl

/-- Deleting an assignment keeps the chains consistent. -/
theorem removeAssignment_runs (h : p.Consistent) (a : ExprId) :
    Runs (removeAssignment a) p (fun _ p' => p'.Consistent ∧ p.Later p')
      (fun p' => p'.Consistent) := by
  unfold removeAssignment
  refine runs_get_bind ?_
  split
  · exact runs_bind (removeExpr_runs h _ a) fun _ q hq => runs_pure _ hq
  · exact discardExpr_runs h a

end Procedure

open Procedure Work

namespace Propagator

/-- A propagator replaces a reader by a copy of the value of its definition, if at all. -/
def CopiesValue (pr : Propagator) : Prop :=
  ∀ p u v w, pr.generate p u v = some w → w = .copy v

/-- Replacing the readers of a definition one at a time keeps the chains consistent: each
    reader, no definition position, gives way to a copy of the value, which a statement may
    list; the statement of the reader is then simplified. -/
theorem drain_runs (pr : Propagator) (hpr : pr.CopiesValue) (simp : Simplifier) (d : ExprId)
    (fuel : Nat) : ∀ (skipped done : Nat) {s : Session}, s.proc.Consistent →
      Runs (pr.drain simp d fuel skipped done) s (fun _ s' => s'.proc.Consistent)
        (fun s' => s'.proc.Consistent) := by
  induction fuel with
  | zero => exact fun _ _ s h => runs_pure _ h
  | succ fuel ih =>
    intro skipped done s h
    rw [drain]
    refine current_bind ?_
    split
    · next x hx =>
      split
      · next u hu =>
        have hnd : s.proc.NotDef u := h.chains.notDef_of_mem_uses hx (List.mem_of_getElem? hu)
        refine runs_bind (lift_runs
          (Q := fun o s' => s' = s ∧ ∀ a v, o = some (a, v) → s.proc.Listable v)
          (fun o ho => ⟨rfl, fun a v hav => h.placed.listable_of_assignmentOf (hav ▸ ho)⟩) h) ?_
        rintro o s' ⟨rfl, hv⟩
        split
        · next a v =>
          split
          · next w hw =>
            obtain rfl := hpr _ _ _ _ hw
            dsimp only
            -- the reader gives way to a copy of the value, and is deleted
            refine runs_bind (edit_runs (P := fun _ q => q.Consistent) ?_) fun _ s₁ h₁ => ?_
            · refine runs_bind (Replacement.build_runs (.copy v) h
                (by simpa [Replacement.parts] using hv a v rfl)) fun r q ⟨hq, hlq, hr⟩ => ?_
              refine runs_bind (replaceExpr_runs hq (hlq.notDef hnd) hr) fun _ q' hq' => ?_
              exact runs_mono (discardExpr_runs hq'.1 u) (fun _ _ h => h.1) fun _ h => h
            -- then its statement is listed, simplified and recorded
            split
            · refine current_bind (runs_bind (lift_runs (Q := fun _ s₂ => s₂ = s₁)
                (fun _ _ => rfl) h₁) ?_)
              rintro _ _ rfl
              refine record_bind _ (runs_bind (edit_runs (simp.reduceStmt_runs _ h₁)) ?_)
              intro n s₂ h₂
              split
              · exact record_bind _ (ih _ _ h₂)
              · exact ih _ _ h₂
            · exact ih _ _ h₁
          · exact ih _ _ h
        · exact runs_pure _ h
      · exact runs_pure _ h
    · exact runs_pure _ h

/-- A run of a propagation pass keeps the chains consistent. -/
theorem run_runs (pr : Propagator) (hpr : pr.CopiesValue) (cfg : OptimizerConfig) {s : Session}
    (h : s.proc.Consistent) :
    Runs (pr.run cfg) s (fun _ s' => s'.proc.Consistent) (fun s' => s'.proc.Consistent) := by
  unfold run
  dsimp only
  refine current_bind (runs_bind (runs_forIn_inv (fun _ s' => s'.proc.Consistent) h ?_)
    fun _ _ h' => runs_pure _ h')
  intro d _ propagated s₁ h₁
  refine current_bind ?_
  split
  · exact runs_pure _ h₁
  · refine runs_bind (lift_runs (Q := fun _ s₂ => s₂ = s₁) (fun _ _ => rfl) h₁) ?_
    rintro o _ rfl
    split
    · next a v =>
      split
      · exact runs_pure _ h₁
      · refine runs_bind (pr.drain_runs hpr _ d _ 0 propagated h₁) fun n s₂ h₂ => ?_
        -- a consuming pass deletes the assignment of a definition left unread
        split
        · refine current_bind ?_
          split
          · split
            · exact runs_bind (edit_runs (removeAssignment_runs h₂ a)) fun _ _ h₃ =>
                runs_pure _ h₃.1
            · exact runs_pure _ h₂
          · exact runs_pure _ h₂
        · exact runs_pure _ h₂
    · exact runs_pure _ h₁

end Propagator

/-- What a pruner does before deleting an assignment keeps the chains consistent, given that
    a statement may list the assigned value. -/
def Pruner.PrepareKeeps (pr : Pruner) : Prop :=
  ∀ p d v, p.Consistent → p.Listable v →
    Runs (pr.prepare d v) p (fun _ p' => p'.Consistent) (fun p' => p'.Consistent)

/-- A run of a pruning pass keeps the chains consistent. -/
theorem Pruner.run_runs (pr : Pruner) (hpr : pr.PrepareKeeps) (cfg : OptimizerConfig)
    {s : Session} (h : s.proc.Consistent) :
    Runs (pr.run cfg) s (fun _ s' => s'.proc.Consistent) (fun s' => s'.proc.Consistent) := by
  unfold Pruner.run
  dsimp only
  refine current_bind (runs_bind (runs_forIn_inv (fun _ s' => s'.proc.Consistent) h ?_)
    fun _ _ h' => runs_pure _ h')
  intro d _ pruned s₁ h₁
  refine current_bind ?_
  split
  · exact runs_pure _ h₁
  · refine runs_bind (lift_runs
      (Q := fun o s₂ => s₂ = s₁ ∧ ∀ a v, o = some (a, v) → s₁.proc.Listable v)
      (fun o ho => ⟨rfl, fun a v hav => h₁.placed.listable_of_assignmentOf (hav ▸ ho)⟩) h₁) ?_
    rintro o s₂ ⟨hs₂, hv⟩
    subst s₂
    split
    · next a v =>
      split
      · split
        · exact runs_pure _ h₁
        · refine runs_bind (lift_runs (Q := fun _ s₂ => s₂ = s₁) (fun _ _ => rfl) h₁) ?_
          rintro _ _ rfl
          -- the value is prepared, then the assignment deleted
          refine runs_bind (edit_runs (hpr _ d v h₁ (hv a v rfl))) fun _ s₂ h₂ => ?_
          refine runs_bind (edit_runs (removeAssignment_runs h₂ a)) fun _ s₃ h₃ => ?_
          exact record_bind _ (runs_pure _ h₃.1)
      · exact runs_pure _ h₁
    · exact runs_pure _ h₁

namespace Pass

theorem constants_copiesValue : constants.CopiesValue := by
  intro p u v w hw
  simp only [constants] at hw
  split at hw
  · cases hw
  · cases hw
  · exact (Option.some.inj hw).symm

theorem singleUse_copiesValue : singleUse.CopiesValue := by
  intro p u v w hw
  simp only [singleUse] at hw
  split at hw
  · cases hw
  · exact (Option.some.inj hw).symm

theorem dereferenced_copiesValue : dereferenced.CopiesValue := by
  intro p u v w hw
  simp only [dereferenced] at hw
  split at hw
  · split at hw
    · exact (Option.some.inj hw).symm
    · cases hw
  · cases hw

theorem deadRegs_prepareKeeps : deadRegs.PrepareKeeps :=
  fun _ _ _ h _ => runs_pure _ h

theorem deadDerefs_prepareKeeps : deadDerefs.PrepareKeeps :=
  fun _ _ _ h _ => runs_pure _ h

theorem singlePhi_prepareKeeps : singlePhi.PrepareKeeps :=
  fun _ _ _ h _ => runs_pure _ h

/-- The call taken out of an unread result is a statement of its own. -/
theorem deadResults_prepareKeeps : deadResults.PrepareKeeps := by
  intro p d v h hv
  simp only [deadResults]
  refine runs_bind (runs_mono (pluckExpr_runs h.placed h.chains (.inl hv.notDef))
    (fun _ _ h => h) fun _ h => ⟨h.1, h.2.1⟩) fun call q ⟨hd, hc, hl, hcall⟩ => ?_
  subst hcall
  exact runs_get_bind (runs_bind (pushExprAfter_runs ⟨hd, hc⟩ (hl.listable hv) _)
    fun _ q' hq' => runs_pure _ hq'.1)

/-- The merge arguments that read a pruned definition are deleted first. -/
theorem circularPhi_prepareKeeps : circularPhi.PrepareKeeps := by
  intro p d v h _
  simp only [circularPhi]
  refine runs_get_bind (runs_bind (runs_forIn_inv (fun _ (q : Procedure) => q.Consistent) h
    fun u _ _ q hq => ?_) fun _ _ h' => runs_pure _ h')
  exact runs_bind (discardExpr_runs hq u) fun _ q' hq' => runs_pure _ hq'.1

end Pass

/-- A run of any pass keeps the chains consistent. -/
theorem PassKind.run_runs (k : PassKind) (cfg : OptimizerConfig) {s : Session}
    (h : s.proc.Consistent) :
    Runs (k.run cfg) s (fun _ s' => s'.proc.Consistent) (fun s' => s'.proc.Consistent) := by
  cases k with
  | propagateConstants => exact Pass.constants.run_runs Pass.constants_copiesValue cfg h
  | propagateSingleUse => exact Pass.singleUse.run_runs Pass.singleUse_copiesValue cfg h
  | propagateDereferenced =>
    exact Pass.dereferenced.run_runs Pass.dereferenced_copiesValue cfg h
  | pruneDeadRegs => exact Pass.deadRegs.run_runs Pass.deadRegs_prepareKeeps cfg h
  | pruneDeadDerefs => exact Pass.deadDerefs.run_runs Pass.deadDerefs_prepareKeeps cfg h
  | pruneDeadResults => exact Pass.deadResults.run_runs Pass.deadResults_prepareKeeps cfg h
  | pruneSinglePhi => exact Pass.singlePhi.run_runs Pass.singlePhi_prepareKeeps cfg h
  | pruneCircularPhi => exact Pass.circularPhi.run_runs Pass.circularPhi_prepareKeeps cfg h

theorem sweep_runs (kinds : List PassKind) (cfg : OptimizerConfig) {s : Session}
    (h : s.proc.Consistent) :
    Runs (sweep kinds cfg) s (fun _ s' => s'.proc.Consistent) (fun s' => s'.proc.Consistent) := by
  unfold sweep
  refine runs_bind (runs_forIn_inv (fun _ s' => s'.proc.Consistent) h ?_)
    fun _ _ h' => runs_pure _ h'
  intro k _ changed s₁ h₁
  refine runs_bind (k.run_runs cfg h₁) fun b s₂ h₂ => ?_
  split <;> exact runs_pure _ h₂

theorem runToFixpoint_go_runs (kinds : List PassKind) (limit : Nat) (cfg : OptimizerConfig)
    (address : UInt64) (fuel : Nat) :
    ∀ (done : Nat) {s : Session}, s.proc.Consistent →
      Runs (runToFixpoint.go kinds limit cfg address fuel done) s
        (fun _ s' => s'.proc.Consistent) (fun s' => s'.proc.Consistent) := by
  induction fuel with
  | zero => exact fun _ s h => runs_throw _ h
  | succ fuel ih =>
    intro done s h
    rw [runToFixpoint.go]
    refine runs_bind (sweep_runs kinds cfg h) fun b s₁ h₁ => ?_
    split
    · exact ih _ h₁
    · exact record_bind _ (runs_pure _ h₁)

/-- Sweeping passes to a fixpoint keeps the chains consistent, also when it does not settle. -/
theorem runToFixpoint_runs (kinds : List PassKind) (limit : Nat) (cfg : OptimizerConfig)
    {s : Session} (h : s.proc.Consistent) :
    Runs (runToFixpoint kinds limit cfg) s (fun _ s' => s'.proc.Consistent)
      (fun s' => s'.proc.Consistent) := by
  unfold runToFixpoint
  split
  · exact runs_pure _ h
  · exact current_bind (record_bind _ (runToFixpoint_go_runs kinds limit cfg _ _ 0 h))

end Decompilation
