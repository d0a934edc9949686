import Decompilation.Proofs.DefUse.Build
import Decompilation.Proofs.Structure.Chains

/-!
# The chains validate after every operation

A procedure is built from its description, then undergoes the operations of the decompiler:
linking definitions to their readers, simplifying an expression or a statement, running a
pass, sweeping passes to a fixpoint, structuring the control flow. Each operation runs on the
session the one before left, whether that one succeeded or failed.

A built procedure is consistent, every operation keeps it so, also when it fails, and
`validate` passes on a consistent procedure: after any sequence of operations the chains
validate.

* `Operation.run_runs`: one operation keeps the chains consistent;
* `consistent_runAll`: so does any sequence of them;
* `validate_runAll_of_build`: the chains of a built procedure validate after any sequence.
-/

namespace Decompilation

/-- An operation of the decompiler on a procedure under analysis. -/
inductive Operation where
  /-- Rebuilding the chains from the subscripts. -/
  | linkDefs
  /-- Simplifying the expression at a node. -/
  | reduceExpr (simp : Simplifier) (root : ExprId)
  /-- Simplifying the expressions of a statement. -/
  | reduceStmt (simp : Simplifier) (st : StmtId)
  /-- One run of a pass. -/
  | pass (k : PassKind) (cfg : OptimizerConfig)
  /-- Passes swept until a sweep changes nothing, within a number of sweeps. -/
  | fixpoint (kinds : List PassKind) (limit : Nat) (cfg : OptimizerConfig)
  /-- Structuring the control flow, checking the loops against the dominators on request. -/
  | structureFlow (verify : Bool)

namespace Operation

open Work

/-- The operation as a step on the session; its answer is dropped. -/
def run : Operation → Work Unit
  | .linkDefs => do let _ ← edit Procedure.linkDefs
  | .reduceExpr simp root => do let _ ← edit (simp.reduceExpr root)
  | .reduceStmt simp st => do let _ ← edit (simp.reduceStmt st)
  | .pass k cfg => do let _ ← k.run cfg
  | .fixpoint kinds limit cfg => do let _ ← runToFixpoint kinds limit cfg
  | .structureFlow verify => do let _ ← Decompilation.structureFlow verify

/-- The session after the operations, each run on the session the one before left, whether it
    succeeded or failed. -/
def runAll (ops : List Operation) (s : Session) : Session :=
  ops.foldl (fun s op => (op.run.run.run s).2) s

/-- One operation keeps the chains consistent, whether it succeeds or fails. -/
theorem run_runs (op : Operation) {s : Session} (h : s.proc.Consistent) :
    Runs op.run s (fun _ s' => s'.proc.Consistent) (fun s' => s'.proc.Consistent) := by
  have hdrop : ∀ {α : Type} {m : Work α} {s : Session},
      Runs m s (fun _ s' => s'.proc.Consistent) (fun s' => s'.proc.Consistent) →
      Runs (do let _ ← m) s (fun _ s' => s'.proc.Consistent) (fun s' => s'.proc.Consistent) :=
    fun hm => runs_bind hm fun _ _ h' => runs_pure _ h'
  cases op with
  | linkDefs => exact hdrop (edit_runs (Procedure.linkDefs_runs h.placed))
  | reduceExpr simp root => exact hdrop (edit_runs (simp.reduceExpr_runs root h))
  | reduceStmt simp st => exact hdrop (edit_runs (simp.reduceStmt_runs st h))
  | pass k cfg => exact hdrop (k.run_runs cfg h)
  | fixpoint kinds limit cfg => exact hdrop (runToFixpoint_runs kinds limit cfg h)
  | structureFlow verify => exact hdrop (structureFlow_runs verify h)

end Operation

/-- The session a run leaves, answered or failed, when both outcomes say the same of it. -/
theorem Runs.final {σ α : Type} {m : ExceptT Error (StateM σ) α} {s : σ} {P : σ → Prop}
    (h : Runs m s (fun _ s' => P s') P) : P (m.run.run s).2 := by
  unfold Runs at h
  revert h
  rcases m.run.run s with ⟨_ | _, s'⟩ <;> exact id

/-- Any sequence of operations keeps the chains consistent; induction on the sequence, each
    operation run on the session the one before left. -/
theorem consistent_runAll :
    ∀ (ops : List Operation) {s : Session}, s.proc.Consistent →
      (Operation.runAll ops s).proc.Consistent
  | [], _, h => h
  | op :: ops, _, h => consistent_runAll ops (Runs.final (op.run_runs h))

/-- The chains of a procedure built from a description validate after any sequence of
    operations: every registered definition is live, attached and in definition position,
    each of its readers is live and links back to it, and every link names a live registered
    definition. -/
theorem validate_runAll_of_build {spec : ProcedureSpec} {p : Procedure} (hb : spec.build = .ok p)
    (ops : List Operation) (log : EventLog) :
    (Operation.runAll ops { proc := p, log }).proc.validate = .ok () :=
  Procedure.validate_eq_ok (consistent_runAll ops (ProcedureSpec.build_consistent hb))

/-- `x_1 = 5; return x_1`, linked, its one use propagated, and structured. -/
theorem validate_runAll_assign_return :
    ∃ p, ({ address := 16, blocks := [{ address := 16, stmts :=
      [.assign none (.node (.reg "x" 64) { idx := some 1 } []) (.node (.val 5 64) {} []),
       .ret none (some (.node (.reg "x" 64) { idx := some 1 } []))] }] } : ProcedureSpec).build =
        .ok p ∧
      (Operation.runAll [.linkDefs, .pass .propagateSingleUse {}, .structureFlow true]
        { proc := p, log := {} }).proc.validate = .ok () := by
  refine (exists_eq_ok_of_isOk ?_).imp fun p hp => ⟨hp, validate_runAll_of_build hp _ _⟩
  decide +kernel

end Decompilation
