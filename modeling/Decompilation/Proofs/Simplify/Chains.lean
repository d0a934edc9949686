import Decompilation.Simplify.Reduce
import Decompilation.Proofs.Simplify.Parts

/-!
# Simplification keeps the chains

A step of the simplifier builds the replacement of one expression from that expression's
parts, puts it in the expression's place and deletes the expression. Each part it moves or
copies is an operand of an expression other than an assignment, so no definition position
leaves its place, and the new expressions are neither definitions nor readers: every run of
the simplifier, whether it settles, gives up or fails, leaves the chains consistent.

* `Replacement.build_runs`: a replacement is built into an expression a statement may list;
* `Simplifier.step_runs`: one step keeps the chains consistent;
* `Simplifier.reduceExpr_runs`, `Simplifier.reduceStmt_runs`: so does a whole reduction.
-/

namespace Decompilation

namespace Procedure

variable {p : Procedure} {E : Procedure → Prop}

/-- A new node over expressions a statement may list is one a statement may list. -/
theorem allocExpr_listable (h : p.Consistent) {n : ExprNode} (hn : n.Plain)
    (hops : ∀ o ∈ n.operands, p.Listable o) :
    Runs (allocExpr n) p (fun r p' => p'.Consistent ∧ p.Later p' ∧ p'.Listable r) E := by
  refine runs_mono (allocExpr_runs h hn (.of_listable hops)) ?_ fun _ h => h
  rintro r p' ⟨hc, hl, -, hr⟩
  refine ⟨hc, hl, index_lt_of_expr? p' hr, fun x hx => ?_⟩
  rw [hr] at hx
  cases hx
  exact hn.isDef

theorem val_runs (h : p.Consistent) (v : UInt64) (s : Nat) :
    Runs (val v s) p (fun r p' => p'.Consistent ∧ p.Later p' ∧ p'.Listable r) E :=
  allocExpr_listable h ⟨rfl, rfl, rfl, rfl⟩ (by simp)

theorem unary_runs (h : p.Consistent) (op : UnaryOp) {a : ExprId} (ha : p.Listable a) :
    Runs (unary op a) p (fun r p' => p'.Consistent ∧ p.Later p' ∧ p'.Listable r) E :=
  allocExpr_listable h ⟨rfl, rfl, rfl, rfl⟩ (by simpa using ha)

theorem binary_runs (h : p.Consistent) (op : BinaryOp) {l r : ExprId} (hl : p.Listable l)
    (hr : p.Listable r) :
    Runs (binary op l r) p (fun r p' => p'.Consistent ∧ p.Later p' ∧ p'.Listable r) E :=
  allocExpr_listable h ⟨rfl, rfl, rfl, rfl⟩ (by simp [hl, hr])

end Procedure

open Procedure

/-- A replacement whose parts a statement may list is built into an expression a statement
    may list, and the chains stay consistent, also when the build fails. -/
theorem Replacement.build_runs : ∀ (w : Replacement) {p : Procedure}, p.Consistent →
    (∀ x ∈ w.parts, p.Listable x) →
    Runs w.build p (fun r p' => p'.Consistent ∧ p.Later p' ∧ p'.Listable r)
      (fun p' => p'.Consistent)
  | .keep e, p, h, hw => by
    have he : p.Listable e := hw e (by simp [Replacement.parts])
    rw [Replacement.build]
    refine runs_get_bind ?_
    split
    · refine runs_bind (runs_mono (pluckExpr_runs h.placed h.chains (.inl he.notDef))
        (fun _ _ h => h) fun _ h => ⟨h.1, h.2.1⟩) fun _ p' hplucked => ?_
      obtain ⟨hd, hc, hl, _⟩ := hplucked
      exact runs_pure _ ⟨⟨hd, hc⟩, hl, hl.listable he⟩
    · exact runs_pure _ ⟨h, .refl p, he⟩
  | .copy e, p, h, hw => by
    have he : p.Listable e := hw e (by simp [Replacement.parts])
    refine runs_mono (cloneExpr_runs h he.1 .all) ?_ fun _ h => h
    rintro r p' ⟨hc, hl, hr, rfl | hnd⟩
    · exact ⟨hc, hl, hl.listable he⟩
    · exact ⟨hc, hl, hr, hnd⟩
  | .val v s, p, h, _ => val_runs h v s
  | .unary op a, p, h, hw => by
    rw [Replacement.build]
    refine runs_bind (Replacement.build_runs a h hw) fun ra p₁ hbuilt => ?_
    obtain ⟨h₁, hl₁, hra⟩ := hbuilt
    exact runs_mono (unary_runs h₁ op hra) (fun _ _ hu => ⟨hu.1, hl₁.trans hu.2.1, hu.2.2⟩)
      fun _ h => h
  | .binary op l r, p, h, hw => by
    have hwl : ∀ x ∈ l.parts, p.Listable x := fun x hx => hw x (List.mem_append_left _ hx)
    have hwr : ∀ x ∈ r.parts, p.Listable x := fun x hx => hw x (List.mem_append_right _ hx)
    rw [Replacement.build]
    refine runs_bind (Replacement.build_runs l h hwl) fun el p₁ hleft => ?_
    obtain ⟨h₁, hl₁, hel⟩ := hleft
    -- the parts of the right side survive the build of the left
    refine runs_bind (Replacement.build_runs r h₁ fun x hx => hl₁.listable (hwr x hx))
      fun er p₂ hright => ?_
    obtain ⟨h₂, hl₂, her⟩ := hright
    exact runs_mono (binary_runs h₂ op (hl₂.listable hel) her)
      (fun _ _ hb => ⟨hb.1, hl₁.trans (hl₂.trans hb.2.1), hb.2.2⟩) fun _ h => h

namespace Simplifier

variable {p : Procedure}

theorem lift_runs {α : Type} {x : Except Error α} {Q : α → Procedure → Prop}
    {E : Procedure → Prop} (hok : ∀ a, x = .ok a → Q a p) (herr : E p) :
    Runs (lift x) p Q E := by
  cases x with
  | ok a => exact runs_pure a (hok a rfl)
  | error e => exact runs_throw e herr

/-- One step of the simplifier keeps the chains consistent. The rounds of its scan that find
    nothing leave the procedure as it was; the round that fires builds the replacement, puts
    it in place and deletes the expression replaced. -/
theorem step_runs (s : Simplifier) (root : ExprId) (h : p.Consistent) :
    Runs (s.step root) p (fun _ p' => p'.Consistent) (fun p' => p'.Consistent) := by
  unfold Simplifier.step
  refine runs_get_bind (runs_bind (runs_forIn (fun _ q => q = p) (fun _ q => q.Consistent) rfl ?_) ?_)
  · rintro node - b q rfl
    split
    · exact runs_pure _ rfl
    · next hnd =>
      -- the rules answer from the procedure as the scan found it
      refine runs_bind (lift_runs
        (Q := fun o q' => q' = q ∧ ∀ w, o = some w → ∀ x ∈ w.parts, q.Listable x)
        (fun o ho => ⟨rfl, fun w hw x hx =>
          h.placed.listable_of_Operand (firstReplacement_parts (hw ▸ ho) x hx)⟩) h) ?_
      rintro o q' ⟨rfl, hparts⟩
      split
      · next w =>
        refine runs_bind (Replacement.build_runs w h (hparts w rfl)) fun r p₁ ⟨h₁, hl₁, hr⟩ => ?_
        refine runs_get_bind ?_
        have hnode : q'.NotDef node := fun x hx => by
          rw [node_of_expr? q' hx] at hnd
          simpa using hnd
        -- the replaced expression is deleted whether or not it was still in place
        have hdiscard : ∀ q, q.Consistent → Runs (discardExpr node) q
            (fun _ q' => RoundEnds (fun _ q => q = q') (fun _ q => q.Consistent)
              (.done (some (some (if (node == root) = true then r else root)), ())) q')
            (fun q => q.Consistent) := fun q hq =>
          runs_mono (discardExpr_runs hq node) (fun _ _ h => h.1) fun _ h => h
        dsimp only
        split
        · exact runs_bind (replaceExpr_runs h₁ (hl₁.notDef hnode) hr) fun _ q hq =>
            runs_bind (hdiscard q hq.1) fun _ _ h => runs_pure _ h
        · exact runs_bind (hdiscard p₁ h₁) fun _ _ h => runs_pure _ h
      · exact runs_pure _ rfl
  · rintro b q hq
    have hq : q.Consistent := hq.elim (fun h' => h' ▸ h) id
    dsimp only
    split <;> exact runs_pure _ hq

/-- Steps repeated until the tree settles or the fuel runs out keep the chains consistent. -/
theorem reduceCounted_go_runs (s : Simplifier) (fuel : Nat) :
    ∀ (root : ExprId) (done : Nat) {p : Procedure}, p.Consistent →
      Runs (reduceCounted.go s fuel root done) p (fun _ p' => p'.Consistent)
        (fun p' => p'.Consistent) := by
  induction fuel with
  | zero =>
    intro root done p h
    exact runs_throw _ h
  | succ fuel ih =>
    intro root done p h
    rw [reduceCounted.go]
    refine runs_bind (s.step_runs root h) fun next q hq => ?_
    cases next with
    | some next => exact ih next (done + 1) hq
    | none => exact runs_pure _ hq

theorem reduceExpr_runs (s : Simplifier) (root : ExprId) (h : p.Consistent) :
    Runs (s.reduceExpr root) p (fun _ p' => p'.Consistent) (fun p' => p'.Consistent) :=
  runs_bind (reduceCounted_go_runs s _ root 0 h) fun _ _ hq => runs_pure _ hq

theorem reduceStmt_runs (s : Simplifier) (st : StmtId) (h : p.Consistent) :
    Runs (s.reduceStmt st) p (fun _ p' => p'.Consistent) (fun p' => p'.Consistent) := by
  unfold reduceStmt
  refine runs_get_bind (runs_bind (runs_forIn_inv (fun _ q => q.Consistent) h ?_) ?_)
  · intro e _ total q hq
    exact runs_bind (reduceCounted_go_runs s _ e 0 hq) fun _ _ hq' => runs_pure _ hq'
  · exact fun _ _ hq => runs_pure _ hq

end Simplifier

end Decompilation
