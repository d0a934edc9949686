import Mathlib
import Decompilation.Proofs.DefUse.Sites

/-!
# Deleting the old implicit definitions

A rebuild of the chains first clears every link, reader list and registration, then plucks each
statement of the container of implicit definitions out of it and deletes it with its expressions
and bodies. Everything it touches hangs below that container (`Procedure.Stale`,
`StaleCntr`, `StaleExpr`), and a procedure whose implicit definitions stand apart from the rest
(`Procedure.Linkable`) loses nothing else.

`Procedure.Trimmed p q` says what such deletions leave of `p` in `q`: outside the stale part,
every container and statement is as it was, and every node is as it was without its chains;
inside it, a node or statement is gone or detached, and a container is gone or keeps a part of
its statements. A node that survives keeps its operands, so what is below a node in `q` was below
it in `p`, and the deletions stay inside the stale part.

* `Procedure.Trimmed.discardExpr`, `discardStmt_go_trimmed`: deleting a stale tree or statement;
* `Procedure.pluckStmt_trimmed`: plucking the first implicit definition and deleting it leaves
  the others as they were.
-/

namespace Decompilation

namespace ExprNode

@[simp]
theorem unlinked_unlinked (x : ExprNode) : x.unlinked.unlinked = x.unlinked := rfl

end ExprNode

namespace Procedure

open ExprShape

variable {p q : Procedure}

/-- A statement listed by a body of some statement. -/
def Nested (p : Procedure) (s : StmtId) : Prop :=
  ∃ t, ∃ c ∈ (p.stmtNode t).children, s ∈ (p.cntrNode c).stmts

/-- `q` is `p` with its chains cleared and a part of what hangs below the container of implicit
    definitions deleted or detached. -/
structure Trimmed (p q : Procedure) : Prop where
  exprs_size : q.exprs.size = p.exprs.size
  stmts_size : q.stmts.size = p.stmts.size
  cntrs_size : q.cntrs.size = p.cntrs.size
  blocks : q.blocks = p.blocks
  body : q.body = p.body
  expr : ∀ x y, q.expr? x = some y →
    ∃ y₀ par, p.expr? x = some y₀ ∧ y = { y₀.unlinked with parent := par }
  expr_kept : ∀ x, ¬ p.StaleExpr x → q.expr? x = (p.expr? x).map ExprNode.unlinked
  stmt : ∀ s st, q.stmt? s = some st →
    ∃ st₀ par, p.stmt? s = some st₀ ∧ st = { st₀ with parent := par }
  stmt_kept : ∀ s, ¬ p.Stale s → q.stmt? s = p.stmt? s
  cntr : ∀ c ct, q.cntr? c = some ct →
    ∃ ct₀ l, p.cntr? c = some ct₀ ∧ ct = { ct₀ with stmts := l } ∧ l.Sublist ct₀.stmts
  cntr_kept : ∀ c, ¬ p.StaleCntr c → q.cntr? c = p.cntr? c

theorem cntr?_clear (c d : CntrId) :
    ({ p with cntrs := p.cntrs.modify c.index fun _ => none } : Procedure).cntr? d =
      if d = c then none else p.cntr? d := by
  simp only [cntr?, Array.getElem?_modify]
  split <;> rename_i h
  · obtain rfl : d = c := by cases d; cases c; simp_all
    rw [if_pos rfl]
    cases p.cntrs[d.index]? <;> rfl
  · rw [if_neg fun h' => h (by rw [h'])]

/-- Deleting a node with no chains only empties its slot. -/
theorem dropExpr_of_unlinked {n : ExprId} {x : ExprNode} (hn : q.expr? n = some x)
    (hl : x.defLink = none) (hu : x.uses = []) :
    q.dropExpr n = { q with exprs := q.exprs.modify n.index fun _ => none } := by
  unfold dropExpr
  rw [hn]
  simp [hl, hu]

/-- What hangs below a stale expression is stale. -/
theorem StaleExpr.below {e x : ExprId} (he : p.StaleExpr e) (hx : p.Below e x) : p.StaleExpr x := by
  obtain ⟨s, hs, e₀, he₀, hb⟩ := he
  exact ⟨s, hs, e₀, he₀, hb.trans hx⟩

namespace Trimmed

/-- Clearing the chains of every node trims nothing else. -/
theorem cleared (p : Procedure) :
    p.Trimmed { p with exprs := p.exprs.map (Option.map ExprNode.unlinked) } where
  exprs_size := Array.size_map ..
  stmts_size := rfl
  cntrs_size := rfl
  blocks := rfl
  body := rfl
  expr x y hy := by
    rw [expr?_map] at hy
    obtain ⟨y₀, hy₀, rfl⟩ := Option.map_eq_some_iff.1 hy
    exact ⟨y₀, y₀.parent, hy₀, rfl⟩
  expr_kept x _ := expr?_map _ x
  stmt s st hs := ⟨st, st.parent, hs, rfl⟩
  stmt_kept _ _ := rfl
  cntr c ct hc := ⟨ct, ct.stmts, hc, rfl, List.Sublist.refl _⟩
  cntr_kept _ _ := rfl

variable (h : p.Trimmed q)
include h

/-- A node of `q` has no chains. -/
theorem unlinked {x : ExprId} {y : ExprNode} (hy : q.expr? x = some y) :
    y.defLink = none ∧ y.uses = [] := by
  obtain ⟨y₀, par, -, rfl⟩ := h.expr x y hy
  exact ⟨rfl, rfl⟩

theorem operands {w o : ExprId} (ho : o ∈ (q.node w).operands) : o ∈ (p.node w).operands := by
  cases hw : q.expr? w with
  | none => simp [node_of_expr?_eq_none q hw] at ho
  | some y =>
    obtain ⟨y₀, par, hy₀, rfl⟩ := h.expr w y hw
    rwa [node_of_expr? q hw, node_of_expr? p hy₀] at *

/-- What is below a node in `q` was below it in `p`. -/
theorem below {e x : ExprId} (hx : q.Below e x) : p.Below e x :=
  hx.of_operands fun _ _ => h.operands

theorem stmtNode {s : StmtId} {st : Stmt} (hs : q.stmt? s = some st) :
    st.exprs = (p.stmtNode s).exprs ∧ st.children = (p.stmtNode s).children := by
  obtain ⟨st₀, par, hst₀, rfl⟩ := h.stmt s st hs
  rw [stmtNode_of_stmt? hst₀]
  exact ⟨rfl, rfl⟩

theorem cntrNode {c : CntrId} {ct : Container} (hc : q.cntr? c = some ct) :
    ct.stmts.Sublist (p.cntrNode c).stmts := by
  obtain ⟨ct₀, l, hct₀, rfl, hsub⟩ := h.cntr c ct hc
  rwa [cntrNode_of_cntr? hct₀]

/-- Deleting a stale node. -/
theorem dropExpr {n : ExprId} (hn : p.StaleExpr n) : p.Trimmed (q.dropExpr n) := by
  cases hq : q.expr? n with
  | none => rwa [show q.dropExpr n = q by simp [Procedure.dropExpr, hq]]
  | some x =>
    obtain ⟨hl, hu⟩ := h.unlinked hq
    rw [dropExpr_of_unlinked hq hl hu]
    refine { h with exprs_size := ?_, expr := fun y z hz => ?_, expr_kept := fun y hy => ?_ }
    · simpa using h.exprs_size
    · rw [expr?_clear] at hz
      split at hz
      · cases hz
      · exact h.expr y z hz
    · rw [expr?_clear, if_neg fun hyn => hy (by rw [hyn]; exact hn)]
      exact h.expr_kept y hy

/-- Deleting stale nodes one after another. -/
theorem foldl_dropExpr {ns : List ExprId} (hns : ∀ n ∈ ns, p.StaleExpr n) :
    p.Trimmed (ns.foldl Procedure.dropExpr q) := by
  induction ns generalizing q with
  | nil => exact h
  | cons n ns ih =>
    exact ih (h.dropExpr (hns n List.mem_cons_self)) fun m hm => hns m (List.mem_cons_of_mem _ hm)

/-- Detaching a stale node. -/
theorem detach {e : ExprId} (he : p.StaleExpr e) :
    p.Trimmed (q.modifyExpr e fun x => { x with parent := none }) := by
  refine { h with
    exprs_size := (by simpa [modifyExpr] using h.exprs_size)
    expr := fun y z hz => ?_
    expr_kept := fun y hy => ?_ }
  · rw [expr?_modifyExpr] at hz
    split at hz
    · obtain ⟨z₀, hz₀, rfl⟩ := Option.map_eq_some_iff.1 hz
      obtain ⟨y₀, par, hy₀, rfl⟩ := h.expr y z₀ hz₀
      exact ⟨y₀, none, hy₀, rfl⟩
    · exact h.expr y z hz
  · rw [expr?_modifyExpr, if_neg fun hye => hy (by rw [hye]; exact he)]
    exact h.expr_kept y hy

/-- Emptying the slot of a stale statement. -/
theorem clearStmt {t : StmtId} (ht : p.Stale t) :
    p.Trimmed { q with stmts := q.stmts.modify t.index fun _ => none } := by
  refine { h with
    stmts_size := (by simpa using h.stmts_size)
    stmt := fun s st hs => ?_
    stmt_kept := fun s hs => ?_ }
  · rw [stmt?_clear] at hs
    split at hs
    · cases hs
    · exact h.stmt s st hs
  · rw [stmt?_clear, if_neg fun hst => hs (by rw [hst]; exact ht)]
    exact h.stmt_kept s hs

/-- Detaching a stale statement. -/
theorem detachStmt {t : StmtId} (ht : p.Stale t) :
    p.Trimmed (q.modifyStmt t fun x => { x with parent := none }) := by
  refine { h with
    stmts_size := (by simpa [modifyStmt] using h.stmts_size)
    stmt := fun s st hs => ?_
    stmt_kept := fun s hs => ?_ }
  · rw [stmt?_modifyStmt] at hs
    split at hs
    · obtain ⟨st₁, hst₁, rfl⟩ := Option.map_eq_some_iff.1 hs
      obtain ⟨st₀, par, hst₀, rfl⟩ := h.stmt s st₁ hst₁
      exact ⟨st₀, none, hst₀, rfl⟩
    · exact h.stmt s st hs
  · rw [stmt?_modifyStmt, if_neg fun hst => hs (by rw [hst]; exact ht)]
    exact h.stmt_kept s hs

/-- Emptying the slot of a stale container. -/
theorem clearCntr {c : CntrId} (hc : p.StaleCntr c) :
    p.Trimmed { q with cntrs := q.cntrs.modify c.index fun _ => none } := by
  refine { h with
    cntrs_size := (by simpa using h.cntrs_size)
    cntr := fun d ct hd => ?_
    cntr_kept := fun d hd => ?_ }
  · rw [cntr?_clear] at hd
    split at hd
    · cases hd
    · exact h.cntr d ct hd
  · rw [cntr?_clear, if_neg fun hdc => hd (by rw [hdc]; exact hc)]
    exact h.cntr_kept d hd

/-- Taking a statement out of the container of implicit definitions. -/
theorem eraseUninit (pos : Nat) :
    p.Trimmed (q.modifyCntr uninitContainer fun x => { x with stmts := x.stmts.eraseIdx pos }) := by
  refine { h with
    cntrs_size := (by simpa [modifyCntr] using h.cntrs_size)
    cntr := fun d ct hd => ?_
    cntr_kept := fun d hd => ?_ }
  · rw [cntr?_modifyCntr] at hd
    split at hd
    · obtain ⟨ct₁, hct₁, rfl⟩ := Option.map_eq_some_iff.1 hd
      obtain ⟨ct₀, l, hct₀, rfl, hsub⟩ := h.cntr d ct₁ hct₁
      exact ⟨ct₀, l.eraseIdx pos, hct₀, rfl, (List.eraseIdx_sublist _ _).trans hsub⟩
    · exact h.cntr d ct hd
  · rw [cntr?_modifyCntr, if_neg fun hdc => hd (.inl hdc)]
    exact h.cntr_kept d hd

/-- Deleting a detached stale tree deletes only stale nodes, and no statement or container. -/
theorem discardExpr {e : ExprId} (he : p.StaleExpr e) (hpar : (q.node e).parent = none) :
    Runs (Procedure.discardExpr e) q
      (fun _ q' => p.Trimmed q' ∧ q'.stmts = q.stmts ∧ q'.cntrs = q.cntrs) (fun _ => False) := by
  refine runs_mono (discardExpr_detached hpar) (fun _ q' hq' => ?_) fun _ h => h
  subst hq'
  split
  · -- the walk below the root stays below it in `p`, in the stale part
    have hfr := exprsOnly_foldl_dropExpr (p := q) (q.postOrder e)
    exact ⟨h.foldl_dropExpr fun n hn => he.below (h.below (mem_postOrder_go hn).1), hfr.stmts,
      hfr.cntrs⟩
  · exact ⟨h, rfl, rfl⟩

end Trimmed

/-- What a deletion of the statement `t` spares of `q` in `q'`: every statement that is not `t`
    and hangs in no body, every slot already empty, and the container of implicit definitions. -/
structure Spares (p : Procedure) (t : StmtId) (q q' : Procedure) : Prop where
  stmt : ∀ s, s ≠ t → ¬ p.Nested s → q'.stmt? s = q.stmt? s
  gone : ∀ s, q.stmt? s = none → q'.stmt? s = none
  uninit : q'.cntr? uninitContainer = q.cntr? uninitContainer

namespace Spares

variable {t : StmtId} {q' q'' : Procedure}

theorem refl (p : Procedure) (t : StmtId) (q : Procedure) : p.Spares t q q :=
  ⟨fun _ _ _ => rfl, fun _ h => h, rfl⟩

/-- An edit of the expressions alone spares every statement. -/
theorem of_exprs (hs : q'.stmts = q.stmts) (hc : q'.cntrs = q.cntrs) : p.Spares t q q' where
  stmt s _ _ := by simp only [stmt?, hs]
  gone s h := by simpa only [stmt?, hs] using h
  uninit := by simp only [cntr?, hc]

/-- A deletion below `t`, of a statement hanging in a body, is one of `t`. -/
theorem trans_nested {t' : StmtId} (h₁ : p.Spares t q q') (h₂ : p.Spares t' q' q'')
    (ht' : p.Nested t') : p.Spares t q q'' where
  stmt s hst hs := (h₂.stmt s (fun h => hs (h ▸ ht')) hs).trans (h₁.stmt s hst hs)
  gone s h := h₂.gone s (h₁.gone s h)
  uninit := h₂.uninit.trans h₁.uninit

theorem trans (h₁ : p.Spares t q q') (h₂ : p.Spares t q' q'') : p.Spares t q q'' where
  stmt s hst hs := (h₂.stmt s hst hs).trans (h₁.stmt s hst hs)
  gone s h := h₂.gone s (h₁.gone s h)
  uninit := h₂.uninit.trans h₁.uninit

end Spares

/-- Deleting a stale statement, with a fuel: only stale nodes, statements and containers are
    deleted or detached, only the statement and statements hanging in bodies change, and the
    statement is gone. -/
theorem discardStmt_go_trimmed (hl : p.Linkable) (n : Nat) :
    ∀ t, p.Stale t → ∀ q, p.Trimmed q →
      Runs (discardStmt.go n t) q
        (fun _ q' => p.Trimmed q' ∧ p.Spares t q q' ∧ (0 < n → q'.stmt? t = none))
        (fun _ => False) := by
  induction n with
  | zero => exact fun t _ q h => runs_pure _ ⟨h, .refl p t q, by omega⟩
  | succ n ih =>
    intro t ht q h
    rw [discardStmt.go]
    refine runs_get_bind ?_
    split
    · next st hst =>
      obtain ⟨hexprs, hchildren⟩ := h.stmtNode hst
      -- the invariant of both loops: trimmed, sparing, and the statement gone
      let J : PUnit → Procedure → Prop := fun _ q' =>
        p.Trimmed q' ∧ p.Spares t q q' ∧ q'.stmt? t = none
      have h₁ : J ⟨⟩ { q with stmts := q.stmts.modify t.index fun _ => none } := by
        refine ⟨h.clearStmt ht, ⟨fun s hs _ => ?_, fun s hs => ?_, rfl⟩, ?_⟩
        · rw [stmt?_clear, if_neg hs]
        · rw [stmt?_clear]
          split <;> simp [hs]
        · rw [stmt?_clear, if_pos rfl]
      refine runs_modify_bind (runs_bind (runs_forIn_inv J h₁ ?_) fun _ q₃ h₃ =>
        runs_bind (runs_forIn_inv J h₃ ?_) fun _ q' h' => runs_pure _ ⟨h'.1, h'.2.1, fun _ => h'.2.2⟩)
      · -- each expression is detached and deleted
        rintro e he _ q₂ ⟨h₂, hs₂, ht₂⟩
        have hse : p.StaleExpr e := ⟨t, ht, e, hexprs ▸ he, .refl⟩
        have hdet : ((q₂.modifyExpr e fun x => { x with parent := none }).node e).parent = none := by
          simp only [node, expr?_modifyExpr]
          cases q₂.expr? e <;> rfl
        refine runs_modify_bind (runs_bind ((h₂.detach hse).discardExpr hse hdet) ?_)
        rintro _ q₄ ⟨h₄, hst₄, hcn₄⟩
        have hsp : p.Spares t q₂ q₄ := .of_exprs hst₄ hcn₄
        exact runs_pure _ ⟨h₄, hs₂.trans hsp, hsp.gone t ht₂⟩
      · -- each body is emptied, its statements detached and deleted in turn
        rintro c hc _ q₄ ⟨h₄, hs₄, ht₄⟩
        refine runs_get_bind ?_
        split
        · next ct hct =>
          have hcp : c ∈ (p.stmtNode t).children := hchildren ▸ hc
          have hsc : p.StaleCntr c := .inr ⟨t, ht, hcp⟩
          have hcu : c ≠ uninitContainer := fun hcu => hl.uninit_free t (hcu ▸ hcp)
          have hsub := h₄.cntrNode hct
          have h₅ : J ⟨⟩ { q₄ with cntrs := q₄.cntrs.modify c.index fun _ => none } := by
            refine ⟨h₄.clearCntr hsc, hs₄.trans ⟨fun _ _ _ => rfl, fun _ h => h, ?_⟩, ht₄⟩
            rw [cntr?_clear, if_neg (Ne.symm hcu)]
          refine runs_modify_bind (runs_bind (runs_forIn_inv J h₅ ?_) fun _ _ h' => runs_pure _ h')
          rintro t' ht' _ q₅ ⟨h₅, hs₅, ht₅⟩
          have ht'p : t' ∈ (p.cntrNode c).stmts := hsub.subset ht'
          have hst' : p.Stale t' := .nested ht hcp ht'p
          have hnest : p.Nested t' := ⟨t, c, hcp, ht'p⟩
          -- detaching a statement hanging in a body spares the others
          have hdet : p.Spares t' q₅ (q₅.modifyStmt t' fun x => { x with parent := none }) := by
            refine ⟨fun s hs _ => by rw [stmt?_modifyStmt, if_neg hs], fun s hs => ?_, rfl⟩
            rw [stmt?_modifyStmt]
            split <;> simp [hs]
          refine runs_modify_bind (runs_bind (ih t' hst' _ (h₅.detachStmt hst')) ?_)
          rintro _ q₆ ⟨h₆, hs₆, -⟩
          exact runs_pure _ ⟨h₆, hs₅.trans_nested (hdet.trans hs₆) hnest,
            (hdet.trans hs₆).gone t ht₅⟩
        · exact runs_pure _ ⟨h₄, hs₄, ht₄⟩
    · next hnone =>
      exact runs_pure _ ⟨h, .refl p t q, fun _ => Option.eq_none_iff_forall_ne_some.2 fun st hs =>
        hnone st hs⟩


/-- The place of the first statement of a container is the first. -/
theorem stmtSlot_head {c : CntrId} {s : StmtId} {rest : List StmtId}
    (hc : (q.cntrNode c).stmts = s :: rest) {E : Procedure → Prop} :
    Runs (stmtSlot c s) q (fun i q' => i = 0 ∧ q' = q) E := by
  unfold stmtSlot
  refine runs_get_bind ?_
  rw [hc, List.idxOf?_cons, beq_self_eq_true, if_pos rfl]
  exact runs_pure _ ⟨rfl, rfl⟩

/-- Plucking the first statement of the container of implicit definitions and deleting it: the
    container keeps the rest, the statement is gone, and every other statement hanging in no body
    is as it was. -/
theorem pluckStmt_trimmed (hl : p.Linkable) (h : p.Trimmed q) {s : StmtId}
    {rest : List StmtId} (hq : (q.cntrNode uninitContainer).stmts = s :: rest) (hs : p.Stale s)
    (hpar : (q.stmtNode s).parent = some uninitContainer) :
    Runs (pluckStmt s true) q (fun _ q' => p.Trimmed q' ∧
      (q'.cntrNode uninitContainer).stmts = rest ∧ q'.stmt? s = none ∧
      (∀ s', s' ≠ s → ¬ p.Nested s' → q'.stmt? s' = q.stmt? s') ∧
      (∀ s', q.stmt? s' = none → q'.stmt? s' = none) ∧ (q'.cntr? uninitContainer).isSome)
      (fun _ => False) := by
  unfold pluckStmt
  refine runs_get_bind ?_
  simp only [hpar]
  refine runs_bind (stmtSlot_head hq) ?_
  rintro pos q₁ ⟨rfl, hq₁⟩
  subst q₁
  refine runs_modify_bind ?_
  set q₂ := (q.modifyCntr uninitContainer fun x => { x with stmts := x.stmts.eraseIdx 0 }).modifyStmt
    s fun x => { x with parent := none }
  have h₂ : p.Trimmed q₂ := (h.eraseUninit 0).detachStmt hs
  -- the container was live, as it lists the statement
  have hlive : (q.cntr? uninitContainer).isSome := by
    cases hc : q.cntr? uninitContainer with
    | none => simp [cntrNode_of_cntr?_eq_none hc] at hq
    | some _ => rfl
  have hq₂ : (q₂.cntrNode uninitContainer).stmts = rest := by
    obtain ⟨ct, hct⟩ := Option.isSome_iff_exists.1 hlive
    rw [cntrNode_of_cntr? hct] at hq
    rw [cntrNode, cntr?_modifyStmt, cntr?_modifyCntr, if_pos rfl, hct]
    simp [hq]
  refine runs_get_bind (runs_mono (discardStmt_go_trimmed hl _ s hs q₂ h₂) ?_ fun _ h => h)
  rintro _ q₃ ⟨h₃, hs₃, hgone⟩
  refine ⟨h₃, ?_, hgone (by simp [nestingBound]), fun s' hs' hn => ?_, fun s' hs' => ?_, ?_⟩
  · rw [cntrNode, hs₃.uninit, ← cntrNode, hq₂]
  · rw [hs₃.stmt s' hs' hn]
    simp [q₂, stmt?_modifyStmt, hs']
  · refine hs₃.gone s' ?_
    simp only [q₂, stmt?_modifyStmt]
    split <;> simp [hs']
  · rw [hs₃.uninit, cntr?_modifyStmt, cntr?_modifyCntr, if_pos rfl, Option.isSome_map]
    exact hlive

/-- The loop deleting the old implicit definitions, from the cleared procedure: the container of
    implicit definitions is left live and empty, each statement it listed is gone, and nothing
    outside the stale part changes. -/
theorem forIn_pluckStmt_trimmed (hl : p.Linkable) :
    Runs (forIn (p.cntrNode uninitContainer).stmts ⟨⟩ fun s (_ : PUnit) => do
        pluckStmt s true
        pure (ForInStep.yield ⟨⟩))
      { p with exprs := p.exprs.map (Option.map ExprNode.unlinked) }
      (fun _ q => p.Trimmed q ∧ (q.cntrNode uninitContainer).stmts = [] ∧
        (∀ s ∈ (p.cntrNode uninitContainer).stmts, q.stmt? s = none) ∧
        (q.cntr? uninitContainer).isSome) (fun _ => False) := by
  set L := (p.cntrNode uninitContainer).stmts
  -- done so far `l₁`; the container lists the rest, untouched
  refine runs_mono (runs_forIn_done (fun l₁ _ q => p.Trimmed q ∧ ∃ l₂, L = l₁ ++ l₂ ∧
      (q.cntrNode uninitContainer).stmts = l₂ ∧ (∀ s ∈ l₁, q.stmt? s = none) ∧
      (∀ s ∈ l₂, q.stmt? s = p.stmt? s) ∧ (q.cntr? uninitContainer).isSome)
    ⟨.cleared p, L, rfl, rfl, by simp, fun _ _ => rfl, hl.uninit_live⟩ ?_) ?_ fun _ h => h
  · rintro l₁ a l₂ hL _ q ⟨h, l₂', hL', hq, hdone, hrest, -⟩
    obtain rfl : l₂' = a :: l₂ := List.append_cancel_left (hL'.symm.trans hL)
    have haL : a ∈ L := hL ▸ List.mem_append_right _ List.mem_cons_self
    obtain ⟨st, hst, hpar⟩ := hl.uninit_parent a haL
    have hpar' : (q.stmtNode a).parent = some uninitContainer := by
      rw [stmtNode, hrest a List.mem_cons_self, hst]
      exact hpar
    refine runs_bind (pluckStmt_trimmed hl h hq (.listed haL) hpar') ?_
    rintro _ q' ⟨h', hq', ha, hspare, hgone, hlive⟩
    refine runs_pure _ ⟨_, rfl, h', l₂, by simp [hL], hq', fun s hs => ?_, fun s hs => ?_, hlive⟩
    · rcases List.mem_append.1 hs with hs | hs
      · exact hgone s (hdone s hs)
      · rw [List.mem_singleton.1 hs]
        exact ha
    · -- a later statement is neither the one deleted nor in any body
      have hnd : L.Nodup := hl.uninit_nodup
      rw [hL] at hnd
      replace hnd := hnd.of_append_right
      have hsa : s ≠ a := fun h => (List.nodup_cons.1 hnd).1 (h ▸ hs)
      have hsL : s ∈ L := hL ▸ List.mem_append_right _ (List.mem_cons_of_mem _ hs)
      have hn : ¬ p.Nested s := by
        rintro ⟨t, c, hc, hsc⟩
        exact hl.uninit_once s hsL t c hc hsc
      rw [hspare s hsa hn, hrest s (List.mem_cons_of_mem _ hs)]
  · rintro _ q ⟨h, l₂, hL, hq, hdone, -, hlive⟩
    obtain rfl : l₂ = [] := by simpa using hL
    exact ⟨h, hq, hdone, hlive⟩

/-- What the walk reads is untouched by deletions in the stale part. -/
theorem Trimmed.readsAlike (hl : p.Linkable) (h : p.Trimmed q) : p.ReadsAlike q where
  roots := by simp only [linkRoots, h.blocks, h.body]
  cntr c hc := h.cntr_kept c fun hs => hl.cntrs c hs hc
  stmt s hs := h.stmt_kept s fun hst => hl.stmts s hst hs
  expr x hx := by
    rw [h.expr_kept x fun hst => hl.exprs x hst hx, Option.map_map]
    rfl
  size := h.exprs_size.ge
  nesting := h.cntrs_size

end Procedure

end Decompilation
