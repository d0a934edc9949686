import Mathlib
import Decompilation.Structure.Loop
import Decompilation.Proofs.Structure.Nesting
import Decompilation.Proofs.DefUse.Statements

/-!
# Building one loop

`buildLoop` moves the statements of the blocks a loop spans into a new body, puts a loop over
that body in the place of the closing jump, and deletes the jump with what it reads. Run on a
well-formed procedure whose closing jump is listed, it never fails, and its effect is described
exactly by `LoopBuilt`: the views of the containers, statements and expressions afterwards, in
terms of those before.

* `runs_forIn_done`: a loop whose invariant follows the part of the list already done;
* `Moved`: the state after some statements moved into the new body;
* `Dropped`: the state after expressions were deleted with their subtrees;
* `CondTaken`: the state after the loop's condition was taken from the jump or made;
* `LoopBuilt`, `buildLoop_built`: the state after the loop is built.
-/

namespace Decompilation

namespace List

variable {α : Type} [DecidableEq α]

theorem idxOf?_eq_some_idxOf {l : List α} {a : α} (h : a ∈ l) : l.idxOf? a = some (l.idxOf a) := by
  induction l with
  | nil => simp at h
  | cons x xs ih =>
    rw [List.idxOf?_cons, List.idxOf_cons]
    by_cases hx : x = a
    · simp [hx]
    · have ha : a ∈ xs := (List.mem_cons.1 h).resolve_left (Ne.symm hx)
      simp [hx, ih ha, cond_eq_ite]

/-- Setting the position of an entry listed once is replacing it. -/
theorem set_idxOf_eq_map {l : List α} (hl : l.Nodup) (a b : α) :
    l.set (l.idxOf a) b = l.map fun x => if x = a then b else x := by
  induction l with
  | nil => rfl
  | cons x xs ih =>
    rw [List.nodup_cons] at hl
    rw [List.idxOf_cons]
    by_cases hx : x = a
    · subst hx
      have hmap : xs.map (fun y => if y = x then b else y) = xs.map id :=
        List.map_congr_left fun y hy => if_neg fun h : y = x => hl.1 (h ▸ hy)
      simp [hmap]
    · simp [hx, ih hl.2, cond_eq_ite]

end List

namespace Procedure

variable {p q : Procedure}

/-! ### Moving statements -/

/-- Taking an attached statement out of its container. -/
theorem pluckStmt_attached {s : StmtId} {c : CntrId} (hpar : (q.stmtNode s).parent = some c)
    (hs : s ∈ (q.cntrNode c).stmts) :
    Runs (pluckStmt s false) q
      (fun _ q' => q' = (q.modifyCntr c fun x =>
        { x with stmts := x.stmts.eraseIdx ((q.cntrNode c).stmts.idxOf s) }).modifyStmt s
          fun x => { x with parent := none }) (fun _ => False) := by
  unfold pluckStmt stmtSlot
  refine runs_get_bind ?_
  simp only [hpar]
  refine runs_bind (Q := fun i q' => q' = q ∧ i = (q.cntrNode c).stmts.idxOf s) ?_
    fun pos q' ⟨hq', hpos⟩ => ?_
  · refine runs_get_bind ?_
    rw [List.idxOf?_eq_some_idxOf hs]
    exact runs_pure _ ⟨rfl, rfl⟩
  subst hq' hpos
  refine runs_modify_bind ?_
  simp only [Bool.false_eq_true, ↓reduceIte]
  exact runs_pure _ rfl

/-- Listing a detached statement at the end of a container. -/
theorem pushStmt_detached {s : StmtId} {c : CntrId} (hpar : (q.stmtNode s).parent = none) :
    Runs (pushStmt c s) q
      (fun _ q' => q' = (q.modifyCntr c fun x => { x with stmts := x.stmts ++ [s] }).modifyStmt s
        fun x => { x with parent := some c }) (fun _ => False) := by
  unfold pushStmt
  refine runs_get_bind ?_
  simp only [hpar, Option.isSome_none]
  exact runs_modify_bind (runs_pure _ rfl)

/-! ### The moving phase -/

/-- The number the next container gets. -/
def freshCntr (p : Procedure) : CntrId := ⟨p.cntrs.size⟩

/-- The number the next statement gets. -/
def freshStmt (p : Procedure) : StmtId := ⟨p.stmts.size⟩

/-- The state after the statements `m` moved, in this order, into a new body at address `a`:
    the body lists them and they name it, the containers they left no longer list them, and
    nothing else changed. -/
structure Moved (p : Procedure) (a : UInt64) (m : List StmtId) (q : Procedure) : Prop where
  exprs : q.exprs = p.exprs
  blocks : q.blocks = p.blocks
  entry : q.entry = p.entry
  size : q.stmts.size = p.stmts.size
  cntrsSize : q.cntrs.size = p.cntrs.size + 1
  body : q.cntr? p.freshCntr = some { address := a, stmts := m }
  cntr : ∀ c, c ≠ p.freshCntr →
    q.cntr? c = (p.cntr? c).map fun ct => { ct with stmts := ct.stmts.filter (· ∉ m) }
  stmt : ∀ s, q.stmt? s =
    (p.stmt? s).map fun st => if s ∈ m then { st with parent := some p.freshCntr } else st

theorem freshCntr_ne_of_cntr? {c : CntrId} {ct : Container} (h : p.cntr? c = some ct) :
    c ≠ p.freshCntr := fun hc => by
  have := index_lt_of_cntr? h
  rw [hc, freshCntr] at this
  exact Nat.lt_irrefl _ this

@[simp]
theorem cntr?_freshCntr : p.cntr? p.freshCntr = none := by
  simp [cntr?, freshCntr]

@[simp]
theorem stmt?_freshStmt : p.stmt? p.freshStmt = none := by
  simp [stmt?, freshStmt]

theorem WellFormed.nodup_stmts (hp : p.WellFormed) (c : CntrId) : (p.cntrNode c).stmts.Nodup := by
  refine List.nodup_iff_count_le_one.2 fun s => ?_
  by_cases hs : s ∈ (p.cntrNode c).stmts
  · obtain ⟨st, hst, hc⟩ := hp.parent_of_mem hs
    obtain ⟨ct, hct, hcount⟩ := hp.once hst hc
    rw [cntrNode_of_cntr? hct, hcount]
  · rw [List.count_eq_zero_of_not_mem hs]
    exact Nat.zero_le 1

/-- A new container starts the moving phase, with nothing moved. -/
theorem moved_newContainer (a : UInt64) :
    p.Moved a [] { p with cntrs := p.cntrs.push (some { address := a }) } where
  exprs := rfl
  blocks := rfl
  entry := rfl
  size := rfl
  cntrsSize := Array.size_push _
  body := by simp [freshCntr]
  cntr c hc := by
    rw [cntr?_push, if_neg fun h => hc (by cases c; simp_all [freshCntr])]
    cases p.cntr? c <;> simp
  stmt s := by
    change p.stmt? s = _
    cases p.stmt? s <;> simp

namespace Moved

variable {a : UInt64} {m : List StmtId}

theorem cntrNode (h : p.Moved a m q) {c : CntrId} (hc : c ≠ p.freshCntr) :
    (q.cntrNode c).stmts = (p.cntrNode c).stmts.filter (· ∉ m) := by
  rw [Procedure.cntrNode, Procedure.cntrNode, h.cntr c hc]
  cases p.cntr? c <;> simp

theorem stmtNode_of_not_mem (h : p.Moved a m q) {s : StmtId} (hs : s ∉ m) :
    q.stmtNode s = p.stmtNode s := by
  rw [Procedure.stmtNode, Procedure.stmtNode, h.stmt s]
  cases p.stmt? s <;> simp [hs]

/-- Moving one more statement, listed by container `c`, keeps the description. -/
theorem step (h : p.Moved a m q) (hp : p.WellFormed) {s : StmtId} {c : CntrId}
    (hs : s ∈ (p.cntrNode c).stmts) (hsm : s ∉ m) (hc : c ≠ p.freshCntr) :
    Runs (pluckStmt s false) q (fun _ q' => Runs (pushStmt p.freshCntr s) q'
      (fun _ q'' => p.Moved a (m ++ [s]) q'') (fun _ => False)) (fun _ => False) := by
  obtain ⟨st, hst, hpar⟩ := hp.parent_of_mem hs
  have hqs : q.stmt? s = some st := by rw [h.stmt s, hst]; simp [hsm]
  have hqs' : s ∈ (q.cntrNode c).stmts := by
    rw [h.cntrNode hc]
    exact List.mem_filter.2 ⟨hs, by simpa using hsm⟩
  refine runs_mono (pluckStmt_attached (by rw [stmtNode_of_stmt? hqs, hpar]) hqs')
    (fun _ q' hq' => ?_) fun _ h => h
  subst hq'
  refine runs_mono (pushStmt_detached (by simp [Procedure.stmtNode, hqs])) (fun _ q'' hq'' => ?_)
    fun _ h => h
  subst hq''
  have hnd := hp.nodup_stmts c
  -- the statement leaves `c` only, since no other container lists it
  have hother : ∀ d, s ∈ (p.cntrNode d).stmts → d = c := fun d hd => hp.eq_of_mem hd hs
  refine ⟨h.exprs, h.blocks, h.entry, by simp [modifyStmt, modifyCntr, h.size],
    by simp [modifyStmt, modifyCntr, h.cntrsSize], ?_, fun d hd => ?_, fun t => ?_⟩
  · simp [Ne.symm hc, h.body]
  · simp only [cntr?_modifyStmt, cntr?_modifyCntr, if_neg hd]
    rw [h.cntr d hd]
    by_cases hdc : d = c
    · subst hdc
      rw [if_pos rfl, h.cntrNode hd]
      cases hct : p.cntr? d with
      | none => rfl
      | some ct =>
        rw [cntrNode_of_cntr? hct] at hnd ⊢
        simp only [Option.map_some, Option.some.injEq]
        rw [List.eraseIdx_idxOf_eq_erase, (hnd.filter _).erase_eq_filter, List.filter_filter]
        congr 2
        funext x
        by_cases hx : x = s <;> simp [hx]
    · rw [if_neg hdc]
      cases hct : p.cntr? d with
      | none => rfl
      | some ct =>
        have hsd : s ∉ ct.stmts := fun hsd => hdc (hother d (by rwa [cntrNode_of_cntr? hct]))
        have hf : ct.stmts.filter (· ∉ m) = ct.stmts.filter (· ∉ m ++ [s]) :=
          List.filter_congr fun x hx => by
            have hxs : x ≠ s := fun hxs => hsd (hxs ▸ hx)
            simp [hxs]
        simp only [Option.map_some, hf]
  · simp only [stmt?_modifyStmt, stmt?_modifyCntr]
    by_cases hts : t = s
    · subst hts
      simp [hqs, hst, hsm]
    · rw [if_neg hts, if_neg hts, h.stmt t]
      simp [hts]

end Moved

/-! ### Deleting expressions -/

/-- An edit that changes only the expressions. -/
structure ExprsOnly (p q : Procedure) : Prop where
  stmts : q.stmts = p.stmts
  cntrs : q.cntrs = p.cntrs
  blocks : q.blocks = p.blocks
  entry : q.entry = p.entry

namespace ExprsOnly

theorem refl (p : Procedure) : p.ExprsOnly p := ⟨rfl, rfl, rfl, rfl⟩

theorem trans {r : Procedure} (h₁ : p.ExprsOnly q) (h₂ : q.ExprsOnly r) : p.ExprsOnly r :=
  ⟨h₂.stmts.trans h₁.stmts, h₂.cntrs.trans h₁.cntrs, h₂.blocks.trans h₁.blocks,
    h₂.entry.trans h₁.entry⟩

theorem stmt? (h : p.ExprsOnly q) (s : StmtId) : q.stmt? s = p.stmt? s := by
  simp only [Procedure.stmt?, h.stmts]

theorem cntr? (h : p.ExprsOnly q) (c : CntrId) : q.cntr? c = p.cntr? c := by
  simp only [Procedure.cntr?, h.cntrs]

end ExprsOnly

theorem exprsOnly_modifyExpr (e : ExprId) (f : ExprNode → ExprNode) :
    p.ExprsOnly (p.modifyExpr e f) := ⟨rfl, rfl, rfl, rfl⟩

theorem exprsOnly_foldl_modifyExpr (l : List ExprId) (f : ExprNode → ExprNode) :
    p.ExprsOnly (l.foldl (fun p e => p.modifyExpr e f) p) := by
  induction l generalizing p with
  | nil => exact .refl p
  | cons e l ih => exact (exprsOnly_modifyExpr e f).trans ih

theorem exprsOnly_dropExpr (n : ExprId) : p.ExprsOnly (p.dropExpr n) := by
  unfold dropExpr
  split
  · exact .refl p
  · dsimp only
    have h₁ : p.ExprsOnly { p with exprs := p.exprs.modify n.index fun _ => none } :=
      ⟨rfl, rfl, rfl, rfl⟩
    split <;> split
    all_goals first
      | exact h₁.trans ((exprsOnly_modifyExpr _ _).trans (exprsOnly_foldl_modifyExpr _ _))
      | exact h₁.trans (exprsOnly_modifyExpr _ _)
      | exact h₁.trans (exprsOnly_foldl_modifyExpr _ _)
      | exact h₁

theorem exprsOnly_foldl_dropExpr (ns : List ExprId) : p.ExprsOnly (ns.foldl dropExpr p) := by
  induction ns generalizing p with
  | nil => exact .refl p
  | cons n ns ih => exact (exprsOnly_dropExpr n).trans ih

/-- A node gone stays gone. -/
theorem expr?_foldl_dropExpr_of_none (ns : List ExprId) {m : ExprId} (hm : p.expr? m = none) :
    (ns.foldl dropExpr p).expr? m = none := by
  induction ns generalizing p with
  | nil => exact hm
  | cons n ns ih => exact ih (expr?_dropExpr_of_none n hm)

theorem expr?_foldl_dropExpr_of_mem {ns : List ExprId} {m : ExprId} (hm : m ∈ ns) :
    (ns.foldl dropExpr p).expr? m = none := by
  induction ns generalizing p with
  | nil => simp at hm
  | cons n ns ih =>
    rw [List.foldl_cons]
    by_cases hmn : m ∈ ns
    · exact ih hmn
    · obtain rfl : m = n := (List.mem_cons.1 hm).resolve_right hmn
      exact expr?_foldl_dropExpr_of_none ns (expr?_dropExpr_self m)

/-- A node still there after deleting a list of nodes was there before, with its operands and
    its parent. -/
theorem expr?_foldl_dropExpr_eq_some {ns : List ExprId} {m : ExprId} {z' : ExprNode}
    (h : (ns.foldl dropExpr p).expr? m = some z') :
    m ∉ ns ∧ ∃ z, p.expr? m = some z ∧ z'.operands = z.operands ∧ z'.parent = z.parent := by
  induction ns generalizing p with
  | nil => exact ⟨List.not_mem_nil, z', h, rfl, rfl⟩
  | cons n ns ih =>
    rw [List.foldl_cons] at h
    obtain ⟨hm, z₁, hz₁, ho₁, hp₁⟩ := ih h
    cases hn : p.expr? n with
    | none =>
      rw [show p.dropExpr n = p by simp [dropExpr, hn]] at hz₁
      have hmn : m ≠ n := fun hmn => by rw [hmn, hn] at hz₁; cases hz₁
      exact ⟨by simp [hm, hmn], z₁, hz₁, ho₁, hp₁⟩
    | some x =>
      obtain ⟨hmn, z, hz, -, ho, hpar, -⟩ := expr?_dropExpr_eq_some hn hz₁
      exact ⟨by simp [hm, hmn], z, hz, ho₁.trans ho, hp₁.trans hpar⟩

/-- A node gone after deleting a list of nodes was gone before or is on the list. -/
theorem expr?_foldl_dropExpr_eq_none {ns : List ExprId} {m : ExprId}
    (h : (ns.foldl dropExpr p).expr? m = none) : p.expr? m = none ∨ m ∈ ns := by
  induction ns generalizing p with
  | nil => exact .inl h
  | cons n ns ih =>
    rw [List.foldl_cons] at h
    rcases ih h with h' | h'
    · cases hn : p.expr? n with
      | none => exact .inl (by simpa [dropExpr, hn] using h')
      | some x =>
        rw [expr?_dropExpr hn] at h'
        split at h'
        · exact .inr (List.mem_cons.2 (.inl ‹_›))
        · exact .inl (Option.map_eq_none_iff.1 h')
    · exact .inr (List.mem_cons_of_mem _ h')

/-! ### Subtrees of expressions -/

/-- Going down from an expression below `x` stays below `x`. -/
theorem Below.trans {x w o : ExprId} (h₁ : p.Below x w) (h₂ : p.Below w o) : p.Below x o := by
  induction h₂ with
  | refl => exact h₁
  | operand _ ho ih => exact .operand ih ho

/-- Each node of a post-order walk from `x` is below `x`, and it is `x` or an operand of a
    node of the walk. -/
theorem mem_postOrder_go {n : Nat} {x o : ExprId} (h : o ∈ postOrder.go p n x []) :
    p.Below x o ∧ (o = x ∨ ∃ w ∈ postOrder.go p n x [], o ∈ (p.node w).operands) := by
  induction n generalizing x with
  | zero => simp [postOrder.go] at h
  | succ n ih =>
    rw [postOrder_go_succ] at h ⊢
    rcases List.mem_append.1 h with h | h
    · obtain ⟨y, hy, ho⟩ := List.mem_flatMap.1 h
      obtain ⟨hbelow, hy'⟩ := ih ho
      refine ⟨(Below.operand .refl hy).trans hbelow, .inr ?_⟩
      rcases hy' with rfl | ⟨w, hw, how⟩
      · exact ⟨x, by simp, hy⟩
      · exact ⟨w, List.mem_append_left _ (List.mem_flatMap.2 ⟨y, hy, hw⟩), how⟩
    · obtain rfl := List.mem_singleton.1 h
      exact ⟨.refl, .inl rfl⟩

/-- What is below `x` after edits that only drop operands was below it before. -/
theorem Below.of_operands {x o : ExprId}
    (hops : ∀ w o, o ∈ (q.node w).operands → o ∈ (p.node w).operands) (h : q.Below x o) :
    p.Below x o := by
  induction h with
  | refl => exact .refl
  | operand _ ho ih => exact .operand ih (hops _ _ ho)

/-- Deleting a detached expression deletes its subtree, walked in post-order. -/
theorem discardExpr_detached {e : ExprId} (he : (q.node e).parent = none) :
    Runs (discardExpr e) q
      (fun _ q' => q' = if q.isLive e then (q.postOrder e).foldl dropExpr q else q)
      (fun _ => False) := by
  unfold discardExpr
  refine runs_get_bind ?_
  by_cases hl : q.isLive e
  · simp only [hl, Bool.not_true, Bool.false_eq_true, ↓reduceIte, he, Option.isSome_none]
    exact runs_get_bind (runs_modify (by simp))
  · simp only [hl, Bool.not_false, ↓reduceIte]
    exact runs_pure _ (by simp)

/-- The state `q` after the expressions `ds` of `p` were detached and deleted with their
    subtrees: only expressions changed; the roots are gone; a node left has its operands and
    parent; and a node gone is below a root, and is a root or an operand of a node gone. -/
structure Dropped (p : Procedure) (ds : List ExprId) (q : Procedure) : Prop where
  frame : p.ExprsOnly q
  roots : ∀ e ∈ ds, q.expr? e = none
  kept : ∀ e x', q.expr? e = some x' →
    ∃ x, p.expr? e = some x ∧ x'.operands = x.operands ∧ x'.parent = x.parent
  gone : ∀ e, p.isLive e = true → q.expr? e = none → (∃ x ∈ ds, p.Below x e) ∧
    (e ∈ ds ∨ ∃ w, p.isLive w = true ∧ q.expr? w = none ∧ e ∈ (p.node w).operands)

namespace Dropped

variable {ds : List ExprId}

theorem nil (p : Procedure) : p.Dropped [] p where
  frame := .refl p
  roots := by simp
  kept e x' h := ⟨x', h, rfl, rfl⟩
  gone e he h := by simp [isLive, h] at he

theorem operands (h : p.Dropped ds q) {w o : ExprId} (ho : o ∈ (q.node w).operands) :
    o ∈ (p.node w).operands := by
  cases hw : q.expr? w with
  | none => simp [node_of_expr?_eq_none q hw] at ho
  | some x' =>
    obtain ⟨x, hx, hops, -⟩ := h.kept w x' hw
    rwa [node_of_expr? q hw, hops, ← node_of_expr? p hx] at ho

/-- One more root detached and deleted. -/
theorem step (h : p.Dropped ds q) (e : ExprId) :
    Runs (discardExpr e) (q.modifyExpr e fun x => { x with parent := none })
      (fun _ q' => p.Dropped (ds ++ [e]) q') (fun _ => False) := by
  have hdet : ((q.modifyExpr e fun x => { x with parent := none }).node e).parent = none := by
    simp only [node, expr?_modifyExpr]
    cases q.expr? e <;> rfl
  refine runs_mono (discardExpr_detached hdet) (fun _ q' hq' => ?_) fun _ h => h
  subst hq'
  set q₁ := q.modifyExpr e fun x => { x with parent := none }
  -- the first change only clears the root's parent
  have hq₁ : ∀ m, q₁.expr? m = none ↔ q.expr? m = none := fun m => by
    simp only [q₁, expr?_modifyExpr]
    split <;> simp
  have hkept₁ : ∀ m z', q₁.expr? m = some z' → m ≠ e → q.expr? m = some z' := fun m z' hm hme => by
    simpa [q₁, hme] using hm
  split
  · next hl =>
    set nodes := q₁.postOrder e
    have he : e ∈ nodes := mem_postOrder_self q₁ e
    refine ⟨h.frame.trans ((exprsOnly_modifyExpr _ _).trans (exprsOnly_foldl_dropExpr _)),
      fun d hd => ?_, fun m z' hm => ?_, fun m hm hgone => ?_⟩
    · rcases List.mem_append.1 hd with hd | hd
      · exact expr?_foldl_dropExpr_of_none _ ((hq₁ d).2 (h.roots d hd))
      · obtain rfl := List.mem_singleton.1 hd
        exact expr?_foldl_dropExpr_of_mem he
    · obtain ⟨hmn, z, hz, hops, hpar⟩ := expr?_foldl_dropExpr_eq_some hm
      obtain ⟨x, hx, hops', hpar'⟩ := h.kept m z (hkept₁ m z hz fun hme => hmn (hme ▸ he))
      exact ⟨x, hx, hops.trans hops', hpar.trans hpar'⟩
    · rcases expr?_foldl_dropExpr_eq_none hgone with hgone₁ | hmem
      · -- gone before this root
        obtain ⟨⟨x, hx, hb⟩, hw⟩ := h.gone m hm ((hq₁ m).1 hgone₁)
        refine ⟨⟨x, List.mem_append_left _ hx, hb⟩, ?_⟩
        rcases hw with hw | ⟨w, hwl, hwq, hwo⟩
        · exact .inl (List.mem_append_left _ hw)
        · exact .inr ⟨w, hwl, expr?_foldl_dropExpr_of_none _ ((hq₁ w).2 hwq), hwo⟩
      · -- gone with this root: below it, and the root or an operand of a node of its walk
        have hops₁ : ∀ w o, o ∈ (q₁.node w).operands → o ∈ (p.node w).operands := fun w o ho =>
          h.operands (by simpa [q₁, node, expr?_modifyExpr] using (by
            cases hw : q.expr? w <;> by_cases hwe : w = e <;>
              simp_all [q₁, node, expr?_modifyExpr] : o ∈ (q.node w).operands))
        obtain ⟨hb, hwalk⟩ := mem_postOrder_go hmem
        refine ⟨⟨e, by simp, hb.of_operands hops₁⟩, ?_⟩
        rcases hwalk with rfl | ⟨w, hw, hwo⟩
        · exact .inl (by simp)
        · have hwl : q₁.isLive w = true := by
            cases hw₁ : q₁.expr? w with
            | none => simp [node_of_expr?_eq_none q₁ hw₁] at hwo
            | some _ => simp [isLive, hw₁]
          have hwq : q.isLive w = true := by
            cases hw' : q.expr? w with
            | none => simp [isLive, (hq₁ w).2 hw'] at hwl
            | some _ => simp [isLive, hw']
          obtain ⟨z₀, hz₀⟩ := Option.isSome_iff_exists.1 hwq
          obtain ⟨x, hx, -⟩ := h.kept w z₀ hz₀
          exact .inr ⟨w, by simp [isLive, hx], expr?_foldl_dropExpr_of_mem hw, hops₁ w m hwo⟩
  · next hl =>
    -- a root already gone: nothing happens but the change of no node
    have hdead : q.expr? e = none := by
      simpa [isLive, q₁, expr?_modifyExpr] using hl
    refine ⟨h.frame.trans (exprsOnly_modifyExpr _ _), fun d hd => ?_, fun m z' hm => ?_,
      fun m hm hgone => ?_⟩
    · rcases List.mem_append.1 hd with hd | hd
      · exact (hq₁ d).2 (h.roots d hd)
      · obtain rfl := List.mem_singleton.1 hd
        exact (hq₁ d).2 hdead
    · have hme : m ≠ e := fun hme => by rw [hme] at hm; simp [(hq₁ e).2 hdead] at hm
      exact h.kept m z' (hkept₁ m z' hm hme)
    · obtain ⟨⟨x, hx, hb⟩, hw⟩ := h.gone m hm ((hq₁ m).1 hgone)
      refine ⟨⟨x, List.mem_append_left _ hx, hb⟩, ?_⟩
      rcases hw with hw | ⟨w, hwl, hwq, hwo⟩
      · exact .inl (List.mem_append_left _ hw)
      · exact .inr ⟨w, hwl, (hq₁ w).2 hwq, hwo⟩

end Dropped

/-- Deleting a detached statement that owns no body: its slot is emptied, and its expressions
    are detached and deleted with their subtrees. -/
theorem discardStmt_childless {s : StmtId} {st : Stmt} (hst : q.stmt? s = some st)
    (hch : st.children = []) :
    Runs (discardStmt s) q
      (fun _ q' => Dropped { q with stmts := q.stmts.modify s.index fun _ => none } st.exprs q')
      (fun _ => False) := by
  unfold discardStmt
  refine runs_get_bind ?_
  rw [nestingBound, discardStmt.go]
  refine runs_get_bind ?_
  simp only [hst, hch]
  refine runs_modify_bind (runs_bind (runs_forIn_done
    (fun pre _ q' => Dropped { q with stmts := q.stmts.modify s.index fun _ => none } pre q')
    (Dropped.nil _) fun l₁ e l₂ _ _ q' hq' => ?_) fun _ q' hq' => ?_)
  · exact runs_modify_bind (runs_bind (hq'.step e) fun _ q'' h'' => runs_pure _ ⟨_, rfl, h''⟩)
  · exact runs_bind (runs_pure _ hq') fun _ _ h => runs_pure _ h

/-- Taking out the first expression of a statement. -/
theorem pluckExpr_head {e : ExprId} {s : StmtId} (hpar : (q.node e).parent = some (.stmt s))
    (hhead : (q.stmtNode s).exprs.head? = some e) :
    Runs (pluckExpr e) q (fun e' q' => e' = e ∧
      q' = (q.modifyStmt s fun x => { x with exprs := x.exprs.eraseIdx 0 }).modifyExpr e
        fun x => { x with parent := none }) (fun _ => False) := by
  have hslot : q.slotOf e = some 0 := by
    obtain ⟨rest, hrest⟩ := List.head?_eq_some_iff.1 hhead
    simp [slotOf, hpar, hrest, List.idxOf?_cons]
  unfold pluckExpr
  refine runs_get_bind ?_
  simp only [hpar, hslot]
  exact runs_set_bind (runs_pure _ ⟨rfl, rfl⟩)

/-- A new constant: a node with no operands at the first free number. -/
theorem val_fresh (v : UInt64) (w : Nat) :
    Runs (val v w) q (fun e q' => e = ⟨q.exprs.size⟩ ∧
      q' = { q with exprs := q.exprs.push (some { kind := .val (v &&& widthMask w) w }) })
      (fun _ => False) :=
  runs_modifyGet ⟨rfl, rfl⟩

/-- A new statement over one expression and one body, which it takes as its own. -/
theorem allocStmt_single (kind : StmtKind) (address : UInt64) (e : ExprId) (c : CntrId) :
    Runs (allocStmt kind address [e] [some c]) q (fun s q' => s = q.freshStmt ∧
      q' = { ((q.modifyExpr e fun x => { x with parent := some (.stmt q.freshStmt) }).modifyCntr c
          fun x => { x with parent := some q.freshStmt }) with
        stmts := q.stmts.push (some { kind, address, exprs := [e], bodies := [some c] }) })
      (fun _ => False) :=
  runs_modifyGet ⟨rfl, rfl⟩

/-- Putting a detached statement in the place of an attached one, which is detached. -/
theorem replaceStmt_attached {old new : StmtId} {c : CntrId}
    (hnew : (q.stmtNode new).parent = none) (hold : (q.stmtNode old).parent = some c)
    (hmem : old ∈ (q.cntrNode c).stmts) :
    Runs (replaceStmt old new) q (fun _ q' => q' =
      ((q.modifyCntr c fun x => { x with stmts := x.stmts.set ((q.cntrNode c).stmts.idxOf old) new
        }).modifyStmt new fun x => { x with parent := some c }).modifyStmt old
          fun x => { x with parent := none }) (fun _ => False) := by
  unfold replaceStmt stmtSlot
  refine runs_get_bind ?_
  simp only [hnew, hold, Option.isSome_none, Bool.false_eq_true, ↓reduceIte]
  refine runs_bind (Q := fun i q' => q' = q ∧ i = (q.cntrNode c).stmts.idxOf old) ?_
    fun pos q' ⟨hq', hpos⟩ => ?_
  · refine runs_get_bind ?_
    rw [List.idxOf?_eq_some_idxOf hmem]
    exact runs_pure _ ⟨rfl, rfl⟩
  subst hq' hpos
  exact runs_modify (rfl)

/-- Deleting a detached statement is discarding it. -/
theorem pluckStmt_detached {s : StmtId} {Q : Unit → Procedure → Prop} {E : Procedure → Prop}
    (hpar : (q.stmtNode s).parent = none) (h : Runs (discardStmt s) q Q E) :
    Runs (pluckStmt s true) q Q E := by
  unfold pluckStmt
  refine runs_get_bind ?_
  simp only [hpar, ↓reduceIte]
  exact h

/-! ### The loop built -/

/-- The containers of the blocks from the head to the latch of a loop. -/
def spanned (p : Procedure) (r : LoopRegion) : List CntrId :=
  (p.blocks.filter fun b => r.head ≤ b.address && b.address ≤ r.latch).map Block.container

/-- The statements moving into the body of a loop: those of the blocks it spans, in order, its
    closing jump aside. -/
def moving (p : Procedure) (r : LoopRegion) : List StmtId :=
  (p.spanned r).flatMap fun c => (p.cntrNode c).stmts.filter (· != r.jump)

end Procedure

namespace LoopRegion

/-- The condition a loop takes over from its closing jump: that of the branch testing a loop
    tested at the start. -/
def test? (r : LoopRegion) (p : Procedure) : Option ExprId :=
  if r.preTested = true ∧ (p.stmtNode r.jump).kind = .branch then (p.stmtNode r.jump).cond?
  else none

/-- The expressions of the closing jump deleted with it: all of them but the condition the loop
    takes over. -/
def dropped (r : LoopRegion) (p : Procedure) : List ExprId :=
  if (r.test? p).isSome then (p.stmtNode r.jump).exprs.tail else (p.stmtNode r.jump).exprs

/-- The kind of the loop built: tested at the start or at the end. -/
def loopKind (r : LoopRegion) : StmtKind := if r.preTested then .whileLoop else .doWhile

variable {r : LoopRegion} {p : Procedure}

/-- The condition taken over is the first expression of the branch, and the others go. -/
theorem test?_eq_some {c : ExprId} (h : r.test? p = some c) :
    (p.stmtNode r.jump).exprs.head? = some c ∧ r.dropped p = (p.stmtNode r.jump).exprs.tail := by
  unfold test? at h
  split at h
  · next hb =>
    refine ⟨by simpa [Stmt.cond?, hb.2, StmtKind.isConditional] using h, ?_⟩
    simp [dropped, test?, hb, h]
  · cases h

theorem dropped_of_test?_eq_none (h : r.test? p = none) :
    r.dropped p = (p.stmtNode r.jump).exprs := by
  simp [dropped, h]

end LoopRegion

namespace Procedure

variable {p q q' : Procedure} {r : LoopRegion}

/-! ### The condition -/

/-- The state `q'` after the condition `cond` of the loop built over `p` was taken from `q`:
    the closing jump keeps only the expressions deleted with it, the condition is a detached
    node, the test's or a new constant, and nothing else changed. -/
structure CondTaken (p : Procedure) (r : LoopRegion) (q : Procedure) (cond : ExprId)
    (q' : Procedure) : Prop where
  cntrs : q'.cntrs = q.cntrs
  blocks : q'.blocks = q.blocks
  entry : q'.entry = q.entry
  size : q'.stmts.size = q.stmts.size
  stmt : ∀ s, q'.stmt? s =
    if s = r.jump then (q.stmt? s).map fun st => { st with exprs := r.dropped p } else q.stmt? s
  expr : ∀ e, e ≠ cond → q'.expr? e = q.expr? e
  cond : ∃ x, q'.expr? cond = some x ∧ x.parent = none ∧
    (r.test? p = some cond ∧ x.operands = (p.node cond).operands ∨
      r.test? p = none ∧ p.expr? cond = none ∧ x.operands = [])

variable {a : UInt64} {m : List StmtId}

/-- A loop tested at the start takes the condition of its test's branch. -/
theorem takeTest (hp : p.WellFormed) (h : p.Moved a m q) (hjm : r.jump ∉ m) {st : Stmt}
    (hst : p.stmt? r.jump = some st) (hpre : r.preTested = true) (hkind : st.kind = .branch)
    {c : ExprId} (hc : st.cond? = some c) :
    Runs (pluckExpr c) q (fun cond q' => p.CondTaken r q cond q') (fun _ => False) := by
  have hqs : q.stmt? r.jump = some st := by rw [h.stmt, hst]; simp [hjm]
  have hhead : st.exprs.head? = some c := by
    simpa [Stmt.cond?, hkind, StmtKind.isConditional] using hc
  obtain ⟨x, hx, hpar⟩ := hp.exprs hst (List.mem_of_mem_head? hhead)
  have hqx : q.expr? c = some x := by simpa [Procedure.expr?, h.exprs] using hx
  have htest : r.test? p = some c := by
    simp [LoopRegion.test?, hpre, stmtNode_of_stmt? hst, hkind, hc]
  have hqpar : (q.node c).parent = some (.stmt r.jump) := by rw [node_of_expr? _ hqx, hpar]
  have hqhead : (q.stmtNode r.jump).exprs.head? = some c := by rw [stmtNode_of_stmt? hqs, hhead]
  refine runs_mono (pluckExpr_head hqpar hqhead) (fun cond q' h' => ?_) fun _ h => h
  obtain ⟨rfl, rfl⟩ := h'
  refine ⟨rfl, rfl, rfl, by simp [modifyExpr, modifyStmt], fun s => ?_, fun e he => ?_,
    ⟨{ x with parent := none }, by simp [hqx], rfl, .inl ⟨htest, by simp [node_of_expr? _ hx]⟩⟩⟩
  · simp only [stmt?_modifyExpr, stmt?_modifyStmt]
    split
    · next hs =>
      subst hs
      simp [hqs, LoopRegion.dropped, htest, stmtNode_of_stmt? hst]
    · rfl
  · simp [he]

/-- Any other loop is tested on a new constant. -/
theorem takeConst (h : p.Moved a m q) (hjm : r.jump ∉ m) (htest : r.test? p = none) :
    Runs (val 1 0) q (fun cond q' => p.CondTaken r q cond q') (fun _ => False) := by
  refine runs_mono (val_fresh 1 0) (fun cond q' ⟨hcond, hq'⟩ => ?_) fun _ h => h
  subst hcond hq'
  refine ⟨rfl, rfl, rfl, rfl, fun s => ?_, fun e he => ?_,
    ⟨{ kind := .val (1 &&& widthMask 0) 0 }, by simp, rfl, .inr ⟨htest, ?_, rfl⟩⟩⟩
  · change q.stmt? s = _
    split
    · next hs =>
      subst hs
      cases hpj : p.stmt? r.jump with
      | none => simp [h.stmt, hpj]
      | some st => simp [h.stmt, hpj, hjm, LoopRegion.dropped, htest, stmtNode_of_stmt? hpj]
    · rfl
  · have hne : e.index ≠ q.exprs.size := fun hi => he (by cases e; simp_all)
    simp [hne]
  · simp [Procedure.expr?, h.exprs]

/-! ### The loop built -/

/-- The state `q` after building the loop `r` over `p`, with condition `cond`. The new body
    lists the moving statements and is owned by the loop; every other container lists what it
    listed, less the moving statements, with the loop in the place of the jump; the loop is a
    new statement in the jump's container, the jump is gone, and every other statement is as
    it was, a moving one naming the new body. The condition is the test taken over or a new
    constant; every other expression left is as it was, and one gone is an expression of the
    jump deleted with it or an operand of one gone. -/
structure LoopBuilt (p : Procedure) (r : LoopRegion) (cond : ExprId) (q : Procedure) : Prop where
  blocks : q.blocks = p.blocks
  entry : q.entry = p.entry
  body : q.cntr? p.freshCntr =
    some { address := r.head, parent := some p.freshStmt, stmts := p.moving r }
  cntr : ∀ c, c ≠ p.freshCntr → q.cntr? c = (p.cntr? c).map fun ct =>
    { ct with
      stmts := (ct.stmts.filter (· ∉ p.moving r)).map fun s =>
        if s = r.jump then p.freshStmt else s }
  loop : q.stmt? p.freshStmt = some
    { kind := r.loopKind, address := (p.stmtNode r.jump).address,
      parent := (p.stmtNode r.jump).parent, exprs := [cond], bodies := [some p.freshCntr] }
  jump : q.stmt? r.jump = none
  stmt : ∀ s, s ≠ r.jump → s ≠ p.freshStmt → q.stmt? s = (p.stmt? s).map fun st =>
    if s ∈ p.moving r then { st with parent := some p.freshCntr } else st
  condNode : ∃ x, q.expr? cond = some x ∧ x.parent = some (.stmt p.freshStmt) ∧
    (r.test? p = some cond ∧ x.operands = (p.node cond).operands ∨
      r.test? p = none ∧ p.expr? cond = none ∧ x.operands = [])
  kept : ∀ e x', q.expr? e = some x' → e ≠ cond →
    ∃ x, p.expr? e = some x ∧ x'.operands = x.operands ∧ x'.parent = x.parent
  gone : ∀ e, p.isLive e = true → q.expr? e = none →
    e ∈ r.dropped p ∨ ∃ w, p.isLive w = true ∧ q.expr? w = none ∧ e ∈ (p.node w).operands

/-- An expression that a statement lists is no operand. -/
theorem WellFormed.not_mem_operands (hp : p.WellFormed) {e : ExprId} {x : ExprNode}
    (hx : p.expr? e = some x) {s : StmtId} (hpar : x.parent = some (.stmt s)) (w : ExprId) :
    e ∉ (p.node w).operands := fun ho => by
  cases hw : p.expr? w with
  | none => simp [node_of_expr?_eq_none p hw] at ho
  | some y =>
    rw [node_of_expr? p hw] at ho
    obtain ⟨z, hz, hzpar⟩ := hp.operands hw ho
    rw [hx] at hz
    cases hz
    simp [hpar] at hzpar

variable {q₂ q₃ : Procedure} {cond : ExprId}

/-- Putting the loop over the body in the place of the closing jump, and deleting the jump with
    the expressions it keeps. -/
theorem swapLoop_built (hp : p.WellFormed) (h₂ : p.Moved r.head (p.moving r) q₂)
    (h₃ : p.CondTaken r q₂ cond q₃) {st : Stmt} (hst : p.stmt? r.jump = some st) {k : CntrId}
    (hpar : st.parent = some k) (hch : st.children = []) (hjm : r.jump ∉ p.moving r) :
    Runs (allocStmt r.loopKind st.address [cond] [some p.freshCntr] >>= fun loop =>
      replaceStmt r.jump loop >>= fun _ => pluckStmt r.jump true) q₃
      (fun _ q => p.LoopBuilt r cond q) (fun _ => False) := by
  have hL : q₃.freshStmt = p.freshStmt := by simp [freshStmt, h₃.size, h₂.size]
  have hjL : r.jump ≠ p.freshStmt := fun h => by
    have := index_lt_of_stmt? hst
    rw [h, freshStmt] at this
    exact Nat.lt_irrefl _ this
  obtain ⟨ck, hck, -⟩ := hp.once hst hpar
  have hkF : k ≠ p.freshCntr := freshCntr_ne_of_cntr? hck
  have hj₂ : q₂.stmt? r.jump = some st := by rw [h₂.stmt, hst]; simp [hjm]
  refine runs_bind (allocStmt_single r.loopKind st.address cond p.freshCntr)
    fun loop q₄ ⟨hloop, hq₄⟩ => ?_
  rw [hL] at hloop hq₄
  subst hloop
  -- the loop statement and its body, after the allocation
  have hs₄ : ∀ t, q₄.stmt? t = if t = p.freshStmt then some
      { kind := r.loopKind, address := st.address, exprs := [cond], bodies := [some p.freshCntr] }
      else q₃.stmt? t := by
    intro t
    have hsize : t.index = q₃.stmts.size ↔ t = p.freshStmt := by
      rw [← hL]
      exact ⟨fun h => by cases t; simp_all [freshStmt], fun h => by simp [h, freshStmt]⟩
    subst hq₄
    simp only [Procedure.stmt?, Array.getElem?_push, ← hsize]
    split <;> simp
  -- the other views are those of the state before the new statement was added
  have hc₄ : ∀ c, q₄.cntr? c = if c = p.freshCntr then (q₃.cntr? c).map
      (fun x => { x with parent := some p.freshStmt }) else q₃.cntr? c := fun c => by
    have : q₄.cntr? c = ((q₃.modifyExpr cond fun x => { x with parent := some (.stmt p.freshStmt) }
        ).modifyCntr p.freshCntr fun x => { x with parent := some p.freshStmt }).cntr? c := by
      subst hq₄
      rfl
    rw [this]
    simp
  have he₄ : ∀ e, q₄.expr? e = if e = cond then (q₃.expr? e).map
      (fun x => { x with parent := some (.stmt p.freshStmt) }) else q₃.expr? e := fun e => by
    have : q₄.expr? e = (q₃.modifyExpr cond fun x =>
        { x with parent := some (.stmt p.freshStmt) }).expr? e := by
      subst hq₄
      rfl
    rw [this]
    simp
  have hb₄ : q₄.blocks = q₂.blocks := by
    subst hq₄
    exact h₃.blocks
  have hn₄ : q₄.entry = q₂.entry := by
    subst hq₄
    exact h₃.entry
  -- the jump, still in its container
  have hj₄ : q₄.stmt? r.jump = some { st with exprs := r.dropped p } := by
    rw [hs₄, if_neg hjL, h₃.stmt, if_pos rfl, hj₂]
    rfl
  have hk₄ : q₄.cntr? k = some { ck with stmts := ck.stmts.filter (· ∉ p.moving r) } := by
    rw [hc₄, if_neg hkF, show q₃.cntr? k = q₂.cntr? k by simp [Procedure.cntr?, h₃.cntrs],
      h₂.cntr k hkF, hck]
    rfl
  have hjk : r.jump ∈ ck.stmts := by
    obtain ⟨ck', hck', hcount⟩ := hp.once hst hpar
    rw [hck] at hck'
    cases hck'
    exact List.count_pos_iff.1 (by omega)
  have hmem₄ : r.jump ∈ (q₄.cntrNode k).stmts := by
    rw [cntrNode_of_cntr? hk₄]
    simp [hjk, hjm]
  refine runs_bind (replaceStmt_attached (by simp [stmtNode, hs₄])
    (by rw [stmtNode_of_stmt? hj₄]; exact hpar) hmem₄) fun _ q₅ hq₅ => ?_
  have hs₅ : ∀ t, q₅.stmt? t = if t = r.jump then (q₄.stmt? t).map
      (fun x => { x with parent := none }) else if t = p.freshStmt then (q₄.stmt? t).map
      (fun x => { x with parent := some k }) else q₄.stmt? t := fun t => by
    rw [hq₅]
    by_cases htj : t = r.jump
    · subst htj
      simp [hjL]
    · simp [htj]
  have hc₅ : ∀ c, q₅.cntr? c = if c = k then (q₄.cntr? c).map (fun x => { x with
      stmts := x.stmts.set ((q₄.cntrNode k).stmts.idxOf r.jump) p.freshStmt }) else q₄.cntr? c :=
    fun c => by simp [hq₅]
  have he₅ : ∀ e, q₅.expr? e = q₄.expr? e := fun e => by simp [hq₅]
  -- the jump, detached, is deleted with the expressions it keeps
  have hj₅ : q₅.stmt? r.jump = some { st with exprs := r.dropped p, parent := none } := by
    simp [hs₅, hj₄]
  refine runs_mono (pluckStmt_detached (by simp [stmtNode, hj₅])
    (discardStmt_childless hj₅ hch)) (fun _ q₆ hd => ?_) fun _ h => h
  have hs₆ : ∀ t, q₆.stmt? t = if t = r.jump then none else q₅.stmt? t := fun t => by
    rw [hd.frame.stmt? t]
    simp
  have hc₆ : ∀ c, q₆.cntr? c = q₅.cntr? c := hd.frame.cntr?
  -- the expressions: the condition is the loop's, every other one is as in `p`
  obtain ⟨x₃, hx₃, -, hx₃cases⟩ := h₃.cond
  have hx₅ : q₅.expr? cond = some { x₃ with parent := some (.stmt p.freshStmt) } := by
    simp [he₅, he₄, hx₃]
  have hother : ∀ e, e ≠ cond → q₅.expr? e = p.expr? e := fun e he => by
    rw [he₅, he₄, if_neg he, h₃.expr e he]
    simp [Procedure.expr?, h₂.exprs]
  -- the condition is no expression the jump keeps, and no operand
  have hnot : cond ∉ r.dropped p ∧ ∀ w, cond ∉ (q₅.node w).operands := by
    rcases hx₃cases with ⟨htest, hops⟩ | ⟨htest, hnone, hops⟩
    · obtain ⟨hhead, hdrop⟩ := LoopRegion.test?_eq_some htest
      rw [stmtNode_of_stmt? hst] at hhead hdrop
      obtain ⟨xc, hxc, hxcpar⟩ := hp.exprs hst (List.mem_of_mem_head? hhead)
      obtain ⟨rest, hrest⟩ := List.head?_eq_some_iff.1 hhead
      have hnd := hp.slots hst
      rw [hrest] at hnd
      refine ⟨by rw [hdrop, hrest]; exact (List.nodup_cons.1 hnd).1, fun w => ?_⟩
      by_cases hw : w = cond
      · subst w
        rw [node_of_expr? _ hx₅, hops]
        exact hp.not_mem_operands hxc hxcpar cond
      · rw [node, hother w hw]
        exact hp.not_mem_operands hxc hxcpar w
    · rw [LoopRegion.dropped_of_test?_eq_none htest, stmtNode_of_stmt? hst]
      refine ⟨fun hc => ?_, fun w hw => ?_⟩
      · obtain ⟨_, hxc, -⟩ := hp.exprs hst hc
        rw [hnone] at hxc
        cases hxc
      · by_cases hwc : w = cond
        · subst w
          rw [node_of_expr? _ hx₅, hops] at hw
          cases hw
        · rw [node, hother w hwc] at hw
          cases hpw : p.expr? w with
          | none => simp [hpw] at hw
          | some y =>
            obtain ⟨_, hy, -⟩ := hp.operands hpw (by simpa [hpw] using hw)
            rw [hnone] at hy
            cases hy
  have hcond₆ : ∃ x, q₆.expr? cond = some x ∧ x.operands = x₃.operands ∧
      x.parent = some (.stmt p.freshStmt) := by
    cases h₆ : q₆.expr? cond with
    | some x =>
      obtain ⟨x₅, hx₅', hops, hpar'⟩ := hd.kept cond x h₆
      change q₅.expr? cond = some x₅ at hx₅'
      rw [hx₅] at hx₅'
      cases hx₅'
      exact ⟨x, rfl, hops, hpar'⟩
    | none =>
      obtain ⟨-, hds | ⟨w, -, -, hw⟩⟩ :=
        hd.gone cond (show q₅.isLive cond = true by simp [isLive, hx₅]) h₆
      · exact absurd hds hnot.1
      · exact absurd hw (hnot.2 w)
  have hq₅p : q₅.blocks = p.blocks ∧ q₅.entry = p.entry := by
    rw [hq₅]
    exact ⟨hb₄.trans h₂.blocks, hn₄.trans h₂.entry⟩
  refine ⟨hd.frame.blocks.trans hq₅p.1, hd.frame.entry.trans hq₅p.2, ?_, fun c hc => ?_, ?_,
    by simp [hs₆], fun t htj htL => ?_, ?_, fun e x' he hec => ?_, fun e he hgone => ?_⟩
  · -- the body
    rw [hc₆, hc₅, if_neg (Ne.symm hkF), hc₄, if_pos rfl,
      show q₃.cntr? p.freshCntr = q₂.cntr? p.freshCntr by simp [Procedure.cntr?, h₃.cntrs],
      h₂.body]
    rfl
  · -- every other container
    rw [hc₆, hc₅, hc₄, if_neg hc,
      show q₃.cntr? c = q₂.cntr? c by simp [Procedure.cntr?, h₃.cntrs], h₂.cntr c hc]
    by_cases hck' : c = k
    · subst hck'
      have hnd : (ck.stmts.filter (· ∉ p.moving r)).Nodup :=
        (by simpa [cntrNode_of_cntr? hck] using hp.nodup_stmts c : ck.stmts.Nodup).filter _
      rw [if_pos rfl, hck, cntrNode_of_cntr? hk₄]
      simp only [Option.map_some]
      rw [List.set_idxOf_eq_map hnd]
    · rw [if_neg hck']
      cases hct : p.cntr? c with
      | none => rfl
      | some ct =>
        -- the jump is listed by its own container only
        have hjc : r.jump ∉ ct.stmts := fun hj => hck' (hp.eq_of_mem
          (by rwa [cntrNode_of_cntr? hct]) (by rwa [cntrNode_of_cntr? hck]))
        simp only [Option.map_some, Option.some.injEq]
        congr 1
        refine (List.map_congr_left fun s hs => ?_).trans (List.map_id _) |>.symm
        have hsj : s ≠ r.jump := fun h => hjc (h ▸ (List.mem_filter.1 hs).1)
        simp [hsj]
  · -- the loop
    rw [hs₆, if_neg (Ne.symm hjL), hs₅, if_neg (Ne.symm hjL), if_pos rfl, hs₄, if_pos rfl,
      stmtNode_of_stmt? hst, hpar]
    rfl
  · -- every other statement
    rw [hs₆, if_neg htj, hs₅, if_neg htj, if_neg htL, hs₄, if_neg htL, h₃.stmt, if_neg htj,
      h₂.stmt]
  · obtain ⟨x, hx, hops, hpar'⟩ := hcond₆
    exact ⟨x, hx, hpar', hx₃cases.imp (fun h => ⟨h.1, hops.trans h.2⟩)
      fun h => ⟨h.1, h.2.1, hops.trans h.2.2⟩⟩
  · obtain ⟨x, hx, hops, hpar'⟩ := hd.kept e x' he
    exact ⟨x, (hother e hec).symm.trans hx, hops, hpar'⟩
  · have hec : e ≠ cond := fun h => by
      obtain ⟨x, hx, -⟩ := hcond₆
      rw [← h, hgone] at hx
      cases hx
    obtain ⟨-, hds | ⟨w, hwl, hwg, hw⟩⟩ :=
      hd.gone e (show q₅.isLive e = true by simpa [isLive, hother e hec] using he) hgone
    · exact .inl hds
    · have hwc : w ≠ cond := fun h => by
        obtain ⟨x, hx, -⟩ := hcond₆
        rw [← h, hwg] at hx
        cases hx
      refine .inr ⟨w, ?_, hwg, ?_⟩
      · change q₅.isLive w = true at hwl
        simpa [isLive, hother w hwc] using hwl
      · change e ∈ (q₅.node w).operands at hw
        rwa [node, hother w hwc] at hw

/-- Building a loop whose closing jump is a listed jump: the statements of the spanned
    containers move into a new body, and a loop over it takes the jump's place. -/
theorem buildLoop_built (hp : p.WellFormed) {k : CntrId} (hj : r.jump ∈ (p.cntrNode k).stmts)
    (hjump : (p.stmtNode r.jump).kind.isJump = true) :
    Runs (buildLoop r) p (fun _ q => ∃ cond, p.LoopBuilt r cond q) (fun _ => False) := by
  obtain ⟨st, hst, hpar⟩ := hp.parent_of_mem hj
  rw [stmtNode_of_stmt? hst] at hjump
  have hch : st.children = [] := hp.jumps hst hjump
  have hjm : r.jump ∉ p.moving r := by simp [moving]
  -- the spanned containers are live, and each is spanned once
  have hspan : ∀ c ∈ p.spanned r, c ≠ p.freshCntr := by
    intro c hc
    obtain ⟨b, hb, rfl⟩ := List.mem_map.1 hc
    obtain ⟨ct, hct, -⟩ := hp.roots b (List.mem_filter.1 hb).1
    exact freshCntr_ne_of_cntr? hct
  have hnodup : (p.spanned r).Nodup := hp.distinct.sublist (List.filter_sublist.map _)
  unfold buildLoop
  refine runs_bind (runs_modifyGet (Q := fun c q => c = p.freshCntr ∧ p.Moved r.head [] q)
    ⟨rfl, moved_newContainer r.head⟩) fun body q₁ ⟨hbody, h₁⟩ => ?_
  subst hbody
  refine runs_get_bind (runs_bind (Q := fun _ q₂ => p.Moved r.head (p.moving r) q₂) ?_
    fun _ q₂ h₂ => ?_)
  · -- container after container, the statements move into the body, the jump aside
    rw [h₁.blocks]
    refine runs_forIn_done (fun cs _ q => p.Moved r.head
      (cs.flatMap fun c => (p.cntrNode c).stmts.filter (· != r.jump)) q) h₁
      fun cs₁ c cs₂ hcs _ q hq => runs_get_bind ?_
    have hspanned : p.spanned r = cs₁ ++ c :: cs₂ := hcs
    have hcF : c ≠ p.freshCntr := hspan c (by simp [hspanned])
    have hcs₁ : c ∉ cs₁ := fun h =>
      (List.nodup_append.1 (hspanned ▸ hnodup)).2.2 c h c List.mem_cons_self rfl
    -- no statement of `c` moved yet
    have hfresh : ∀ s ∈ (p.cntrNode c).stmts,
        s ∉ cs₁.flatMap fun c => (p.cntrNode c).stmts.filter (· != r.jump) := fun s hs hm => by
      obtain ⟨c', hc', hs'⟩ := List.mem_flatMap.1 hm
      exact hcs₁ (hp.eq_of_mem (List.mem_filter.1 hs').1 hs ▸ hc')
    have hsame : (q.cntrNode c).stmts = (p.cntrNode c).stmts := by
      rw [hq.cntrNode hcF]
      exact List.filter_eq_self.2 fun s hs => by simpa using hfresh s hs
    rw [hsame]
    refine runs_bind (runs_forIn_done (fun ss _ q' => p.Moved r.head
      ((cs₁.flatMap fun c => (p.cntrNode c).stmts.filter (· != r.jump)) ++
        ss.filter (· != r.jump)) q') (by simpa using hq) fun ss₁ s ss₂ hss _ q' hq' => ?_)
      fun _ q'' h'' => runs_pure _ ⟨_, rfl, by simpa using h''⟩
    have hs : s ∈ (p.cntrNode c).stmts := by simp [hss]
    split
    · next hsj =>
      have hsm : s ∉ (cs₁.flatMap fun c => (p.cntrNode c).stmts.filter (· != r.jump)) ++
          ss₁.filter (· != r.jump) := by
        have hnd := hp.nodup_stmts c
        rw [hss] at hnd
        simp only [List.mem_append, not_or]
        exact ⟨hfresh s hs, fun h =>
          (List.nodup_append.1 hnd).2.2 s (List.mem_filter.1 h).1 s List.mem_cons_self rfl⟩
      exact runs_bind (hq'.step hp hs hsm hcF) fun _ _ h => runs_bind h fun _ _ h' =>
        runs_pure _ ⟨_, rfl, by simpa [hsj] using h'⟩
    · next hsj => exact runs_pure _ ⟨_, rfl, by simpa [hsj] using hq'⟩
  -- the loop, over the condition taken from the jump or a constant, replaces the jump
  have hq₂j : q₂.stmtNode r.jump = st := by
    rw [h₂.stmtNode_of_not_mem hjm, stmtNode_of_stmt? hst]
  have hclose : ∀ cond q₃, p.CondTaken r q₂ cond q₃ →
      Runs (if r.preTested = true then
          whileStmt st.address cond p.freshCntr >>= fun loop =>
            replaceStmt r.jump loop >>= fun _ => pluckStmt r.jump true
        else doWhile st.address cond p.freshCntr >>= fun loop =>
            replaceStmt r.jump loop >>= fun _ => pluckStmt r.jump true) q₃
        (fun _ q => ∃ cond, p.LoopBuilt r cond q) (fun _ => False) := by
    intro cond q₃ h₃
    have h := runs_mono (swapLoop_built hp h₂ h₃ hst hpar hch hjm)
      (fun _ q hq => (⟨cond, hq⟩ : ∃ cond, p.LoopBuilt r cond q)) fun _ h => h
    split
    · next hpre =>
      rw [show r.loopKind = .whileLoop by simp [LoopRegion.loopKind, hpre]] at h
      exact h
    · next hpre =>
      rw [show r.loopKind = .doWhile by simp [LoopRegion.loopKind, hpre]] at h
      exact h
  refine runs_get_bind ?_
  dsimp only
  rw [hq₂j]
  split
  · next c hpre hkind hc =>
    exact runs_bind (takeTest hp h₂ hjm hst hpre hkind hc) hclose
  · next hnot =>
    have htest : r.test? p = none := by
      unfold LoopRegion.test?
      rw [stmtNode_of_stmt? hst]
      split
      · next hb =>
        cases hc : st.cond? with
        | none => rfl
        | some c => exact absurd (hnot c hb.1 hb.2 hc) id
      · rfl
    exact runs_bind (takeConst h₂ hjm htest) hclose

end Procedure

end Decompilation
