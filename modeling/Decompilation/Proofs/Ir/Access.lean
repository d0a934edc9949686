import Decompilation.Ir.DefUse

/-!
# Reading a procedure after an edit

Every edit of a procedure changes its slots through a few primitives: changing one live node
(`modifyExpr`, `modifyStmt`, `modifyCntr`), adding a node at the end of its slots, and emptying
a slot. These lemmas say what each primitive does to the lookups `expr?`, `stmt?` and
`cntr?`, so that later proofs read a procedure after an edit without unfolding either.

* `expr?_modifyExpr`, `expr?_push`, `expr?_clear`: the expression lookups;
* `stmt?_modifyStmt`, `stmt?_push`, `stmt?_clear`: the statement lookups;
* `mem_liveExprs`, `mem_defs`: the live expressions and the registered definitions.
-/

namespace Decompilation

namespace ExprId

theorem ext_iff' {a b : ExprId} : a = b ↔ a.index = b.index := by
  cases a; cases b; simp

end ExprId

@[simp]
theorem ExprNode.operands_default : (default : ExprNode).operands = [] := rfl

@[simp]
theorem ExprNode.defLink_default : (default : ExprNode).defLink = none := rfl

@[simp]
theorem ExprNode.parent_default : (default : ExprNode).parent = none := rfl

namespace Procedure

variable (p : Procedure)

/-! ### Expressions -/

@[simp]
theorem expr?_modifyExpr (e d : ExprId) (f : ExprNode → ExprNode) :
    (p.modifyExpr e f).expr? d = if d = e then (p.expr? d).map f else p.expr? d := by
  simp only [expr?, modifyExpr, Array.getElem?_modify, ExprId.ext_iff']
  split <;> rename_i h
  · rw [if_pos h.symm]
    cases p.exprs[d.index]? <;> simp
  · rw [if_neg (Ne.symm h)]

@[simp]
theorem expr?_modifyStmt (s : StmtId) (f : Stmt → Stmt) (d : ExprId) :
    (p.modifyStmt s f).expr? d = p.expr? d := rfl

@[simp]
theorem expr?_modifyCntr (c : CntrId) (f : Container → Container) (d : ExprId) :
    (p.modifyCntr c f).expr? d = p.expr? d := rfl

/-- A live expression after a change is one that was live before, changed if it is the
    one changed. -/
theorem expr?_modifyExpr_eq_some {e d : ExprId} {f : ExprNode → ExprNode} {x : ExprNode} :
    (p.modifyExpr e f).expr? d = some x ↔
      ∃ x₀, p.expr? d = some x₀ ∧ (if d = e then f x₀ else x₀) = x := by
  rw [expr?_modifyExpr]
  split <;> simp

/-- A change that keeps a view of the nodes keeps it for every live expression. -/
theorem expr?_modifyExpr_view {β : Type} (view : ExprNode → β) {e d : ExprId}
    {f : ExprNode → ExprNode} {x : ExprNode} (h : (p.modifyExpr e f).expr? d = some x)
    (hf : ∀ x, view (f x) = view x) : ∃ x₀, p.expr? d = some x₀ ∧ view x = view x₀ := by
  obtain ⟨x₀, hx₀, rfl⟩ := (expr?_modifyExpr_eq_some p).1 h
  exact ⟨x₀, hx₀, by split <;> simp [hf]⟩

/-- Changing several expressions in the same way, when doing it twice is doing it once. -/
theorem expr?_foldl_modifyExpr (l : List ExprId) (f : ExprNode → ExprNode)
    (hf : ∀ x, f (f x) = f x) (d : ExprId) :
    (l.foldl (fun p e => p.modifyExpr e f) p).expr? d =
      if d ∈ l then (p.expr? d).map f else p.expr? d := by
  induction l generalizing p with
  | nil => simp
  | cons e l ih =>
    rw [List.foldl_cons, ih, expr?_modifyExpr]
    by_cases hde : d = e
    · subst hde
      cases p.expr? d <;> simp [hf]
    · simp [hde]

/-- Cutting the links of several readers. -/
@[simp]
theorem expr?_foldl_unlink (l : List ExprId) (d : ExprId) :
    (l.foldl (fun p u => p.modifyExpr u fun y => { y with defLink := none }) p).expr? d =
      if d ∈ l then (p.expr? d).map (fun y => { y with defLink := none }) else p.expr? d :=
  expr?_foldl_modifyExpr p l (fun y => { y with defLink := none }) (fun _ => rfl) d

/-- A node added at the end of the slots gets the first free number. -/
@[simp]
theorem expr?_push (n : ExprNode) (d : ExprId) :
    ({ p with exprs := p.exprs.push (some n) } : Procedure).expr? d =
      if d.index = p.exprs.size then some n else p.expr? d := by
  simp only [expr?, Array.getElem?_push]
  split <;> simp

/-- An emptied slot holds no node. -/
@[simp]
theorem expr?_clear (e d : ExprId) :
    ({ p with exprs := p.exprs.modify e.index fun _ => none } : Procedure).expr? d =
      if d = e then none else p.expr? d := by
  simp only [expr?, Array.getElem?_modify, ExprId.ext_iff']
  split <;> rename_i h
  · rw [if_pos h.symm]
    cases p.exprs[d.index]? <;> simp
  · rw [if_neg (Ne.symm h)]

/-- A live expression has a slot. -/
theorem index_lt_of_expr? {e : ExprId} {x : ExprNode} (h : p.expr? e = some x) :
    e.index < p.exprs.size := by
  rcases Nat.lt_or_ge e.index p.exprs.size with hlt | hge
  · exact hlt
  · simp [expr?, Array.getElem?_eq_none hge] at h

/-- The node of a number that is not live is the placeholder, which lists nothing and reads
    nothing. -/
@[simp]
theorem node_of_expr?_eq_none {e : ExprId} (h : p.expr? e = none) : p.node e = default := by
  simp [node, h]

/-- The node of a live expression. -/
theorem node_of_expr? {e : ExprId} {x : ExprNode} (h : p.expr? e = some x) : p.node e = x := by
  simp [node, h]

/-- Changes of expressions leave the statements alone. -/
@[simp]
theorem stmts_foldl_modifyExpr (l : List ExprId) (f : ExprNode → ExprNode) :
    (l.foldl (fun p e => p.modifyExpr e f) p).stmts = p.stmts := by
  induction l generalizing p with
  | nil => rfl
  | cons e l ih => exact ih _

@[simp]
theorem size_foldl_modifyExpr (l : List ExprId) (f : ExprNode → ExprNode) :
    (l.foldl (fun p e => p.modifyExpr e f) p).exprs.size = p.exprs.size := by
  induction l generalizing p with
  | nil => rfl
  | cons e l ih =>
    rw [List.foldl_cons, ih]
    simp [modifyExpr]

/-! ### Statements -/

@[simp]
theorem stmt?_modifyStmt (s t : StmtId) (f : Stmt → Stmt) :
    (p.modifyStmt s f).stmt? t = if t = s then (p.stmt? t).map f else p.stmt? t := by
  simp only [stmt?, modifyStmt, Array.getElem?_modify]
  split <;> rename_i h
  · obtain rfl : t = s := by cases t; cases s; simp_all
    rw [if_pos rfl]
    cases p.stmts[t.index]? <;> simp
  · rw [if_neg fun h' => h (by rw [h'])]

/-- A statement added at the end of the slots gets the first free number. -/
@[simp]
theorem stmt?_push (st : Stmt) (t : StmtId) :
    ({ p with stmts := p.stmts.push (some st) } : Procedure).stmt? t =
      if t.index = p.stmts.size then some st else p.stmt? t := by
  simp only [stmt?, Array.getElem?_push]
  split <;> simp

/-- An emptied statement slot holds no statement. -/
@[simp]
theorem stmt?_clear (s t : StmtId) :
    ({ p with stmts := p.stmts.modify s.index fun _ => none } : Procedure).stmt? t =
      if t = s then none else p.stmt? t := by
  simp only [stmt?, Array.getElem?_modify]
  split <;> rename_i h
  · obtain rfl : t = s := by cases t; cases s; simp_all
    rw [if_pos rfl]
    cases p.stmts[t.index]? <;> simp
  · rw [if_neg fun h' => h (by rw [h'])]

@[simp]
theorem stmt?_modifyExpr (e : ExprId) (f : ExprNode → ExprNode) (t : StmtId) :
    (p.modifyExpr e f).stmt? t = p.stmt? t := rfl

@[simp]
theorem stmt?_modifyCntr (c : CntrId) (f : Container → Container) (t : StmtId) :
    (p.modifyCntr c f).stmt? t = p.stmt? t := rfl

/-! ### The live expressions and the registered definitions -/

theorem mem_liveExprs {e : ExprId} : e ∈ p.liveExprs ↔ ∃ x, p.expr? e = some x := by
  constructor
  · intro h
    obtain ⟨i, hi, rfl⟩ := List.mem_map.1 h
    obtain ⟨-, hsome⟩ := List.mem_filter.1 hi
    simpa [expr?, Option.isSome_iff_exists] using hsome
  · rintro ⟨x, hx⟩
    refine List.mem_map.2 ⟨e.index, List.mem_filter.2 ⟨?_, ?_⟩, rfl⟩
    · exact List.mem_range.2 (p.index_lt_of_expr? hx)
    · simp only [expr?] at hx
      simp [hx]

theorem mem_defs {d : ExprId} : d ∈ p.defs ↔ ∃ x, p.expr? d = some x ∧ x.tracked = true := by
  simp only [defs, List.mem_filter, mem_liveExprs]
  constructor
  · rintro ⟨⟨x, hx⟩, ht⟩
    exact ⟨x, hx, by rwa [p.node_of_expr? hx] at ht⟩
  · rintro ⟨x, hx, ht⟩
    exact ⟨⟨x, hx⟩, by rwa [p.node_of_expr? hx]⟩

end Procedure

end Decompilation
