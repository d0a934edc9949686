import Mathlib
import Decompilation.Simplify.Rules
import Decompilation.Proofs.Structure.Moves

/-!
# What purity sees

`Procedure.isPure` walks the tree below an expression, operands first, with the procedure's
depth bound as its fuel, and `Procedure.equals` compares two trees with the same fuel. Neither
walk misses anything, in any procedure: a node below an expression is reached by a walk down
the operands that visits no node twice, every node such a walk leaves lists an operand and so
is live, and the walk is no longer than the number of slots.

* `Procedure.Walk`: a walk down the operands, with the nodes it leaves;
* `Procedure.Walk.exists_nodup`: a walk that visits no node twice reaches the same node;
* `Procedure.isPure_iff`: an expression is pure exactly when no call and no inline assembly
  lies anywhere below it;
* `Procedure.isPure_of_equals`, `Procedure.isPure_of_operand`: a tree equal to a pure one, and
  the tree below an operand of a pure one, are pure.
-/

namespace Decompilation

/-- Whether a node has an effect depends on its kind alone. -/
theorem ExprNode.hasEffect_eq_of_kind {x y : ExprNode} (h : x.kind = y.kind) :
    x.hasEffect = y.hasEffect := by
  simp [ExprNode.hasEffect, h]

namespace Procedure

variable {p : Procedure}

/-- A walk from `c` down the operands to `x`, listing the nodes it leaves on the way. -/
inductive Walk (p : Procedure) : ExprId → ExprId → List ExprId → Prop
  | nil (c : ExprId) : Walk p c c []
  | cons {c o x : ExprId} {l : List ExprId} : o ∈ (p.node c).operands → Walk p o x l →
      Walk p c x (c :: l)

namespace Walk

theorem toBelow {c x : ExprId} {l : List ExprId} (h : p.Walk c x l) : p.Below c x := by
  induction h with
  | nil => exact .refl
  | cons ho _ ih => exact (Below.operand .refl ho).trans ih

theorem snoc {c w o : ExprId} {l : List ExprId} (h : p.Walk c w l)
    (ho : o ∈ (p.node w).operands) : p.Walk c o (l ++ [w]) := by
  induction h with
  | nil c => exact .cons ho (.nil o)
  | cons hc _ ih => exact .cons hc (ih ho)

theorem split {c x : ExprId} {l₁ l₂ : List ExprId} (h : p.Walk c x (l₁ ++ l₂)) :
    ∃ m, p.Walk c m l₁ ∧ p.Walk m x l₂ := by
  induction l₁ generalizing c with
  | nil => exact ⟨c, .nil c, h⟩
  | cons a l₁ ih =>
    cases h with
    | cons ho h' =>
      obtain ⟨m, h₁, h₂⟩ := ih h'
      exact ⟨m, .cons ho h₁, h₂⟩

theorem head_eq {c x a : ExprId} {l : List ExprId} (h : p.Walk c x (a :: l)) : a = c := by
  cases h
  rfl

/-- Every node a walk leaves lists an operand, so it is live. -/
theorem live {c x : ExprId} {l : List ExprId} (h : p.Walk c x l) :
    ∀ y ∈ l, p.isLive y = true := by
  induction h with
  | nil => simp
  | @cons c o x l ho _ ih =>
    intro y hy
    rcases List.mem_cons.1 hy with rfl | hy
    · cases hc : p.expr? y with
      | none => simp [node_of_expr?_eq_none p hc] at ho
      | some _ => simp [isLive, hc]
    · exact ih y hy

/-- A walk that comes back to a node can start from its last visit there. -/
theorem exists_nodup {c x : ExprId} {l : List ExprId} (h : p.Walk c x l) :
    ∃ l', p.Walk c x l' ∧ l'.Nodup := by
  induction h with
  | nil c => exact ⟨[], .nil c, List.nodup_nil⟩
  | @cons c o x l ho _ ih =>
    obtain ⟨l', hw, hnd⟩ := ih
    by_cases hc : c ∈ l'
    · -- the rest of the walk visits `c` again: keep what follows that visit
      obtain ⟨s, t, rfl⟩ := List.append_of_mem hc
      obtain ⟨m, -, hm⟩ := hw.split
      obtain rfl := hm.head_eq
      exact ⟨c :: t, hm, hnd.sublist (List.sublist_append_right s _)⟩
    · exact ⟨c :: l', .cons ho hw, List.nodup_cons.2 ⟨hc, hnd⟩⟩

/-- A walk that visits no node twice is no longer than the number of slots. -/
theorem length_le {c x : ExprId} {l : List ExprId} (h : p.Walk c x l) (hnd : l.Nodup) :
    l.length ≤ p.exprs.size := by
  have hsub : l.map ExprId.index ⊆ List.range p.exprs.size := fun i hi => by
    obtain ⟨y, hy, rfl⟩ := List.mem_map.1 hi
    obtain ⟨z, hz⟩ := Option.isSome_iff_exists.1 (h.live y hy)
    exact List.mem_range.2 (index_lt_of_expr? p hz)
  have hnd' : (l.map ExprId.index).Nodup := hnd.map fun a b hab => ExprId.ext_iff'.2 hab
  simpa using (List.subperm_of_subset hnd' hsub).length_le

/-- A post-order walk with more fuel than a walk's length reaches the walk's end. -/
theorem mem_postOrder_go {c x : ExprId} {l : List ExprId} (h : p.Walk c x l) {n : Nat}
    (hn : l.length < n) : x ∈ postOrder.go p n c [] := by
  induction h generalizing n with
  | nil c =>
    obtain ⟨m, rfl⟩ : ∃ m, n = m + 1 := ⟨n - 1, by omega⟩
    simp [postOrder_go_succ]
  | @cons c o x l ho _ ih =>
    obtain ⟨m, rfl⟩ : ∃ m, n = m + 1 := ⟨n - 1, by omega⟩
    rw [postOrder_go_succ]
    exact List.mem_append_left _ (List.mem_flatMap.2 ⟨o, ho, ih (by simp at hn; omega)⟩)

/-- Trees that compare alike with more fuel than a walk's length: the walk's end has a node
    of its kind at the end of a walk from the other root. -/
theorem compare_go {wi : Bool} {d c x : ExprId} {l : List ExprId} (h : p.Walk c x l)
    {n : Nat} (hn : l.length < n) (hcmp : compare.go p wi n d c = true) :
    ∃ y l', p.Walk d y l' ∧ (p.node y).kind = (p.node x).kind := by
  induction h generalizing d n with
  | nil c =>
    obtain ⟨m, rfl⟩ : ∃ m, n = m + 1 := ⟨n - 1, by omega⟩
    rw [compare.go] at hcmp
    simp only [Bool.and_eq_true, beq_iff_eq] at hcmp
    exact ⟨d, [], .nil d, hcmp.1.1.1⟩
  | @cons c o x l ho _ ih =>
    obtain ⟨m, rfl⟩ : ∃ m, n = m + 1 := ⟨n - 1, by omega⟩
    rw [compare.go] at hcmp
    simp only [Bool.and_eq_true, beq_iff_eq, List.all_eq_true] at hcmp
    obtain ⟨⟨⟨-, hlen⟩, -⟩, hall⟩ := hcmp
    -- the operand of `d` in the place of `o` compares alike with it
    obtain ⟨i, hi, rfl⟩ := List.getElem_of_mem ho
    have hi' : i < (p.node d).operands.length := hlen ▸ hi
    have hmem : ((p.node d).operands[i], (p.node c).operands[i]) ∈
        (p.node d).operands.zip (p.node c).operands := by
      rw [List.mem_iff_getElem]
      exact ⟨i, by simp; omega, by simp⟩
    obtain ⟨y, l', hw, hk⟩ := ih (by simp at hn; omega) (hall _ hmem)
    exact ⟨y, d :: l', .cons (List.getElem_mem hi') hw, hk⟩

end Walk

theorem Below.exists_walk {c x : ExprId} (h : p.Below c x) : ∃ l, p.Walk c x l := by
  induction h with
  | refl => exact ⟨[], .nil c⟩
  | operand _ ho ih =>
    obtain ⟨l, hl⟩ := ih
    exact ⟨_, hl.snoc ho⟩

/-- A node below another is reached by a walk that visits no node twice, which is shorter
    than the procedure's depth bound. -/
theorem Below.exists_short_walk {c x : ExprId} (h : p.Below c x) :
    ∃ l, p.Walk c x l ∧ l.length < p.depthBound := by
  obtain ⟨l, hl⟩ := h.exists_walk
  obtain ⟨l', hw, hnd⟩ := hl.exists_nodup
  exact ⟨l', hw, Nat.lt_succ_of_le (hw.length_le hnd)⟩

/-- An expression is pure exactly when no call and no inline assembly lies below it. -/
theorem isPure_iff {c : ExprId} :
    p.isPure c = true ↔ ∀ x, p.Below c x → (p.node x).hasEffect = false := by
  simp only [isPure, enclosesEffect, encloses, Bool.not_eq_eq_eq_not, Bool.not_true,
    List.any_eq_false, Bool.not_eq_true]
  constructor
  · intro h x hx
    obtain ⟨l, hw, hl⟩ := hx.exists_short_walk
    exact h x (hw.mem_postOrder_go hl)
  · exact fun h x hx => h x (mem_postOrder_go hx).1

/-- A tree equal to a pure one is pure. -/
theorem isPure_of_equals {d c : ExprId} (hd : p.isPure d = true) (heq : p.equals d c = true) :
    p.isPure c = true := by
  refine isPure_iff.2 fun x hx => ?_
  obtain ⟨l, hw, hl⟩ := hx.exists_short_walk
  obtain ⟨y, _, hy, hk⟩ := hw.compare_go hl heq
  rw [← ExprNode.hasEffect_eq_of_kind hk]
  exact isPure_iff.1 hd y hy.toBelow

/-- The tree below an operand of a pure expression is pure. -/
theorem isPure_of_operand {d o : ExprId} (hd : p.isPure d = true)
    (ho : o ∈ (p.node d).operands) : p.isPure o = true :=
  isPure_iff.2 fun x hx => isPure_iff.1 hd x ((Below.operand .refl ho).trans hx)

end Procedure

end Decompilation
