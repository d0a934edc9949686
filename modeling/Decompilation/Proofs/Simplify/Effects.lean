import Mathlib
import Decompilation.Proofs.Simplify.Built
import Decompilation.Proofs.Ir.Traversal
import Decompilation.Simplify.Reduce

/-!
# The simplifier keeps the calls of a tree

A step of the simplifier builds a rule's replacement of one node from its parts, puts it in the
node's place and deletes what is left of the node's tree. Over a held tree whose nodes list the
operands their kinds fix, every rule keeps the effects of the tree it replaces
(`Procedure.Covers.shapes`), and the build keeps the parts' trees whole
(`Replacement.build_built`). What the deletion takes is then below the replaced node and in no
part's tree: after a step every call and inline assembly of the tree is still in the new tree,
of the same kind, unless it lay in the arm of a conditional whose condition is a literal that
leaves the arm aside, and the conditional is gone. Those the tree evaluates whatever its
conditions, outside the arms of its conditionals, are always kept.

* `Procedure.Substituted`: putting a detached node in the place of another;
* `ExprShape.Reduced`, `ExprShape.Stepped`: what a reduction, and one step, take a tree to;
* `Ctx.fill_stepped`: a replacement inside a tree is a step of the tree;
* `Simplifier.step_stepped`: so is a step of the simplifier.
-/

namespace Decompilation

namespace Procedure

variable {p q q' : Procedure} {E : Procedure → Prop}

/-! ### Putting a node in another's place -/

/-- `q'` is `q` with `new` in the place of `old`: the parent `old` records, if any, lists `new`
    where it listed `old`, `new` records that parent and `old` none, and nothing else changes. -/
structure Substituted (q : Procedure) (old new : ExprId) (q' : Procedure) : Prop where
  live : ∀ z, q'.isLive z = q.isLive z
  kind : ∀ z, (q'.node z).kind = (q.node z).kind
  operands : ∀ z, (q.node old).parent ≠ some (.expr z) → (q'.node z).operands = (q.node z).operands
  listed : ∀ y, (q.node old).parent = some (.expr y) → old ∈ (q.node y).operands ∧
    (q'.node y).operands = (q.node y).operands.set ((q.node y).operands.idxOf old) new
  parent : ∀ z, z ≠ old → z ≠ new → (q'.node z).parent = (q.node z).parent
  parent_new : (q'.node new).parent = (q.node old).parent
  parent_old : (q'.node old).parent = none
  size : q'.exprs.size = q.exprs.size

/-- A detached node stays in its place when the node to put there is detached too. -/
theorem Substituted.of_detached {old new : ExprId} (hold : (q.node old).parent = none)
    (hnew : (q.node new).parent = none) : q.Substituted old new q where
  live _ := rfl
  kind _ := rfl
  operands _ _ := rfl
  listed y hy := by rw [hold] at hy; cases hy
  parent _ _ _ := rfl
  parent_new := hnew.trans hold.symm
  parent_old := hold
  size := rfl

/-- Recording the parent of `old` as that of `new`, and none as that of `old`, once the list of
    that parent has `new` in the place of `old`, puts `new` in the place of `old`. -/
theorem substituted_of_relisted {old new : ExprId} {par : ExprParent}
    (hpar : (q.node old).parent = some par) (hnew : (q.node new).parent = none)
    (hlive : q.isLive new) {q₀ : Procedure} (hsize : q₀.exprs.size = q.exprs.size)
    (h₀ : ∀ z, q₀.isLive z = q.isLive z ∧ (q₀.node z).kind = (q.node z).kind ∧
      (q₀.node z).parent = (q.node z).parent)
    (hops : ∀ z, par ≠ .expr z → (q₀.node z).operands = (q.node z).operands)
    (hlisted : ∀ y, par = .expr y → old ∈ (q.node y).operands ∧
      (q₀.node y).operands = (q.node y).operands.set ((q.node y).operands.idxOf old) new) :
    q.Substituted old new ((q₀.modifyExpr new fun x => { x with parent := some par }).modifyExpr old
      fun x => { x with parent := none }) := by
  have hne : new ≠ old := fun h => by rw [h, hpar] at hnew; cases hnew
  have hold : q₀.isLive old := by rw [(h₀ old).1]; exact isLive_of_parent hpar
  refine ⟨fun z => ?_, fun z => ?_, fun z hz => ?_, fun y hy => ?_, fun z hzo hzn => ?_, ?_, ?_,
    by rw [size_modifyExpr, size_modifyExpr, hsize]⟩
  · simp only [isLive_modifyExpr]
    exact (h₀ z).1
  · rw [node_modifyExpr_view ExprNode.kind, node_modifyExpr_view ExprNode.kind, (h₀ z).2.1] <;>
      exact fun _ => rfl
  · rw [node_modifyExpr_view ExprNode.operands, node_modifyExpr_view ExprNode.operands,
      hops z fun h => hz (by rw [hpar, h])] <;> exact fun _ => rfl
  · rw [hpar, Option.some.injEq] at hy
    rw [node_modifyExpr_view ExprNode.operands, node_modifyExpr_view ExprNode.operands]
    · exact hlisted y hy
    all_goals exact fun _ => rfl
  · rw [node_modifyExpr_of_ne _ hzo, node_modifyExpr_of_ne _ hzn]
    exact (h₀ z).2.2
  · rw [node_modifyExpr_of_ne _ hne, node_modifyExpr_self _ (by rw [(h₀ new).1]; exact hlive),
      hpar]
  · rw [node_modifyExpr_self _ (by rw [isLive_modifyExpr]; exact hold)]

/-- Replacing an attached node by a detached live one puts it in its place. -/
theorem replaceExpr_substituted {old new : ExprId} (hnew : (q.node new).parent = none)
    (hlive : q.isLive new) :
    Runs (replaceExpr old new) q (fun _ q' => q.Substituted old new q') (fun _ => True) := by
  unfold replaceExpr
  refine runs_get_bind ?_
  simp only [hnew, Option.isSome_none, Bool.false_eq_true, if_false]
  split
  · next par slot hpar hslot =>
    refine runs_set_bind (runs_pure _ ?_)
    cases par with
    | expr y =>
      -- the parent lists `new` at the slot of `old`, which is where it lists `old`
      rw [slotOf, hpar] at hslot
      obtain ⟨hlt, hget, -⟩ := List.idxOf?_eq_some_iff.1 hslot
      have hmem : old ∈ (q.node y).operands := hget ▸ List.getElem_mem hlt
      have hidx : slot = (q.node y).operands.idxOf old :=
        Option.some.inj (hslot.symm.trans (List.idxOf?_eq_some_idxOf hmem))
      refine substituted_of_relisted hpar hnew hlive (size_modifyExpr _ _)
        (fun z => ⟨isLive_modifyExpr _ _ _, ?_, ?_⟩)
        (fun z hz => ?_) fun y' hy' => ?_
      · rw [node_modifyExpr_view ExprNode.kind]
        exact fun _ => rfl
      · rw [node_modifyExpr_view ExprNode.parent]
        exact fun _ => rfl
      · dsimp only
        rw [node_modifyExpr_of_ne _ fun h => hz (by rw [h])]
      · cases hy'
        rw [node_modifyExpr_self _ (isLive_of_mem_operands hmem), hidx]
        exact ⟨hmem, rfl⟩
    | stmt s =>
      exact substituted_of_relisted hpar hnew hlive rfl (fun _ => ⟨rfl, rfl, rfl⟩) (fun _ _ => rfl)
        fun _ h => by cases h
  · exact runs_throw _ trivial

/-! ### Deleting nodes -/

/-- Deleting another node keeps a node live or not and leaves its fields but its chain links. -/
theorem node_dropExpr_of_ne {n z : ExprId} (h : z ≠ n) :
    (q.dropExpr n).isLive z = q.isLive z ∧
      ∃ u d, (q.dropExpr n).node z = { q.node z with uses := u, defLink := d } := by
  cases hn : q.expr? n with
  | none =>
    rw [show q.dropExpr n = q by simp [dropExpr, hn]]
    exact ⟨rfl, (q.node z).uses, (q.node z).defLink, rfl⟩
  | some x =>
    have hz := expr?_dropExpr hn z
    rw [if_neg h] at hz
    cases hq : q.expr? z with
    | none =>
      rw [hq, Option.map_none] at hz
      refine ⟨by simp [isLive, hz, hq], [], none, ?_⟩
      rw [node_of_expr?_eq_none _ hz, node_of_expr?_eq_none _ hq]
      rfl
    | some y =>
      rw [hq, Option.map_some] at hz
      exact ⟨by simp [isLive, hz, hq], _, _, by rw [node_of_expr? _ hz, node_of_expr? _ hq]⟩

/-- Deleting nodes keeps every other node live or not and leaves its fields but its chain
    links. -/
theorem node_foldl_dropExpr {ns : List ExprId} {z : ExprId} (hz : z ∉ ns) :
    (ns.foldl dropExpr q).isLive z = q.isLive z ∧
      ∃ u d, (ns.foldl dropExpr q).node z = { q.node z with uses := u, defLink := d } := by
  induction ns generalizing q with
  | nil => exact ⟨rfl, (q.node z).uses, (q.node z).defLink, rfl⟩
  | cons n ns ih =>
    rw [List.mem_cons, not_or] at hz
    obtain ⟨hl, u, d, hnode⟩ := ih (q := q.dropExpr n) hz.2
    obtain ⟨hl', u', d', hnode'⟩ := node_dropExpr_of_ne (q := q) hz.1
    exact ⟨hl.trans hl', u, d, by rw [List.foldl_cons, hnode, hnode']⟩

/-- Deleting nodes keeps every other node live or not, with its kind, its operands and its
    parent. -/
theorem fields_foldl_dropExpr {ns : List ExprId} {z : ExprId} (hz : z ∉ ns) :
    (ns.foldl dropExpr q).isLive z = q.isLive z ∧
      ((ns.foldl dropExpr q).node z).kind = (q.node z).kind ∧
      ((ns.foldl dropExpr q).node z).operands = (q.node z).operands ∧
      ((ns.foldl dropExpr q).node z).parent = (q.node z).parent := by
  obtain ⟨hl, u, d, h⟩ := node_foldl_dropExpr (q := q) hz
  rw [h]
  exact ⟨hl, rfl, rfl, rfl⟩

/-- Deleting nodes leaves the arena its size. -/
theorem size_foldl_dropExpr (ns : List ExprId) :
    (ns.foldl dropExpr q).exprs.size = q.exprs.size := by
  induction ns generalizing q with
  | nil => rfl
  | cons n ns ih => rw [List.foldl_cons, ih, size_dropExpr]

/-- A node deleted stays deleted while further nodes are. -/
theorem not_isLive_foldl_dropExpr {ns : List ExprId} {z : ExprId} (hz : z ∈ ns) :
    ¬(ns.foldl dropExpr q).isLive z := by
  induction ns generalizing q with
  | nil => cases hz
  | cons n ns ih =>
    rw [List.foldl_cons]
    by_cases hzs : z ∈ ns
    · exact ih hzs
    · obtain rfl : z = n := (List.mem_cons.1 hz).resolve_right hzs
      rw [(node_foldl_dropExpr hzs).1]
      simp [isLive, expr?_dropExpr_self]

/-! ### Held trees and their subtrees -/

variable {t N : ExprShape}

open ExprShape

/-- The operands of a node of a held tree with distinct nodes are distinct. -/
theorem Holds.nodup_operands (h : p.Holds t) {x : ExprId} (hx : x ∈ t.ids) :
    (p.node x).operands.Nodup := by
  obtain ⟨⟨x, us⟩, hu, rfl⟩ := List.mem_map.1 hx
  have hU := h.sub hu
  rw [root_node, (spans_node_iff.1 hU.spans).2.1]
  exact List.Pairwise.map _ (fun a b hab he => hab a.root_mem_ids (he ▸ b.root_mem_ids))
    (nodup_ids_node.1 hU.nodup).2.1

/-- A proper subtree of a held tree, below a node laid out like the rest, is the tree of a part
    ready to be moved. -/
theorem Ready.of_sub (hN : p.Holds N) (hl : N.Laid p) {u : ExprShape} (hu : u ∈ N.subs)
    (hne : u ≠ N) : p.Ready u u.root := by
  have huN : u.root ∈ N.ids := ids_subset_of_mem_subs hu u.root_mem_ids
  have hroot : u.root ≠ N.root := fun h => hne ((hN.sub hu).spans.unique hN.spans h)
  obtain ⟨y, hy, hpy, hky⟩ := hN.spans.parent_mem huN hroot
  exact ⟨hN.sub hu, rfl, hl.sub hu, y, hpy, hky, hN.nodup_operands hy,
    fun hyu => (hN.sub hu).root_not_mem_operands hyu hky⟩

/-- Parts rooted at proper subtrees of a tree with distinct nodes are nodes of the tree other
    than its root. -/
theorem parts_mem_ids {ks : List ExprId} {sub : ExprId → ExprShape} (hnd : N.ids.Nodup)
    (hsub : ∀ k ∈ ks, sub k ∈ N.subs ∧ (sub k).root = k ∧ sub k ≠ N) :
    (∀ k ∈ ks, k ∈ N.ids) ∧ N.root ∉ ks := by
  have hkmem : ∀ k ∈ ks, k ∈ (sub k).ids := fun k hk => by
    have hk' := (sub k).root_mem_ids
    rwa [(hsub k hk).2.1] at hk'
  exact ⟨fun k hk => ids_subset_of_mem_subs (hsub k hk).1 (hkmem k hk), fun h =>
    root_not_mem_of_mem_subs hnd (hsub _ h).1 (hsub _ h).2.2 (hkmem _ h)⟩

/-- Putting a node in the place of the root of a held tree leaves the lists of the tree as the
    parts left them, since no node of the tree lists its root. -/
theorem Substituted.operands_of_mem {ks : List ExprId} {q₁ q₂ : Procedure} {r : ExprId}
    (hN : p.Holds N) (hq : p.Plucked ks q₁) (hP : q₁.Substituted N.root r q₂) :
    ∀ w ∈ N.ids, (q₂.node w).operands = (q₁.node w).operands := fun w hw =>
  hP.operands w fun h => by
    have hmem := (hP.listed w h).1
    rw [hq.operands w (hN.spans.index_lt hw), mem_keptOperands] at hmem
    exact hN.root_not_mem_operands hw hmem.1

/-- What lies below the replaced root, once the parts left the lists of its tree and those lists
    stay as the build left them: nodes of its tree outside the parts' trees. -/
theorem below_remainder {ks : List ExprId} {sub : ExprId → ExprShape} (hN : p.Holds N)
    (hq : p.Plucked ks q) (hsub : ∀ k ∈ ks, sub k ∈ N.subs ∧ (sub k).root = k ∧ sub k ≠ N)
    (hops : ∀ w ∈ N.ids, (q'.node w).operands = (q.node w).operands) {y : ExprId}
    (hy : q'.Below N.root y) : y ∈ N.ids ∧ ∀ k ∈ ks, y ∉ (sub k).ids := by
  induction hy with
  | refl =>
    exact ⟨N.root_mem_ids, fun k hk => root_not_mem_of_mem_subs hN.nodup (hsub k hk).1
      (hsub k hk).2.2⟩
  | @operand w o _ ho ih =>
    obtain ⟨hw, hwk⟩ := ih
    rw [hops w hw, hq.operands w (hN.spans.index_lt hw), mem_keptOperands] at ho
    obtain ⟨ho, hkept⟩ := ho
    -- `o` records `w` as its parent: it is no part, nor below one, since `w` is neither
    have hpo : (p.node o).parent = some (.expr w) := hN.spans.parent_of_operand hw ho
    refine ⟨hN.spans.operand_mem hw ho, fun k hk hok => ?_⟩
    obtain ⟨hks, hkr, -⟩ := hsub k hk
    by_cases hok' : o = k
    · subst hok'
      exact hkept hk hpo
    · obtain ⟨z, hz, hpz, -⟩ := (hN.sub hks).spans.parent_mem hok (by rw [hkr]; exact hok')
      rw [hpo, Option.some.injEq, ExprParent.expr.injEq] at hpz
      subst hpz
      exact hwk k hk hz

/-- A node below another is on the post-order walk from it. -/
theorem mem_postOrder_of_below {c x : ExprId} (h : q.Below c x) : x ∈ q.postOrder c := by
  obtain ⟨l, hw, hlen⟩ := h.exists_short_walk
  exact hw.mem_postOrder_go hlen

/-- Conversely, a node of the replaced tree in no part's tree is still below its root once the
    parts left the lists of the tree: the path down to it passes no part, whose tree would hold
    the node. -/
theorem below_of_remainder {ks : List ExprId} {sub : ExprId → ExprShape} (hN : p.Holds N)
    (hq : p.Plucked ks q) (hsub : ∀ k ∈ ks, sub k ∈ N.subs ∧ (sub k).root = k)
    (hops : ∀ w ∈ N.ids, (q'.node w).operands = (q.node w).operands) {y : ExprId}
    (hy : y ∈ N.ids) (hky : ∀ k ∈ ks, y ∉ (sub k).ids) : q'.Below N.root y := by
  have hbelow := hN.spans.below_of_mem hy
  revert hy hky
  induction hbelow with
  | refl => exact fun _ _ => .refl
  | @operand w o hw ho ih =>
    intro hoN hko
    have hwN : w ∈ N.ids := hN.mem_of_below hw
    -- `w` is in no part's tree either, as its operand `o` would be
    have hwk : ∀ k ∈ ks, w ∉ (sub k).ids := fun k hk hwk =>
      hko k hk ((hN.sub (hsub k hk).1).spans.operand_mem hwk ho)
    refine .operand (ih hwN hwk) ?_
    rw [hops w hwN, hq.operands w (hN.spans.index_lt hwN), mem_keptOperands]
    refine ⟨ho, fun hok _ => hko o hok ?_⟩
    have hoo := (sub o).root_mem_ids
    rwa [(hsub o hok).2] at hoo

/-- A conditional of a built tree around a node is one of the tree the parts come from: the new
    nodes are no conditionals, and the tree of a part stands whole in the built tree. -/
theorem Built.inArm {ks : List ExprId} {sub : ExprId → ExprShape} {W : ExprShape}
    {q₁ : Procedure} (hb : p.Built sub ks W q₁) (hsub : ∀ k ∈ ks, sub k ∈ N.subs)
    (hW : q.Holds W) (hkind : ∀ z ∈ W.ids, (q.node z).kind = (q₁.node z).kind) {y x : ExprId}
    {i : Nat} (h : W.InArm q y i x) : N.InArm p y i x := by
  obtain ⟨ts, u, hsubW, hu, harm, hxu⟩ := h
  have hyW : y ∈ W.ids := ids_subset_of_mem_subs hsubW (root_mem_ids _)
  have hyold : y.index < p.exprs.size := by
    by_contra hnew
    have hfresh := hb.fresh y hyW (by omega) i
    rw [← hkind y hyW, harm] at hfresh
    cases hfresh
  obtain ⟨k, hk, hyk⟩ := hb.mem_of_old hyW hyold
  obtain ⟨v, hv, hvy⟩ := List.mem_map.1 hyk
  -- the subtree at `y` is the same in the part's tree as in the built one
  have hvW : v ∈ W.subs := mem_subs_trans hv (hb.subs k hk)
  have hveq : v = ExprShape.node y ts := (hW.spans.sub hvW).unique (hW.spans.sub hsubW) hvy
  rw [hveq] at hv
  refine ⟨ts, u, mem_subs_trans hv (hsub k hk), hu, ?_, hxu⟩
  rw [← hb.plucked.kind y hyold, ← hkind y hyW]
  exact harm

end Procedure

/-- What a reduction took the tree `S`, held in `p`, to: the tree `S'`, held and laid out in
    `p'`. The new tree exposes every node the old one exposed; a conditional of the new tree
    around an old node was one around it in the old tree; and the nodes of the new tree not in
    the old one are new. Outside the old tree the old nodes are as they were, but for the
    operands of the parent of the old root, which records the new root as it did the old one. -/
structure ExprShape.Reduced (S : ExprShape) (p : Procedure) (S' : ExprShape) (p' : Procedure) :
    Prop where
  source : p.Holds S
  holds : p'.Holds S'
  laid : S'.Laid p'
  exposed : ∀ x, S.Exposed p x → S'.Exposed p' x ∧ (p'.node x).kind = (p.node x).kind
  arms : ∀ y i x, x ∈ S.ids → S'.InArm p' y i x → S.InArm p y i x
  ids : ∀ z ∈ S'.ids, z ∈ S.ids ∨ p.exprs.size ≤ z.index
  size : p.exprs.size ≤ p'.exprs.size
  frame : ∀ z, z.index < p.exprs.size → z ∉ S.ids → p'.isLive z = p.isLive z ∧
    (p'.node z).kind = (p.node z).kind ∧ (p'.node z).parent = (p.node z).parent
  operands : ∀ z, z.index < p.exprs.size → z ∉ S.ids → (p.node S.root).parent ≠ some (.expr z) →
    (p'.node z).operands = (p.node z).operands
  root : (p'.node S'.root).parent = (p.node S.root).parent

/-- What one step took the tree `S` of `p` to: a reduction in which every call of the old tree
    is still in the new one, of the same kind, unless it lay in the arm of a conditional that the
    literal condition leaves aside, and the conditional was deleted. -/
structure ExprShape.Stepped (S : ExprShape) (p : Procedure) (S' : ExprShape) (p' : Procedure) :
    Prop extends S.Reduced p S' p' where
  folded : ∀ x ∈ S.ids, (p.node x).hasEffect = true →
    (x ∈ S'.ids ∧ (p'.node x).kind = (p.node x).kind) ∨
      ∃ y i, S.InArm p y i x ∧ p.LeavesAside y i ∧ ¬p'.isLive y

/-- A step that replaces nothing. -/
theorem ExprShape.Stepped.refl {p : Procedure} {S : ExprShape} (hS : p.Holds S) (hl : S.Laid p) :
    S.Stepped p S p where
  source := hS
  holds := hS
  laid := hl
  exposed _ hx := ⟨hx, rfl⟩
  arms _ _ _ _ h := h
  ids _ hz := .inl hz
  size := le_rfl
  frame _ _ _ := ⟨rfl, rfl, rfl⟩
  operands _ _ _ _ := rfl
  root := rfl
  folded _ hx _ := .inl ⟨hx, rfl⟩

namespace Ctx

open ExprShape Procedure

variable {p : Procedure}

theorem mem_subs_fill (C : Ctx) (s : ExprShape) : s ∈ (C.fill s).subs := by
  induction C with
  | hole => exact self_mem_subs s
  | node e l c r ih => exact mem_subs_node.2 (.inr ⟨c.fill s, by simp, ih⟩)

/-- Around the root of the hole of a held context, the nearest node of the context lists it and
    is recorded as its parent. -/
theorem Spans.parent_mem {C : Ctx} {a : ExprId} (h : C.Spans p a) :
    C = .hole ∨ ∃ y ∈ C.ids, (p.node a).parent = some (.expr y) ∧ a ∈ (p.node y).operands := by
  induction C with
  | hole => exact .inl rfl
  | node e l c r ih =>
    obtain ⟨-, ops, pc, -, hc⟩ := h
    refine .inr ?_
    rcases ih hc with rfl | ⟨y, hy, hpy, hay⟩
    · exact ⟨e, by simp [ids], pc, by rw [ops]; simp [top]⟩
    · exact ⟨y, mem_ids_node.2 (.inr (.inl hy)), hpy, hay⟩

/-- The root a step answers: the replacement when the node replaced was the root, and the root
    otherwise. -/
theorem ite_root_eq_top {C : Ctx} {s : ExprShape} (hnd : (C.fill s).ids.Nodup) (b : ExprId) :
    (if (s.root == (C.fill s).root) = true then b else (C.fill s).root) = C.top b := by
  cases C with
  | hole => simp [fill, top]
  | node e l c r =>
    have hne : s.root ≠ e := fun h => (nodup_fill.1 hnd).2.2 (by simp [ids]) (h ▸ s.root_mem_ids)
    simp [fill, top, hne]

/-- What putting the tree `W`, built in `q₁` over the parts `ks` of `N`, in the place of `N`
    inside the context `C` leaves once what is left below the root of `N` (the nodes `D`) is
    deleted: the context filled with `W`, held and laid out; the nodes deleted, nodes of `N` in no
    part's tree; and every other node of the kind it had. -/
structure Replaced (C : Ctx) (N W : ExprShape) (ks : List ExprId) (sub : ExprId → ExprShape)
    (p q₁ : Procedure) (D : List ExprId) (q₃ : Procedure) : Prop where
  holds : q₃.Holds (C.fill W)
  laid : (C.fill W).Laid q₃
  removed : ∀ y ∈ D, y ∈ N.ids ∧ ∀ k ∈ ks, y ∉ (sub k).ids
  kind : ∀ x, x.index < p.exprs.size → x ∉ D → (q₃.node x).kind = (p.node x).kind
  kindW : ∀ x ∈ W.ids, (q₃.node x).kind = (q₁.node x).kind

/-- One replacement inside a held tree laid out by kinds: the build made `W` over the parts'
    trees, and `W` took the place of `N`. Deleting what is left below the root of `N` leaves the
    context filled with `W`. -/
theorem fill_replaced {C : Ctx} {N W : ExprShape} {q₁ q₂ : Procedure} {ks : List ExprId}
    {sub : ExprId → ExprShape} (hS : p.Holds (C.fill N)) (hl : (C.fill N).Laid p)
    (hsub : ∀ k ∈ ks, sub k ∈ N.subs ∧ (sub k).root = k ∧ sub k ≠ N)
    (hb : p.Built sub ks W q₁) (hP : q₁.Substituted N.root W.root q₂) :
    C.Replaced N W ks sub p q₁ (q₂.postOrder N.root)
      ((q₂.postOrder N.root).foldl dropExpr q₂) := by
  obtain ⟨hndC, hndN, hCN⟩ := nodup_fill.1 hS.nodup
  obtain ⟨hCs, hNs⟩ := (spans_fill C N).1 hS.spans
  have hN : p.Holds N := ⟨hNs, hndN⟩
  have hq := hb.plucked
  have hold : ∀ x ∈ (C.fill N).ids, x.index < p.exprs.size := fun x hx => hS.spans.index_lt hx
  have holdC : ∀ x ∈ C.ids, x.index < p.exprs.size := fun x hx => hold x (mem_ids_fill.2 (.inl hx))
  have holdN : ∀ x ∈ N.ids, x.index < p.exprs.size := fun x hx => hold x (mem_ids_fill.2 (.inr hx))
  -- the parts are nodes of `N` other than its root, whose parents lie in `N`
  obtain ⟨hkN, hroot_ks⟩ := parts_mem_ids hndN hsub
  have hrootN : ∀ k ∈ ks, N.root ∉ (sub k).ids := fun k hk =>
    root_not_mem_of_mem_subs hndN (hsub k hk).1 (hsub k hk).2.2
  have hparN : ∀ k ∈ ks, ∀ y, (p.node k).parent = some (.expr y) → y ∈ N.ids := fun k hk y hy => by
    obtain ⟨z, hz, hpz, -⟩ := hNs.parent_mem (hkN k hk) fun h => hroot_ks (h ▸ hk)
    rw [hy, Option.some.injEq, ExprParent.expr.injEq] at hpz
    exact hpz ▸ hz
  -- the built tree is new or made of the parts' trees, away from the context and from the root
  have hCW : ∀ x ∈ C.ids, x ∉ W.ids := fun x hx hxW => by
    rcases hb.ids x hxW with hnew | ⟨k, hk, hxk⟩
    · exact absurd (holdC x hx) (by omega)
    · exact hCN hx (ids_subset_of_mem_subs (hsub k hk).1 hxk)
  have hNW : N.root ∉ W.ids := fun hW => by
    rcases hb.ids _ hW with hnew | ⟨k, hk, hxk⟩
    · exact absurd (holdN _ N.root_mem_ids) (by omega)
    · exact hrootN k hk hxk
  -- after the build: the context keeps its lists, and the root of `N` its parent
  have hC₁ops : ∀ x ∈ C.ids, (q₁.node x).operands = (p.node x).operands := fun x hx => by
    rw [hq.operands x (holdC x hx), keptOperands_eq_self]
    exact fun o _ hok hpo => hCN hx (hparN o hok x hpo)
  have hpar₁ : (q₁.node N.root).parent = (p.node N.root).parent :=
    hq.parent _ (holdN _ N.root_mem_ids) hroot_ks
  set D := q₂.postOrder N.root
  have hD : ∀ y ∈ D, y ∈ N.ids ∧ ∀ k ∈ ks, y ∉ (sub k).ids := fun y hy =>
    below_remainder hN hq hsub (hP.operands_of_mem hN hq) (mem_postOrder_go hy).1
  have hC₃ : ∀ x ∈ C.ids, x ∉ D := fun x hx hxD => hCN hx (hD x hxD).1
  have hW₃ : ∀ x ∈ W.ids, x ∉ D := fun x hx hxD => by
    obtain ⟨hxN, hxk⟩ := hD x hxD
    rcases hb.ids x hx with hnew | ⟨k, hk, hxk'⟩
    · exact absurd (holdN x hxN) (by omega)
    · exact hxk k hk hxk'
  have hkind : ∀ x, x.index < p.exprs.size → x ∉ D →
      ((D.foldl dropExpr q₂).node x).kind = (p.node x).kind := fun x hx hxD =>
    (fields_foldl_dropExpr hxD).2.1.trans ((hP.kind x).trans (hq.kind x hx))
  have hkindW : ∀ x ∈ W.ids, ((D.foldl dropExpr q₂).node x).kind = (q₁.node x).kind :=
    fun x hx => (fields_foldl_dropExpr (hW₃ x hx)).2.1.trans (hP.kind x)
  have hopsW : ∀ x ∈ W.ids, ((D.foldl dropExpr q₂).node x).operands = (q₁.node x).operands :=
    fun x hx => (fields_foldl_dropExpr (hW₃ x hx)).2.2.1.trans
      (hP.operands x fun h => hNW (hb.holds.spans.operand_mem hx (hP.listed x h).1))
  -- the context lists the new tree where it listed the old one
  have hC₃ops : ∀ x ∈ C.ids, ((D.foldl dropExpr q₂).node x).operands =
      (p.node x).operands.map fun o => if o = N.root then W.root else o := fun x hx => by
    rw [(fields_foldl_dropExpr (hC₃ x hx)).2.2.1]
    by_cases hpx : (q₁.node N.root).parent = some (.expr x)
    · rw [(hP.listed x hpx).2, hC₁ops x hx,
        List.set_idxOf_eq_map (hS.nodup_operands (mem_ids_fill.2 (.inl hx)))]
    · rw [hP.operands x hpx, hC₁ops x hx]
      refine ((List.map_congr_left fun o ho => if_neg ?_).trans (List.map_id' _)).symm
      rintro rfl
      exact hpx (hpar₁.trans (hS.spans.parent_of_operand (mem_ids_fill.2 (.inl hx)) ho))
  have hCs₃ : C.Spans (D.foldl dropExpr q₂) W.root := by
    refine hCs.frame hndC (fun h => hCN h N.root_mem_ids) (fun x hx hl => ?_) hC₃ops
      (fun x hx _ => ?_) ?_
    · rw [(fields_foldl_dropExpr (hC₃ x hx)).1, hP.live, hq.live x (holdC x hx)]
      exact hl
    · rw [(fields_foldl_dropExpr (hC₃ x hx)).2.2.2,
        hP.parent x (fun h => hCN hx (h ▸ N.root_mem_ids)) fun h => hCW x hx (h ▸ W.root_mem_ids),
        hq.parent x (holdC x hx) fun hk => hCN hx (hkN x hk)]
    · rw [(fields_foldl_dropExpr (hW₃ _ W.root_mem_ids)).2.2.2, hP.parent_new, hpar₁]
  have hWs₃ : W.Spans (D.foldl dropExpr q₂) := by
    refine hb.holds.spans.frame hb.holds.nodup (fun x hx hl => ?_) hopsW fun x hx hxr => ?_
    · rw [(fields_foldl_dropExpr (hW₃ x hx)).1, hP.live]
      exact hl
    · rw [(fields_foldl_dropExpr (hW₃ x hx)).2.2.2, hP.parent x (fun h => hNW (h ▸ hx)) hxr]
  refine ⟨⟨(spans_fill C W).2 ⟨hCs₃, hWs₃⟩,
    nodup_fill.2 ⟨hndC, hb.holds.nodup, fun x hxC hxW => hCW x hxC hxW⟩⟩, fun x hx k hk => ?_,
    hD, hkind, hkindW⟩
  rcases mem_ids_fill.1 hx with hxC | hxW
  · rw [hC₃ops x hxC, List.length_map]
    exact hl x (mem_ids_fill.2 (.inl hxC)) k (by rw [← hkind x (holdC x hxC) (hC₃ x hxC)]; exact hk)
  · exact hb.laid.frame hkindW hopsW x hxW k hk

/-- A replacement inside a held tree keeps what the tree exposes, with its kind, when the parts
    hold every node the replaced subtree `N` exposed. -/
theorem exposes_replaced {C : Ctx} {N W : ExprShape} {q₁ q₃ : Procedure} {ks : List ExprId}
    {sub : ExprId → ExprShape} {D : List ExprId} (hS : p.Holds (C.fill N))
    (hsub : ∀ k ∈ ks, sub k ∈ N.subs ∧ (sub k).root = k ∧ sub k ≠ N)
    (hcov : ∀ x, N.Exposed p x → ∃ k ∈ ks, x ∈ (sub k).ids) (hb : p.Built sub ks W q₁)
    (hR : C.Replaced N W ks sub p q₁ D q₃) (x : ExprId) (hx : (C.fill N).Exposed p x) :
    (C.fill W).Exposed q₃ x ∧ (q₃.node x).kind = (p.node x).kind := by
  obtain ⟨-, hndN, hCN⟩ := nodup_fill.1 hS.nodup
  have hold : ∀ x ∈ (C.fill N).ids, x.index < p.exprs.size := fun x hx => hS.spans.index_lt hx
  have hC₃ : ∀ x ∈ C.ids, x ∉ D := fun x hx hxD => hCN hx (hR.removed x hxD).1
  refine ⟨exposed_fill (fun y hy => hR.kind y (hold y (mem_ids_fill.2 (.inl hy))) (hC₃ y hy))
      (fun y hy => ?_) hx, hR.kind x (hold x hx.mem) fun hxD => ?_⟩
  · -- what `N` exposed lies in a part's tree, which `W` exposes
    obtain ⟨k, hk, hyk⟩ := hcov y hy
    exact (hb.exposes k hk y (hy.sub hndN (hsub k hk).1 hyk)).frame hR.kindW
  · -- a node the old tree exposed is in the context or in a part's tree, so it was not deleted
    rcases mem_ids_fill.1 hx.mem with hxC | hxN
    · exact hC₃ x hxC hxD
    · obtain ⟨k, hk, hxk⟩ := hcov x (hx.sub hS.nodup (mem_subs_fill C N) hxN)
      exact (hR.removed x hxD).2 k hk hxk

/-- A conditional of a context filled with `W` in `q` around a node `x` is one of the context
    filled with `N` in `p` around it, when the context's nodes keep their kinds, every
    conditional of `W` around `x` is one of `N` around it, and `x`, if in `W`, is in `N`. The
    induction goes down the path of the context. -/
theorem inArm_fill {q : Procedure} {C : Ctx} {N W : ExprShape} {y x : ExprId} {i : Nat}
    (hk : ∀ z ∈ C.ids, (q.node z).kind = (p.node z).kind)
    (hW : W.InArm q y i x → N.InArm p y i x) (hx : x ∈ W.ids → x ∈ N.ids)
    (h : (C.fill W).InArm q y i x) : (C.fill N).InArm p y i x := by
  induction C with
  | hole => exact hW h
  | node e l c r ih =>
    obtain ⟨ts, u, hsub, hu, harm, hxu⟩ := h
    have hkside : ∀ t ∈ l ++ r, ∀ z ∈ t.ids, (q.node z).kind = (p.node z).kind := fun t ht z hz =>
      hk z (mem_ids_node.2 (.inl ⟨t, ht, hz⟩))
    rw [fill, mem_subs_node] at hsub
    rcases hsub with heq | ⟨t, ht, hsubt⟩
    · -- the conditional is the top of the context: the arm is beside the path, or on it
      rw [ExprShape.node.injEq] at heq
      obtain ⟨rfl, rfl⟩ := heq
      have hke : (p.node y).kind.arm i = true := by
        rw [← hk y (mem_ids_node.2 (.inr (.inr rfl)))]
        exact harm
      rcases getElem?_append_cons (b := c.fill N) hu with ⟨-, hu'⟩ | ⟨hi, rfl⟩
      · exact ⟨_, u, self_mem_subs _, hu', hke, hxu⟩
      · refine ⟨_, c.fill N, self_mem_subs _, ?_, hke, ?_⟩
        · rw [hi, List.getElem?_append_right (Nat.le_refl _), Nat.sub_self]
          rfl
        · rcases mem_ids_fill.1 hxu with hxc | hxW
          · exact mem_ids_fill.2 (.inl hxc)
          · exact mem_ids_fill.2 (.inr (hx hxW))
    · -- the conditional lies below the top, beside the path or on it
      have hmem : t ∈ l ++ r ∨ t = c.fill W := by
        simp only [List.mem_append, List.mem_cons] at ht ⊢
        tauto
      rcases hmem with hside | rfl
      · have hy : y ∈ t.ids := ids_subset_of_mem_subs hsubt (root_mem_ids _)
        refine ⟨ts, u, ?_, hu, by rw [← hkside t hside y hy]; exact harm, hxu⟩
        rw [fill]
        refine mem_subs_of_child ?_ hsubt
        simp only [List.mem_append, List.mem_cons] at hside ⊢
        tauto
      · have hkc : ∀ z ∈ c.ids, (q.node z).kind = (p.node z).kind := fun z hz =>
          hk z (mem_ids_node.2 (.inr (.inl hz)))
        refine (ih hkc ⟨ts, u, hsubt, hu, harm, hxu⟩).mono ?_
        rw [fill]
        exact mem_subs_of_child (by simp) (self_mem_subs _)

/-- One step inside a held tree laid out by kinds: the parts account for the calls of the
    replaced subtree `N`, the build made `W` over their trees, `W` took the place of `N`, and
    what was left below the root of `N` is deleted. The context filled with `N` steps to the
    context filled with `W`. -/
theorem fill_stepped {C : Ctx} {N W : ExprShape} {q₁ q₂ : Procedure} {ks : List ExprId}
    {sub : ExprId → ExprShape} (hS : p.Holds (C.fill N)) (hl : (C.fill N).Laid p)
    (hsub : ∀ k ∈ ks, sub k ∈ N.subs ∧ (sub k).root = k ∧ sub k ≠ N)
    (hacc : p.Accounts N ks sub) (hb : p.Built sub ks W q₁)
    (hP : q₁.Substituted N.root W.root q₂) :
    (C.fill N).Stepped p (C.fill W) ((q₂.postOrder N.root).foldl dropExpr q₂) := by
  have hR := fill_replaced hS hl hsub hb hP
  set D := q₂.postOrder N.root
  set q₃ := D.foldl dropExpr q₂
  obtain ⟨-, hndN, hCN⟩ := nodup_fill.1 hS.nodup
  obtain ⟨hCs, hNs⟩ := (spans_fill C N).1 hS.spans
  have hN : p.Holds N := ⟨hNs, hndN⟩
  have hq := hb.plucked
  have hold : ∀ x ∈ (C.fill N).ids, x.index < p.exprs.size := fun x hx => hS.spans.index_lt hx
  have hNS : ∀ x ∈ N.ids, x ∈ (C.fill N).ids := fun x hx => mem_ids_fill.2 (.inr hx)
  obtain ⟨hkN, hroot_ks⟩ := parts_mem_ids hndN hsub
  -- the nodes of the new tree are new or nodes of `N`, and none is deleted
  have hWN : ∀ z ∈ W.ids, z ∈ N.ids ∨ p.exprs.size ≤ z.index := fun z hz => by
    rcases hb.ids z hz with hnew | ⟨k, hk, hzk⟩
    · exact .inr hnew
    · exact .inl (ids_subset_of_mem_subs (hsub k hk).1 hzk)
  have hWD : ∀ z ∈ W.ids, z ∉ D := fun z hz hzD => by
    obtain ⟨hzN, hzk⟩ := hR.removed z hzD
    rcases hb.ids z hz with hnew | ⟨k, hk, hzk'⟩
    · exact absurd (hN.spans.index_lt hzN) (by omega)
    · exact hzk k hk hzk'
  have hDN : ∀ z ∈ D, z ∈ N.ids := fun z hz => (hR.removed z hz).1
  -- an old node outside `N` and the new tree keeps its parent
  have hpar : ∀ z, z.index < p.exprs.size → z ∉ N.ids → z ∉ W.ids →
      (q₃.node z).parent = (p.node z).parent := fun z hz hzN hzW => by
    rw [(fields_foldl_dropExpr fun h => hzN (hDN z h)).2.2.2,
      hP.parent z (fun h => hzN (h ▸ N.root_mem_ids)) fun h => hzW (h ▸ W.root_mem_ids),
      hq.parent z hz fun h => hzN (hkN z h)]
  -- a node of `N` in no part's tree is deleted
  have hdead : ∀ y ∈ N.ids, (∀ k ∈ ks, y ∉ (sub k).ids) → ¬q₃.isLive y := fun y hy hky =>
    not_isLive_foldl_dropExpr (mem_postOrder_of_below (below_of_remainder hN hq
      (fun k hk => ⟨(hsub k hk).1, (hsub k hk).2.1⟩) (hP.operands_of_mem hN hq) hy hky))
  have hfolded : ∀ x ∈ (C.fill N).ids, (p.node x).hasEffect = true →
      (x ∈ (C.fill W).ids ∧ (q₃.node x).kind = (p.node x).kind) ∨
        ∃ y i, (C.fill N).InArm p y i x ∧ p.LeavesAside y i ∧ ¬q₃.isLive y := by
    intro x hx he
    rcases mem_ids_fill.1 hx with hxC | hxN
    · exact .inl ⟨mem_ids_fill.2 (.inl hxC), hR.kind x (hold x hx) fun hxD => hCN hxC (hDN x hxD)⟩
    · rcases hacc.2 x hxN he with ⟨k, hk, hxk⟩ | ⟨y, i, hin, hla, hky⟩
      · exact .inl ⟨mem_ids_fill.2 (.inr (ids_subset_of_mem_subs (hb.subs k hk) hxk)),
          hR.kind x (hold x hx) fun hxD => (hR.removed x hxD).2 k hk hxk⟩
      · exact .inr ⟨y, i, hin.mono (mem_subs_fill C N), hla, hdead y hin.mem.1 hky⟩
  -- outside the old tree: an old node is no node of the new tree
  have houtW : ∀ z, z.index < p.exprs.size → z ∉ (C.fill N).ids → z ∉ W.ids := fun z hz hzS hzW =>
    hzS (hNS z ((hWN z hzW).resolve_right (by omega)))
  refine ⟨⟨hS, hR.holds, hR.laid, exposes_replaced hS hsub hacc.1 hb hR,
    fun y i x hx h => ?_, fun z hz => ?_, ?_, fun z hz hzS => ?_, fun z hz hzS hroot => ?_, ?_⟩,
    hfolded⟩
  · refine inArm_fill (fun z hz => hR.kind z (hold z (mem_ids_fill.2 (.inl hz)))
      fun hzD => hCN hz (hDN z hzD)) (hb.inArm (fun k hk => (hsub k hk).1)
      (hR.holds.sub (mem_subs_fill C W)) hR.kindW) (fun hxW => ?_) h
    exact (hWN x hxW).resolve_right (by have := hold x hx; omega)
  · rcases mem_ids_fill.1 hz with hzC | hzW
    · exact .inl (mem_ids_fill.2 (.inl hzC))
    · exact (hWN z hzW).imp (hNS z) id
  · rw [size_foldl_dropExpr, hP.size]
    exact hq.size_le
  · have hzN : z ∉ N.ids := fun h => hzS (hNS z h)
    have hzD : z ∉ D := fun h => hzN (hDN z h)
    exact ⟨(fields_foldl_dropExpr hzD).1.trans ((hP.live z).trans (hq.live z hz)),
      hR.kind z hz hzD, hpar z hz hzN (houtW z hz hzS)⟩
  · -- the lists outside the tree: only the parent of the root of `N` changed its list, and it
    -- is a node of the context or the parent of the whole root
    have hzN : z ∉ N.ids := fun h => hzS (hNS z h)
    have hpar₁ : (q₁.node N.root).parent ≠ some (.expr z) := by
      rw [hq.parent N.root (hold _ (hNS _ N.root_mem_ids)) hroot_ks]
      rcases Spans.parent_mem hCs with rfl | ⟨y, hy, hpy, -⟩
      · exact hroot
      · rw [hpy]
        intro h
        rw [Option.some.injEq, ExprParent.expr.injEq] at h
        subst h
        exact hzS (mem_ids_fill.2 (.inl hy))
    rw [(fields_foldl_dropExpr fun h => hzN (hDN z h)).2.2.1, hP.operands z hpar₁,
      hq.operands z hz, keptOperands_eq_self]
    -- a part records its parent in `N`
    intro o _ hok hpo
    obtain ⟨y, hy, hpy, -⟩ := hNs.parent_mem (hkN o hok) fun h => hroot_ks (h ▸ hok)
    rw [hpo, Option.some.injEq, ExprParent.expr.injEq] at hpy
    exact hzN (hpy ▸ hy)
  · cases C with
    | hole =>
      -- the new root took the place of the old one
      show (q₃.node W.root).parent = (p.node N.root).parent
      rw [(fields_foldl_dropExpr (hWD _ W.root_mem_ids)).2.2.2, hP.parent_new,
        hq.parent N.root (hold _ (hNS _ N.root_mem_ids)) hroot_ks]
    | node e l c r =>
      have he : e ∈ (Ctx.node e l c r).ids := mem_ids_node.2 (.inr (.inr rfl))
      have heS : e ∈ ((Ctx.node e l c r).fill N).ids := mem_ids_fill.2 (.inl he)
      refine hpar e (hold e heS) (fun h => hCN he h) fun heW => ?_
      rcases hWN e heW with heN | hnew
      · exact hCN he heN
      · exact absurd (hold e heS) (by omega)

end Ctx

namespace Simplifier

open ExprShape Procedure

variable {p : Procedure} {S : ExprShape}

/-- One step over a held tree laid out by kinds: when it finds nothing to replace the procedure
    is as it was, and when it replaces a node, the tree at the root it answers is what the old
    tree stepped to. -/
theorem step_stepped (s : Simplifier) (hS : p.Holds S) (hl : S.Laid p) :
    Runs (s.step S.root) p (fun o p' => ∃ S', S'.root = o.getD S.root ∧ S.Stepped p S' p')
      (fun _ => True) := by
  unfold Simplifier.step
  refine runs_get_bind (runs_bind (runs_forIn (fun b q => q = p ∧ b.1 = none)
    (fun b q => ∃ S', b.1 = some (some S'.root) ∧ S.Stepped p S' q) ⟨rfl, rfl⟩ ?_) ?_)
  · rintro node hnode b q ⟨rfl, -⟩
    split
    · exact runs_pure _ ⟨rfl, rfl⟩
    · refine runs_bind (lift_runs
        (Q := fun o q' => q' = q ∧ firstReplacement s.signed q node = .ok o)
        (fun o ho => ⟨rfl, ho⟩) trivial) ?_
      rintro o q' ⟨rfl, ho⟩
      split
      · next w =>
        -- the node the round fires on is a node of the tree, the root of a subtree `N`
        obtain ⟨C, N, rfl, rfl⟩ := Ctx.exists_fill (hS.mem_of_below (mem_postOrder_go hnode).1)
        have hN : q'.Holds N := hS.sub (Ctx.mem_subs_fill C N)
        have hlN : N.Laid q' := hl.sub (Ctx.mem_subs_fill C N)
        obtain ⟨hcov, hcopies⟩ := firstReplacement_keepsEffects ho
        obtain ⟨sub, hsub, hpw, hacc⟩ := hcov.shapes hN rfl hlN
        have hsub' : ∀ k ∈ w.parts, sub k ∈ N.subs ∧ (sub k).root = k ∧ sub k ≠ N :=
          fun k hk => ⟨(hsub k hk).1, (hsub k hk).2.1, (hsub k hk).2.2 rfl⟩
        have hready : ∀ k ∈ w.parts, q'.Ready (sub k) k := fun k hk => by
          have := Ready.of_sub hN hlN (hsub' k hk).1 (hsub' k hk).2.2
          rwa [(hsub' k hk).2.1] at this
        refine runs_bind (runs_mono (Replacement.build_built w hcopies hready hpw) (fun _ _ h => h)
          fun _ h => h.elim) fun _ q₁ hbuilt => ?_
        obtain ⟨W, rfl, hb⟩ := hbuilt
        -- the replacement in place, the rest of the tree of `N` goes
        have hdiscard : ∀ q₂, q₁.Substituted N.root W.root q₂ → Runs (discardExpr N.root) q₂
            (fun _ q₃ => (C.fill N).Stepped q' (C.fill W) q₃) (fun _ => True) := fun q₂ hP => by
          have hlive : q₂.isLive N.root := by
            rw [hP.live, hb.plucked.live _ (hN.spans.index_lt N.root_mem_ids)]
            exact hN.spans.live N.root_mem_ids
          refine runs_mono (discardExpr_detached hP.parent_old) (fun _ q₃ hq₃ => ?_)
            fun _ _ => trivial
          rw [hq₃, if_pos hlive]
          exact Ctx.fill_stepped hS hl hsub' hacc hb hP
        refine runs_get_bind ?_
        dsimp only
        have hroot := (Ctx.ite_root_eq_top hS.nodup W.root).trans (Ctx.root_fill C W).symm
        split
        · refine runs_bind
            (replaceExpr_substituted hb.detached (hb.holds.spans.live W.root_mem_ids))
            fun _ q₂ hP => runs_bind (hdiscard q₂ hP) fun _ q₃ hk =>
              runs_pure _ ⟨C.fill W, by rw [hroot], hk⟩
        · next hnone =>
          refine runs_bind (hdiscard q₁ (.of_detached (by simpa using hnone) hb.detached))
            fun _ q₃ hk => runs_pure _ ⟨C.fill W, by rw [hroot], hk⟩
      · exact runs_pure _ ⟨rfl, rfl⟩
  · rintro b q (⟨rfl, hb⟩ | ⟨S', hb, hk⟩) <;> dsimp only <;> rw [hb]
    · exact runs_pure _ ⟨S, rfl, .refl hS hl⟩
    · exact runs_pure _ ⟨S', rfl, hk⟩

/-- A procedure holding the tree `f() * 0` alone: a call of the register `f`, the literal `0`,
    and their product. -/
def callTimesZero : Procedure where
  address := 0
  exprs := #[some { kind := .reg "f" 64, parent := some (.expr ⟨1⟩) },
    some { kind := .call, operands := [⟨0⟩], parent := some (.expr ⟨3⟩) },
    some { kind := .val 0 32, parent := some (.expr ⟨3⟩) },
    some { kind := .binary .mul, operands := [⟨1⟩, ⟨2⟩] }]

/-- The shape of that tree. -/
def callTimesZeroShape : ExprShape := .node ⟨3⟩ [.node ⟨1⟩ [.node ⟨0⟩ []], .node ⟨2⟩ []]

theorem ids_callTimesZeroShape : callTimesZeroShape.ids = [⟨0⟩, ⟨1⟩, ⟨2⟩, ⟨3⟩] := by
  simp [callTimesZeroShape]

theorem callTimesZero_holds : callTimesZero.Holds callTimesZeroShape := by
  refine ⟨spans_node_iff.2 ⟨rfl, rfl, by decide, fun t ht => ?_⟩,
    by rw [ids_callTimesZeroShape]; decide⟩
  rcases List.mem_cons.1 ht with rfl | ht
  · refine spans_node_iff.2 ⟨rfl, rfl, by decide, fun t ht => ?_⟩
    rw [List.mem_singleton.1 ht]
    exact spans_node_iff.2 ⟨rfl, rfl, by simp, by simp⟩
  · rw [List.mem_singleton.1 ht]
    exact spans_node_iff.2 ⟨rfl, rfl, by simp, by simp⟩

theorem callTimesZero_laid : callTimesZeroShape.Laid callTimesZero := by
  intro x hx
  rw [ids_callTimesZeroShape] at hx
  simp only [List.mem_cons, List.not_mem_nil, or_false] at hx
  rcases hx with rfl | rfl | rfl | rfl <;>
    simp [callTimesZero, Procedure.node, Procedure.expr?, ExprKind.arity?]

end Simplifier

end Decompilation
