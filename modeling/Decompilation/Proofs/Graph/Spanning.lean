import Mathlib.Data.List.Perm.Subperm
import Decompilation.Proofs.Graph.Preorder

/-!
# The depth-first search reaches exactly the reachable nodes

A search keeps four facts while it numbers nodes (`SpanningTree.Sound`): the visiting order
holds each slot of the graph at most once, a node counts as reached exactly when it is in the
order, and every node in the order is the root or a successor of a node put in the order
before it. The recursive procedure the search carries out (`SpanningTree.Walk`) also leaves
every node it reached with all its successors reached (`SpanningTree.Grows`).

For a closed graph, the search from a slot of the graph therefore reaches exactly the nodes
reachable from it (`fromRoot_contains_iff`), and each one along a path whose nodes were all
reached no later than itself (`exists_path_le`): a node on every path to it comes before it
in the order.
-/

namespace Decompilation

namespace SpanningTree

variable {K : Type} {g : Digraph K}

variable (g) in
/-- What a search keeps true: its order lists each slot at most once, the reached nodes are
    exactly those in the order, and each node in the order is the root or a successor of a node
    earlier in the order. -/
structure Sound (t : SpanningTree) : Prop where
  size_dfnums : t.dfnums.size = g.bound
  lt_bound : ∀ j ∈ t.order.toList, j < g.bound
  nodup : t.order.toList.Nodup
  contains_iff : ∀ j, t.contains j = true ↔ j ∈ t.order.toList
  linked : ∀ x ∈ t.order.toList, x = t.root ∨
    ∃ p ∈ t.order.toList, t.order.toList.idxOf p < t.order.toList.idxOf x ∧ x ∈ g.succs p

variable (g) in
/-- A search `t'` grown from `t`: sound, with the same root and `t`'s order continued, and every
    node it reached that `t` had not reached has all its successors reached. -/
structure Grows (t t' : SpanningTree) : Prop where
  sound : Sound g t'
  root_eq : t'.root = t.root
  order_append : ∃ l, t'.order.toList = t.order.toList ++ l
  closed : ∀ x, t'.contains x = true → t.contains x = true ∨ ∀ y ∈ g.succs x, t'.contains y = true

variable {t t₁ t₂ : SpanningTree} {i j : Nat} {parent : Option Nat}

/-- The search that has reached nothing is sound. -/
theorem sound_start (r : Nat) : Sound g (start r g.bound) where
  size_dfnums := by simp [start]
  lt_bound := by simp [start]
  nodup := by simp [start]
  contains_iff j := by
    simp only [start, contains, dfnum?, List.not_mem_nil, iff_false, Array.getElem?_replicate]
    split <;> simp
  linked := by simp [start]

/-- A sound search holds at most one entry per slot. -/
theorem Sound.length_le (ht : Sound g t) : t.order.toList.length ≤ g.bound := by
  have hsub : t.order.toList ⊆ List.range g.bound := fun j hj => by
    simpa using ht.lt_bound j hj
  simpa using (List.subperm_of_subset ht.nodup hsub).length_le

/-- Reaching grows along a continued order. -/
theorem Sound.contains_mono (ht : Sound g t₁) (ht' : Sound g t₂)
    (h : ∃ l, t₂.order.toList = t₁.order.toList ++ l) (hx : t₁.contains j = true) :
    t₂.contains j = true := by
  obtain ⟨l, hl⟩ := h
  rw [ht'.contains_iff, hl]
  exact List.mem_append_left _ ((ht.contains_iff j).1 hx)

/-- Visiting a new slot that is the root or a successor of a reached node keeps a search
    sound. -/
theorem Sound.visit (ht : Sound g t) (hi : i < g.bound) (hni : t.contains i = false)
    (hl : i = t.root ∨ ∃ p ∈ t.order.toList, i ∈ g.succs p) : Sound g (t.visit i parent) := by
  have hiL : i ∉ t.order.toList := fun h => by simp [(ht.contains_iff i).2 h] at hni
  have hidx : ∀ x ∈ t.order.toList, (t.order.toList ++ [i]).idxOf x = t.order.toList.idxOf x :=
    fun x hx => by simp [List.idxOf_append, hx]
  refine ⟨by simp [SpanningTree.visit, ht.size_dfnums], ?_, ?_, ?_, ?_⟩
  · intro j hj
    simp only [SpanningTree.visit, Array.toList_push, List.mem_append, List.mem_singleton] at hj
    rcases hj with hj | rfl
    · exact ht.lt_bound j hj
    · exact hi
  · simp only [SpanningTree.visit, Array.toList_push, List.nodup_append]
    refine ⟨ht.nodup, by simp, fun a ha b hb hab => ?_⟩
    rw [List.mem_singleton] at hb
    subst hb hab
    exact hiL ha
  · intro j
    simp only [SpanningTree.visit, contains, dfnum?, Array.getElem?_modify, Array.toList_push,
      List.mem_append, List.mem_singleton]
    by_cases hj : i = j
    · subst hj
      have : i < t.dfnums.size := ht.size_dfnums ▸ hi
      simp [this]
    · simpa [hj, Ne.symm hj, contains, dfnum?] using ht.contains_iff j
  · intro x hx
    simp only [SpanningTree.visit, Array.toList_push, List.mem_append, List.mem_singleton] at hx ⊢
    rcases hx with hx | rfl
    · -- an old node keeps its place and its link
      rcases ht.linked x hx with h | ⟨p, hp, hlt, hs⟩
      · exact .inl h
      · exact .inr ⟨p, .inl hp, by rwa [hidx p hp, hidx x hx], hs⟩
    · rcases hl with h | ⟨p, hp, hs⟩
      · exact .inl h
      · refine .inr ⟨p, .inl hp, ?_, hs⟩
        rw [hidx p hp, List.idxOf_append, if_neg hiL]
        simpa using List.idxOf_lt_length_of_mem hp

theorem Grows.trans (h₁ : Grows g t t₁) (h₂ : Grows g t₁ t₂) : Grows g t t₂ where
  sound := h₂.sound
  root_eq := h₂.root_eq.trans h₁.root_eq
  order_append := by
    obtain ⟨l₁, hl₁⟩ := h₁.order_append
    obtain ⟨l₂, hl₂⟩ := h₂.order_append
    exact ⟨l₁ ++ l₂, by rw [hl₂, hl₁, List.append_assoc]⟩
  closed x hx := by
    rcases h₂.closed x hx with hx₁ | hall
    · rcases h₁.closed x hx₁ with h | hall
      · exact .inl h
      · exact .inr fun y hy => h₁.sound.contains_mono h₂.sound h₂.order_append (hall y hy)
    · exact .inr hall

theorem Grows.refl (ht : Sound g t) : Grows g t t :=
  ⟨ht, rfl, ⟨[], by simp⟩, fun _ hx => .inl hx⟩

/-- Every node in a sound search's order is reached from the root along a path of nodes that
    come no later in the order. -/
theorem Sound.exists_path_le (ht : Sound g t) {x : Nat} (hx : x ∈ t.order.toList) :
    ∃ p, g.Path t.root x p ∧
      ∀ y ∈ p, y ∈ t.order.toList ∧ t.order.toList.idxOf y ≤ t.order.toList.idxOf x := by
  -- strong induction on the place of `x`: its link is to a node placed before it
  induction hn : t.order.toList.idxOf x using Nat.strongRecOn generalizing x with
  | ind n ih =>
    rcases ht.linked x hx with rfl | ⟨p, hp, hlt, hs⟩
    · exact ⟨[t.root], .single _, fun y hy => by simp_all⟩
    · obtain ⟨q, hq, hall⟩ := ih _ (hn ▸ hlt) hp rfl
      refine ⟨q ++ [x], hq.snoc hs, fun y hy => ?_⟩
      rcases List.mem_append.1 hy with hy | hy
      · obtain ⟨hyL, hle⟩ := hall y hy
        exact ⟨hyL, by omega⟩
      · rw [List.mem_singleton] at hy
        subst hy
        exact ⟨hx, by omega⟩

/-- A search in which every reached node has all its successors reached reaches the end of
    every path from a reached node. -/
theorem contains_of_path (hc : ∀ x, t.contains x = true → ∀ y ∈ g.succs x, t.contains y = true)
    {a b : Nat} {p : List Nat} (h : g.Path a b p) (ha : t.contains a = true) :
    t.contains b = true := by
  induction h with
  | single => exact ha
  | cons hab _ ih => exact ih (hc _ ha _ hab)

/-- A search grown from `t` with `i` numbered first is grown from `t`, once it has reached
    the successors of `i`. -/
theorem Grows.of_visit (ht : Sound g t) (hi : i < g.bound) (h : Grows g (t.visit i parent) t₁)
    (hall : ∀ y ∈ g.succs i, t₁.contains y = true) : Grows g t t₁ where
  sound := h.sound
  root_eq := h.root_eq
  order_append := by
    obtain ⟨l, hl⟩ := h.order_append
    exact ⟨i :: l, by rw [hl]; simp [SpanningTree.visit]⟩
  closed x hx := by
    -- a node new since `t` is `i`, or new since `i` was numbered
    rcases h.closed x hx with hx' | hclosed
    · rw [contains_visit (ht.size_dfnums ▸ hi), Bool.or_eq_true, decide_eq_true_eq] at hx'
      rcases hx' with rfl | hx'
      · exact .inr hall
      · exact .inl hx'
    · exact .inr hclosed

/-- Trying the successors `l` of a reached node `n` grows a sound search and reaches all of
    `l`. -/
theorem Tries.grows (hg : g.Closed) {n : Nat} {l : List Nat} {t' : SpanningTree}
    (h : Tries g n l t t') (ht : Sound g t) (hn : t.contains n = true) (hl : ∀ s ∈ l, s ∈ g.succs n) :
    Grows g t t' ∧ ∀ s ∈ l, t'.contains s = true := by
  induction h with
  | nil => exact ⟨.refl ht, by simp⟩
  | skip hs _ ih =>
    obtain ⟨hgrow, hall⟩ := ih ht hn fun s' hs' => hl s' (.tail _ hs')
    refine ⟨hgrow, fun s' hs' => ?_⟩
    rcases List.mem_cons.1 hs' with rfl | hs'
    · exact ht.contains_mono hgrow.sound hgrow.order_append hs
    · exact hall s' hs'
  | @call n s l t t₁ t' hns _ _ ih₁ ih₂ =>
    have hsn : s ∈ g.succs n := hl s List.mem_cons_self
    have hsb : s < g.bound := hg.succs_lt hsn
    -- the nested call starts by numbering `s`, a successor of the reached `n`
    have hv : Sound g (t.visit s (some n)) :=
      ht.visit hsb hns (.inr ⟨n, (ht.contains_iff n).1 hn, hsn⟩)
    have hsv : (t.visit s (some n)).contains s = true :=
      (hv.contains_iff s).2 (by simp [SpanningTree.visit])
    obtain ⟨hgrow₁, hall₁⟩ := ih₁ hv hsv fun _ h => h
    have hgrow : Grows g t t₁ := hgrow₁.of_visit ht hsb hall₁
    obtain ⟨hgrow₂, hall₂⟩ := ih₂ hgrow.sound
      (ht.contains_mono hgrow.sound hgrow.order_append hn) fun s' hs' => hl s' (.tail _ hs')
    refine ⟨hgrow.trans hgrow₂, fun s' hs' => ?_⟩
    rcases List.mem_cons.1 hs' with rfl | hs'
    · exact hgrow.sound.contains_mono hgrow₂.sound hgrow₂.order_append
        (hv.contains_mono hgrow₁.sound hgrow₁.order_append hsv)
    · exact hall₂ s' hs'

/-- The search from a slot of a closed graph is sound, and every node it reaches has all its
    successors reached. -/
theorem fromRoot_sound (hg : g.Closed) {r : Nat} (hr : r < g.bound) :
    Sound g (fromRoot g r) ∧ (fromRoot g r).root = r ∧ (fromRoot g r).contains r = true ∧
      ∀ x, (fromRoot g r).contains x = true → ∀ y ∈ g.succs x, (fromRoot g r).contains y = true := by
  have hv : Sound g ((start r g.bound).visit r none) :=
    (sound_start r).visit hr contains_start (.inl rfl)
  have hrv : ((start r g.bound).visit r none).contains r = true :=
    (hv.contains_iff r).2 (by simp [SpanningTree.visit])
  obtain ⟨hgrow₁, hall⟩ := (fromRoot_walk hg hr).grows hg hv hrv fun _ h => h
  have hgrow : Grows g (start r g.bound) (fromRoot g r) := hgrow₁.of_visit (sound_start r) hr hall
  refine ⟨hgrow.sound, hgrow.root_eq, hv.contains_mono hgrow₁.sound hgrow₁.order_append hrv,
    fun x hx => ?_⟩
  rcases hgrow.closed x hx with h | h
  · simp at h
  · exact h

/-- The search from a slot of a closed graph reaches exactly the nodes reachable from it. -/
theorem fromRoot_contains_iff (hg : g.Closed) {r j : Nat} (hr : r < g.bound) :
    (fromRoot g r).contains j = true ↔ g.Reaches r j := by
  obtain ⟨hs, hroot, hcr, hclosed⟩ := fromRoot_sound hg hr
  constructor
  · intro hj
    obtain ⟨p, hp, -⟩ := hs.exists_path_le ((hs.contains_iff j).1 hj)
    exact hroot ▸ hp.reaches
  · rintro ⟨p, hp⟩
    exact contains_of_path hclosed hp hcr

/-- The depth-first search from any slot of a graph built by the edits, deleted nodes included,
    is the recursive preorder walk from that slot: the walk ends in the search's order, dfnums
    and parents, and in nothing else. The search reaches exactly the nodes reachable from the
    slot, and each node it reaches stands at its dfnum in the order. -/
theorem fromRoot_preorder [DecidableEq K] (hg : g.Built) {r : Nat} (hr : r < g.bound) :
    Walk g r (fromRoot g r) ∧ (∀ t, Walk g r t → t = fromRoot g r) ∧
      (∀ j, (fromRoot g r).contains j = true ↔ g.Reaches r j) ∧
      ∀ j k, (fromRoot g r).dfnum? j = some k → (fromRoot g r).order[k]? = some j := by
  have hc := hg.closed
  have hw := fromRoot_walk hc hr
  refine ⟨hw, fun t ht => Tries.det ht hw, fun j => fromRoot_contains_iff hc hr, ?_⟩
  exact hw.numbered ((numbered_start r g.bound).visit r none)

/-- A cycle `0 → 1 → 0` with a branch `1 → 2` and a shortcut `0 → 2`, after node `2` is
    deleted. -/
def cycleCut : Digraph Nat where
  slots := #[{ key := 0, preds := [1], succs := [1] }, { key := 1, preds := [0], succs := [0] },
    { key := 2, removed := true }]
  index := [(1, 1), (0, 0)]
  root := some 0
  edgeCount := 2

theorem cycleCut_built : cycleCut.Built := by
  have h₁ := (Digraph.Built.empty (K := Nat)).addNode (k := 0) (i := 0)
    (by with_unfolding_all rfl)
  have h₂ := h₁.addNode (k := 1) (i := 1) (by with_unfolding_all rfl)
  have h₃ := h₂.addNode (k := 2) (i := 2) (by with_unfolding_all rfl)
  have h₄ := h₃.addEdge (a := 0) (b := 1) (by with_unfolding_all rfl)
  have h₅ := h₄.addEdge (a := 1) (b := 0) (by with_unfolding_all rfl)
  have h₆ := h₅.addEdge (a := 1) (b := 2) (by with_unfolding_all rfl)
  have h₇ := h₆.addEdge (a := 0) (b := 2) (by with_unfolding_all rfl)
  have h₈ := h₇.setRoot (k := 0) (i := 0) (by with_unfolding_all rfl)
  -- deleting the node takes both edges into it off the lists of the others
  exact cast (congrArg Digraph.Built (by with_unfolding_all rfl)) (h₈.delNode 2)

theorem fromRoot_preorder_cycleCut : cycleCut.Built ∧ 0 < cycleCut.bound ∧
    Walk cycleCut 0 (fromRoot cycleCut 0) ∧
      (∀ t, Walk cycleCut 0 t → t = fromRoot cycleCut 0) ∧
      (∀ j, (fromRoot cycleCut 0).contains j = true ↔ cycleCut.Reaches 0 j) ∧
      ∀ j k, (fromRoot cycleCut 0).dfnum? j = some k → (fromRoot cycleCut 0).order[k]? = some j :=
  ⟨cycleCut_built, by decide, fromRoot_preorder cycleCut_built (by decide)⟩

/-- The search from the root of the cut cycle numbers `0` and `1` and passes over the deleted
    slot. -/
example : (fromRoot cycleCut 0).order = #[0, 1] ∧ (fromRoot cycleCut 0).parent? 1 = some 0 := by
  decide

end SpanningTree

end Decompilation
