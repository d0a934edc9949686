import Mathlib
import Decompilation.Proofs.Graph.Dominators

/-!
# Dominance frontiers

The dominance frontier of a node `n` is where its dominance ends: the nodes `w` with an edge
from a node reachable from the root that `n` dominates, where `n` does not strictly dominate
`w`. The tree finds it bottom-up, after Cytron et al.: the frontier of `n` is made of the
successors of `n` whose immediate dominator is not `n`, and of the members of the frontiers of
its children that `n` does not strictly dominate (`inFrontier_iff`). A query fills in the
frontiers of the subtree below the node that are not known yet, children before parents, and
the tree remembers every one of them for the queries after it.

* `TreeOf`: what computing the tree of a graph fixes, its remembered frontiers aside;
* `MemoExact`: every frontier the tree remembers is the frontier of its node;
* `localFrontier_exact`: once the children's frontiers are known, the local frontier of a node
  is its frontier;
* `fillBelow_extends`, `dominanceFrontier_answers`: a query keeps every remembered frontier
  exact, and answers the frontier of its node;
* `queryFrontiers_exact`: the queries of any sequence, in any order, answer the frontier of
  their nodes.
-/

namespace Decompilation

/-! ### Ordered sets of nodes -/

@[simp]
theorem mem_insertOrdered {w y : Nat} {l : List Nat} :
    y ∈ insertOrdered w l ↔ y = w ∨ y ∈ l := by
  induction l with
  | nil => simp [insertOrdered]
  | cons x xs ih =>
    unfold insertOrdered
    split
    · simp
    · split
      · subst_vars
        simp
      · simp only [List.mem_cons, ih]
        tauto

theorem pairwise_insertOrdered {w : Nat} {l : List Nat} (hl : l.Pairwise (· < ·)) :
    (insertOrdered w l).Pairwise (· < ·) := by
  induction l with
  | nil => simp [insertOrdered]
  | cons x xs ih =>
    rw [List.pairwise_cons] at hl
    unfold insertOrdered
    split
    · next hwx =>
      refine List.pairwise_cons.2 ⟨fun y hy => ?_, List.pairwise_cons.2 hl⟩
      rcases List.mem_cons.1 hy with rfl | hy
      · exact hwx
      · exact hwx.trans (hl.1 y hy)
    · split
      · exact List.pairwise_cons.2 hl
      · -- `w` goes after `x`, which is below `w` and below all of `xs`
        refine List.pairwise_cons.2 ⟨fun y hy => ?_, ih hl.2⟩
        rcases mem_insertOrdered.1 hy with rfl | hy
        · omega
        · exact hl.1 y hy

@[simp]
theorem mem_insertWhere {keep : Nat → Bool} {l acc : List Nat} {y : Nat} :
    y ∈ insertWhere keep l acc ↔ y ∈ acc ∨ (y ∈ l ∧ keep y = true) := by
  induction l generalizing acc with
  | nil => simp [insertWhere]
  | cons x xs ih =>
    simp only [insertWhere, List.foldl_cons] at ih ⊢
    rw [ih]
    split
    · next hx =>
      simp only [mem_insertOrdered, List.mem_cons]
      constructor
      · rintro ((rfl | h) | h) <;> tauto
      · rintro (h | ⟨rfl | h, hk⟩) <;> tauto
    · next hx =>
      simp only [List.mem_cons]
      constructor
      · rintro (h | h) <;> tauto
      · rintro (h | ⟨rfl | h, hk⟩)
        · exact .inl h
        · exact absurd hk hx
        · exact .inr ⟨h, hk⟩

theorem pairwise_insertWhere {keep : Nat → Bool} {l acc : List Nat}
    (hacc : acc.Pairwise (· < ·)) : (insertWhere keep l acc).Pairwise (· < ·) := by
  induction l generalizing acc with
  | nil => exact hacc
  | cons x xs ih =>
    simp only [insertWhere, List.foldl_cons] at ih ⊢
    split
    · exact ih (pairwise_insertOrdered hacc)
    · exact ih hacc

/-! ### Dominance along an edge -/

namespace Digraph

variable {K : Type} {g : Digraph K} {r d w p : Nat}

/-- A strict dominator of `w` dominates every reachable node with an edge to `w`: a path to
    that node, extended by the edge, is a path to `w`. -/
theorem StrictlyDominates.dominates_of_succ (h : g.StrictlyDominates r d w)
    (hp : g.Reaches r p) (hw : w ∈ g.succs p) : g.Dominates r d p := by
  refine .inr ⟨hp, fun P hP => ?_⟩
  rcases List.mem_append.1 (h.mem (hP.snoc hw)) with h' | h'
  · exact h'
  · exact absurd (List.mem_singleton.1 h') h.1

/-- A reachable node strictly dominates a successor exactly when it is its immediate
    dominator: every strict dominator of the successor dominates the node. -/
theorem strictlyDominates_succ_iff {n : Nat} (hn : g.Reaches r n) (hw : w ∈ g.succs n) :
    g.StrictlyDominates r n w ↔ g.ImmediatelyDominates r n w :=
  ⟨fun hnw => ⟨hnw, fun _ hx _ => hx.dominates_of_succ hn hw⟩, fun himm => himm.1⟩

variable (g) in
/-- `w` is in the dominance frontier of `n`, for the root `r`: some node reachable from `r`
    that `n` dominates has an edge to `w`, and `n` does not strictly dominate `w`. -/
def InFrontier (r n w : Nat) : Prop :=
  (∃ p, g.Reaches r p ∧ w ∈ g.succs p ∧ g.Dominates r n p) ∧ ¬g.StrictlyDominates r n w

end Digraph

namespace DominatorTree

variable {K : Type} {g : Digraph K} {r : Nat}

open SpanningTree Decompilation.Digraph

/-! ### The tree of a graph -/

/-- The place of a node in the depth-first search of `g` from `r`. -/
def place (g : Digraph K) (r i : Nat) : Nat := (fromRoot g r).order.toList.idxOf i

/-- What computing the tree of `g` with root `r` fixes, the frontiers it remembers aside: the
    reachable nodes, dominance and immediate dominators, the children and the successor lists,
    and the number of slots, above every reachable node and its place in the search, where a
    strict dominator comes before the nodes it dominates. -/
structure TreeOf (g : Digraph K) (r : Nat) (t : DominatorTree) : Prop where
  bound : t.bound = g.bound
  reachable : ∀ i, t.isReachable i = true ↔ g.Reaches r i
  dominates : ∀ v u, t.dominates v u = true ↔ g.Dominates r v u
  idom : ∀ d u, t.idom? u = some d ↔ g.ImmediatelyDominates r d u
  exists_idom : ∀ u, g.Reaches r u → u ≠ r → ∃ d, t.idom? u = some d
  children : ∀ c k, k ∈ t.children c ↔ t.idom? k = some c
  succs : ∀ i, (t.succLists[i]?).getD [] = g.succs i
  lt_bound : ∀ i, g.Reaches r i → i < g.bound
  place_lt : ∀ i, g.Reaches r i → place g r i < g.bound
  place_lt_of_sdom : ∀ v u, g.StrictlyDominates r v u → place g r v < place g r u

@[simp]
theorem dominates_go_remember (t : DominatorTree) (i : Nat) (f : List Nat) (v : Nat) :
    ∀ fuel c, dominates.go (t.remember i f) v fuel c = dominates.go t v fuel c
  | 0, _ => rfl
  | fuel + 1, c => by
    simp only [dominates.go, dominates_go_remember t i f v fuel]
    rfl

@[simp]
theorem dominates_remember (t : DominatorTree) (i : Nat) (f : List Nat) (v u : Nat) :
    (t.remember i f).dominates v u = t.dominates v u :=
  dominates_go_remember t i f v _ u

@[simp]
theorem strictlyDominates_remember (t : DominatorTree) (i : Nat) (f : List Nat) (v u : Nat) :
    (t.remember i f).strictlyDominates v u = t.strictlyDominates v u := by
  simp [strictlyDominates]

namespace TreeOf

variable {t : DominatorTree}

/-- Remembering a frontier leaves the tree as it was. -/
theorem remember (h : TreeOf g r t) (i : Nat) (f : List Nat) : TreeOf g r (t.remember i f) where
  bound := h.bound
  reachable := h.reachable
  dominates v u := by rw [dominates_remember]; exact h.dominates v u
  idom := h.idom
  exists_idom := h.exists_idom
  children := h.children
  succs := h.succs
  lt_bound := h.lt_bound
  place_lt := h.place_lt
  place_lt_of_sdom := h.place_lt_of_sdom

theorem strictlyDominates_iff (h : TreeOf g r t) {v u : Nat} :
    t.strictlyDominates v u = true ↔ g.StrictlyDominates r v u := by
  simp [strictlyDominates, h.dominates, StrictlyDominates]

/-- Two nodes do not strictly dominate each other: each would come first in the search. -/
theorem not_sdom_of_sdom (h : TreeOf g r t) {v u : Nat} (hvu : g.StrictlyDominates r v u) :
    ¬g.StrictlyDominates r u v := fun huv => by
  have h₁ := h.place_lt_of_sdom v u hvu
  have h₂ := h.place_lt_of_sdom u v huv
  omega

/-- A node that `n` strictly dominates lies below a child of `n`: walking up the immediate
    dominators from it meets a node whose immediate dominator is `n`. The walk goes to earlier
    places of the search, on which the induction runs. -/
theorem exists_child (h : TreeOf g r t) {n : Nat} : ∀ p, g.StrictlyDominates r n p →
    ∃ c, g.ImmediatelyDominates r n c ∧ g.Dominates r c p := by
  intro p
  induction hp : place g r p using Nat.strong_induction_on generalizing p with
  | _ k ih =>
    intro hnp
    have hpr : p ≠ r := by
      rintro rfl
      exact hnp.1 (dominates_root_iff.1 hnp.2)
    obtain ⟨d, hd⟩ := h.exists_idom p hnp.reaches hpr
    have himm := (h.idom d p).1 hd
    by_cases hnd : n = d
    · subst hnd
      exact ⟨p, himm, .refl r p⟩
    · -- `n` dominates the immediate dominator of `p`, which comes earlier in the search
      have hsd : g.StrictlyDominates r n d := ⟨hnd, himm.2 n hnp hnd⟩
      obtain ⟨c, hc, hcd⟩ := ih _ (hp ▸ h.place_lt_of_sdom d p himm.1) d rfl hsd
      exact ⟨c, hc, hcd.trans himm.1.2⟩

end TreeOf

/-! ### The frontier from the successors and the children -/

variable {t : DominatorTree}

/-- The frontier of a reachable node `n` is made of the successors of `n` reachable from the
    root whose immediate dominator is not `n`, and of the members of its children's frontiers
    that `n` does not strictly dominate. -/
theorem inFrontier_iff (h : TreeOf g r t) {n w : Nat} (hn : g.Reaches r n) :
    g.InFrontier r n w ↔
      (w ∈ g.succs n ∧ g.Reaches r w ∧ ¬g.ImmediatelyDominates r n w) ∨
      (∃ c, g.ImmediatelyDominates r n c ∧ g.InFrontier r c w) ∧
        ¬g.StrictlyDominates r n w := by
  constructor
  · rintro ⟨⟨p, hp, hwp, hnp⟩, hnw⟩
    by_cases hpn : p = n
    · -- the edge leaves `n` itself
      subst hpn
      refine .inl ⟨hwp, ?_, fun himm => hnw himm.1⟩
      obtain ⟨P, hP⟩ := hp
      exact (hP.snoc hwp).reaches
    · -- the edge leaves a node below a child `c` of `n`, which does not strictly dominate `w`
      obtain ⟨c, hc, hcp⟩ := h.exists_child p ⟨Ne.symm hpn, hnp⟩
      refine .inr ⟨⟨c, hc, ⟨p, hp, hwp, hcp⟩, fun hcw => hnw ⟨fun hnw' => ?_, ?_⟩⟩,
        hnw⟩
      · subst hnw'
        exact h.not_sdom_of_sdom hc.1 hcw
      · exact hc.1.2.trans hcw.2
  · rintro (⟨hwn, -, himm⟩ | ⟨⟨c, hc, ⟨p, hp, hwp, hcp⟩, -⟩, hnw⟩)
    · exact ⟨⟨n, hn, hwn, .refl r n⟩,
        fun hnw => himm ((strictlyDominates_succ_iff hn hwn).1 hnw)⟩
    · exact ⟨⟨p, hp, hwp, hc.1.2.trans hcp⟩, hnw⟩

/-- Every frontier the tree remembers is kept in increasing order and is the frontier of its
    node, and there is a place for the frontier of every slot. -/
structure MemoExact (g : Digraph K) (r : Nat) (t : DominatorTree) : Prop where
  size : t.frontiers.size = t.bound
  exact : ∀ c f, t.memo c = some f →
    f.Pairwise (· < ·) ∧ ∀ w, w ∈ f ↔ g.InFrontier r c w

theorem mem_localFrontier {n w : Nat} :
    w ∈ t.localFrontier n ↔
      (w ∈ (t.succLists[n]?).getD [] ∧ t.isReachable w = true ∧ t.idom? w ≠ some n) ∨
      (∃ c ∈ t.children n, w ∈ (t.memo c).getD []) ∧ t.strictlyDominates n w = false := by
  -- the children's frontiers are added one after the other to the successors kept
  have hfold : ∀ (L acc : List Nat), w ∈ L.foldl (fun acc c => insertWhere
      (fun w => !t.strictlyDominates n w) ((t.memo c).getD []) acc) acc ↔
      w ∈ acc ∨ (∃ c ∈ L, w ∈ (t.memo c).getD []) ∧
        t.strictlyDominates n w = false := by
    intro L
    induction L with
    | nil => simp
    | cons c L ih =>
      intro acc
      rw [List.foldl_cons, ih, mem_insertWhere]
      simp only [List.mem_cons, exists_eq_or_imp, Bool.not_eq_eq_eq_not, Bool.not_true]
      tauto
  rw [localFrontier, hfold, mem_insertWhere]
  simp [bne_iff_ne]

theorem pairwise_localFrontier (n : Nat) : (t.localFrontier n).Pairwise (· < ·) := by
  have hfold : ∀ (L acc : List Nat), acc.Pairwise (· < ·) →
      (L.foldl (fun acc c => insertWhere (fun w => !t.strictlyDominates n w)
        ((t.memo c).getD []) acc) acc).Pairwise (· < ·) := by
    intro L
    induction L with
    | nil => exact fun _ h => h
    | cons c L ih => exact fun acc h => ih _ (pairwise_insertWhere h)
  exact hfold _ _ (pairwise_insertWhere List.Pairwise.nil)

/-- Once the frontiers of all children of a reachable node are remembered, exactly, its local
    frontier is its frontier. -/
theorem localFrontier_exact (h : TreeOf g r t) (hm : MemoExact g r t) {n : Nat}
    (hn : g.Reaches r n) (hkids : ∀ c ∈ t.children n, (t.memo c).isSome) (w : Nat) :
    w ∈ t.localFrontier n ↔ g.InFrontier r n w := by
  rw [mem_localFrontier, inFrontier_iff h hn, h.succs, h.reachable, Ne, h.idom,
    Bool.eq_false_iff, Ne, h.strictlyDominates_iff]
  -- the frontier remembered for a child is its frontier
  have hkid : ∀ c, g.ImmediatelyDominates r n c →
      (w ∈ (t.memo c).getD [] ↔ g.InFrontier r c w) := fun c hc => by
    obtain ⟨f, hf⟩ :=
      Option.isSome_iff_exists.1 (hkids c ((h.children n c).2 ((h.idom n c).2 hc)))
    rw [hf, Option.getD_some]
    exact (hm.exact c f hf).2 w
  have hbelow : (∃ c ∈ t.children n, w ∈ (t.memo c).getD []) ↔
      ∃ c, g.ImmediatelyDominates r n c ∧ g.InFrontier r c w := by
    refine exists_congr fun c => ?_
    rw [h.children, h.idom]
    exact and_congr_right (hkid c)
  rw [hbelow]

/-! ### Remembering frontiers -/

theorem memo_remember (t : DominatorTree) (i k : Nat) (f : List Nat) :
    (t.remember i f).memo k = if k = i ∧ i < t.frontiers.size then some f else t.memo k := by
  simp only [memo, remember, Array.getElem?_modify]
  by_cases hk : k = i
  · subst hk
    by_cases hi : k < t.frontiers.size <;> simp [hi]
  · simp [hk, Ne.symm hk]

@[simp]
theorem size_remember (t : DominatorTree) (i : Nat) (f : List Nat) :
    (t.remember i f).frontiers.size = t.frontiers.size := by
  simp [remember]

@[simp]
theorem bound_remember (t : DominatorTree) (i : Nat) (f : List Nat) :
    (t.remember i f).bound = t.bound := rfl

/-- `t'` is `t` with more frontiers remembered, all of them exact: the tree of the same graph,
    and every frontier `t` remembers remembered alike. -/
structure Extends (g : Digraph K) (r : Nat) (t t' : DominatorTree) : Prop where
  tree : TreeOf g r t'
  exact : MemoExact g r t'
  keeps : ∀ k f, t.memo k = some f → t'.memo k = some f

theorem Extends.refl (h : TreeOf g r t) (hm : MemoExact g r t) : Extends g r t t :=
  ⟨h, hm, fun _ _ hf => hf⟩

theorem Extends.trans {t' t'' : DominatorTree} (h₁ : Extends g r t t')
    (h₂ : Extends g r t' t'') : Extends g r t t'' :=
  ⟨h₂.tree, h₂.exact, fun k f hf => h₂.keeps k f (h₁.keeps k f hf)⟩

theorem Extends.isSome {t' : DominatorTree} (h : Extends g r t t') {k : Nat}
    (hk : (t.memo k).isSome) : (t'.memo k).isSome := by
  obtain ⟨f, hf⟩ := Option.isSome_iff_exists.1 hk
  rw [h.keeps k f hf]
  rfl

/-- Looking up a reachable node whose children's frontiers are all remembered gives its
    frontier, remembered from then on. -/
theorem getOrInit_extends (h : TreeOf g r t) (hm : MemoExact g r t) {n : Nat}
    (hn : g.Reaches r n) (hkids : ∀ c ∈ t.children n, (t.memo c).isSome) :
    Extends g r t (t.getOrInit n).2 ∧ (t.getOrInit n).2.memo n = some (t.getOrInit n).1 := by
  unfold getOrInit
  split
  · next f hf => exact ⟨.refl h hm, hf⟩
  · next hnone =>
    have hlt : n < t.frontiers.size := by
      rw [hm.size, h.bound]
      exact h.lt_bound n hn
    refine ⟨⟨h.remember n _, ⟨by simp [hm.size], fun c f hf => ?_⟩, fun k f hf => ?_⟩,
      ?_⟩
    · rw [memo_remember] at hf
      split at hf
      · -- the frontier just found
        next hc =>
        obtain ⟨rfl, -⟩ := hc
        cases hf
        exact ⟨pairwise_localFrontier c, localFrontier_exact h hm hn hkids⟩
      · exact hm.exact c f hf
    · -- `n` was not remembered, so a frontier remembered before is another node's
      have hkn : k ≠ n := by
        rintro rfl
        rw [hnone] at hf
        cases hf
      rw [memo_remember, if_neg fun hk => hkn hk.1, hf]
    · simp [memo_remember, hlt]

/-- Steps taken on the children of a node one after the other, each keeping the remembered
    frontiers exact and leaving its child's frontier remembered, leave all of them remembered. -/
theorem foldl_extends (F : DominatorTree → Nat → DominatorTree) :
    ∀ (L : List Nat), (∀ t₁ k, k ∈ L → TreeOf g r t₁ → MemoExact g r t₁ →
      Extends g r t₁ (F t₁ k) ∧ ((F t₁ k).memo k).isSome) →
    ∀ t₁, TreeOf g r t₁ → MemoExact g r t₁ →
      Extends g r t₁ (L.foldl F t₁) ∧ ∀ k ∈ L, ((L.foldl F t₁).memo k).isSome
  | [], _, t₁, h₁, hm₁ => ⟨.refl h₁ hm₁, by simp⟩
  | k :: L, hF, t₁, h₁, hm₁ => by
    obtain ⟨hstep, hk⟩ := hF t₁ k List.mem_cons_self h₁ hm₁
    obtain ⟨hrest, hall⟩ := foldl_extends F L (fun t₂ k' hk' => hF t₂ k' (.tail k hk'))
      _ hstep.tree hstep.exact
    rw [List.foldl_cons]
    refine ⟨hstep.trans hrest, fun k' hk' => ?_⟩
    rcases List.mem_cons.1 hk' with rfl | hk'
    · exact hrest.isSome hk
    · exact hall k' hk'

/-- Filling the subtree at a reachable node `n` remembers the frontier of `n`, and keeps every
    remembered frontier exact, given fuel for the height of the subtree: the places in the
    search grow downwards and stay below the number of slots. -/
theorem fillBelow_extends : ∀ (fuel : Nat) (t : DominatorTree) (n : Nat), TreeOf g r t →
    MemoExact g r t → g.Reaches r n → g.bound ≤ fuel + place g r n →
    Extends g r t (fillBelow fuel t n) ∧ ((fillBelow fuel t n).memo n).isSome
  | 0, t, n, h, hm, hn, hfuel => absurd (h.place_lt n hn) (by omega)
  | fuel + 1, t, n, h, hm, hn, hfuel => by
    -- a child comes after `n` in the search, so the fuel left covers its subtree; one already
    -- remembered is passed over
    have hstep : ∀ t₁ k, k ∈ t.children n → TreeOf g r t₁ → MemoExact g r t₁ →
        Extends g r t₁ (if (t₁.memo k).isSome then t₁ else fillBelow fuel t₁ k) ∧
          ((if (t₁.memo k).isSome then t₁ else fillBelow fuel t₁ k).memo k).isSome := by
      intro t₁ k hk h₁ hm₁
      have hkn := (h.idom n k).1 ((h.children n k).1 hk)
      split
      · next hsome => exact ⟨.refl h₁ hm₁, hsome⟩
      · have hplace := h.place_lt_of_sdom n k hkn.1
        exact fillBelow_extends fuel t₁ k h₁ hm₁ hkn.1.reaches (by omega)
    obtain ⟨hext, hall⟩ := foldl_extends
      (fun t k => if (t.memo k).isSome then t else fillBelow fuel t k) (t.children n) hstep t h hm
    rw [fillBelow]
    obtain ⟨hext', hmemo⟩ := getOrInit_extends hext.tree hext.exact hn fun c hc =>
      hall c ((h.children n c).2 ((h.idom n c).2 ((hext.tree.idom n c).1
        ((hext.tree.children n c).1 hc))))
    exact ⟨hext.trans hext', by rw [hmemo]; rfl⟩

variable (g r) in
/-- What a query answers: for a node reachable from the root its frontier, in increasing
    order, and for any other node the error saying it is unreachable. -/
def Answers (n : Nat) (a : Except Error (List Nat)) : Prop :=
  (g.Reaches r n →
      ∃ f, a = .ok f ∧ f.Pairwise (· < ·) ∧ ∀ w, w ∈ f ↔ g.InFrontier r n w) ∧
    (¬g.Reaches r n → a = .error (.unreachable s!"n{n}"))

/-- A query answers the frontier of its node, and leaves a tree that remembers only exact
    frontiers. -/
theorem dominanceFrontier_answers (h : TreeOf g r t) (hm : MemoExact g r t) (n : Nat) :
    Answers g r n (t.dominanceFrontier n).1 ∧ Extends g r t (t.dominanceFrontier n).2 := by
  unfold dominanceFrontier
  split
  · next hreach =>
    have hn := (h.reachable n).1 hreach
    split
    · next f hf =>
      exact ⟨⟨fun _ => ⟨f, rfl, hm.exact n f hf⟩, fun hn' => absurd hn hn'⟩, .refl h hm⟩
    · -- the subtree is filled, which remembers the frontier of `n` itself
      obtain ⟨hext, hsome⟩ := fillBelow_extends (t.bound + 1) t n h hm hn
        (by rw [h.bound]; omega)
      obtain ⟨f, hf⟩ := Option.isSome_iff_exists.1 hsome
      simp only [getOrInit, hf]
      exact ⟨⟨fun _ => ⟨f, rfl, hext.exact.exact n f hf⟩, fun hn' => absurd hn hn'⟩,
        hext⟩
  · next hreach =>
    have hn : ¬g.Reaches r n := fun hn => hreach ((h.reachable n).2 hn)
    exact ⟨⟨fun hn' => absurd hn' hn, fun _ => rfl⟩, .refl h hm⟩

/-- Every query of a sequence answers the frontier of its node, each on the tree the ones
    before left: by induction on the sequence, each tree remembering only exact frontiers. -/
theorem queryFrontiers_answers : ∀ (qs : List Nat) (t : DominatorTree), TreeOf g r t →
    MemoExact g r t → List.Forall₂ (Answers g r) qs (t.queryFrontiers qs)
  | [], _, _, _ => .nil
  | n :: qs, t, h, hm => by
    obtain ⟨ha, hext⟩ := dominanceFrontier_answers h hm n
    exact .cons ha (queryFrontiers_answers qs _ hext.tree hext.exact)

/-! ### The tree computed -/

/-- The search, the children, the successor lists and the frontiers of the tree computed for a
    graph with root `r`: the children of a node are the nodes it is the immediate dominator of,
    in dfnum order, and no frontier is known yet. -/
theorem compute_fields [DecidableEq K] (hr : g.root = some r) (ht : compute g = .ok t) :
    t.spanning = fromRoot g r ∧
      t.kids = (Array.range g.bound).map (fun c =>
        (fromRoot g r).order.toList.filter fun u => (t.idoms.getD u none) = some c) ∧
      t.succLists = (Array.range g.bound).map g.succs ∧
      t.frontiers = Array.replicate g.bound none := by
  simp only [compute, ofGraph, hr] at ht
  injection ht with ht
  subst ht
  exact ⟨rfl, rfl, rfl, rfl⟩

/-- The tree computed for a graph built by the edits, with root `r`, is the tree of the graph,
    and remembers no frontier yet. -/
theorem treeOf_compute [DecidableEq K] (hg : g.Built) (hr : g.root = some r)
    (ht : compute g = .ok t) : TreeOf g r t ∧ MemoExact g r t := by
  have hc := hg.closed
  have hrb := hc.root_lt r hr
  obtain ⟨hsound, hroot, -⟩ := fromRoot_sound hc hrb
  obtain ⟨hspan, hkids, hsuccs, hfront⟩ := compute_fields hr ht
  have hbound : t.bound = g.bound := bound_compute hg hr ht
  -- the nodes reachable from the root are the nodes of the search
  have hmem : ∀ i, g.Reaches r i ↔ i ∈ (fromRoot g r).order.toList := fun i =>
    (fromRoot_contains_iff hc hrb).symm.trans (hsound.contains_iff i)
  have hidom : ∀ d u, t.idom? u = some d ↔ g.ImmediatelyDominates r d u := fun d u =>
    idom?_compute hg hr ht
  refine ⟨⟨hbound, fun i => ?_, dominates_compute hg hr ht, hidom, fun u hu hur => ?_,
      fun c k => ?_, fun i => ?_, fun i hi => hsound.lt_bound i ((hmem i).1 hi),
      fun i hi => (List.idxOf_lt_length_of_mem ((hmem i).1 hi)).trans_le hsound.length_le,
      fun v u h => hsound.idxOf_lt (by rw [hroot]; exact h) ((hmem u).1 h.reaches)⟩,
    ⟨by simp [hfront, hbound], fun c f hf => ?_⟩⟩
  · rw [isReachable, hspan]
    exact fromRoot_contains_iff hc hrb
  · obtain ⟨d, hd, -⟩ := idom?_compute_of_reaches hg hr ht hu hur
    exact ⟨d, hd⟩
  · -- a node whose immediate dominator is `c` is reachable, and so is `c`
    have hk : t.idom? k = some c → k ∈ (fromRoot g r).order.toList ∧ c < g.bound := fun h' =>
      ⟨(hmem k).1 ((hidom c k).1 h').1.reaches,
        hsound.lt_bound c ((hmem c).1 ((hidom c k).1 h').1.reaches_left)⟩
    have hget : t.idoms.getD k none = t.idom? k := Array.getD_eq_getD_getElem? ..
    simp only [children, hkids, Array.getElem?_map, Array.getElem?_range]
    by_cases hcb : c < g.bound
    · simp only [hcb, if_true, Option.map_some, Option.getD_some, List.mem_filter, hget,
        decide_eq_true_eq]
      exact ⟨fun h' => h'.2, fun h' => ⟨(hk h').1, h'⟩⟩
    · simp only [hcb, if_false, Option.map_none, Option.getD_none, List.not_mem_nil, false_iff]
      exact fun h' => hcb (hk h').2
  · rw [hsuccs, Array.getElem?_map, Array.getElem?_range]
    by_cases hi : i < g.bound
    · simp [hi]
    · simp [hi, succs, vertex?, Array.getElem?_eq_none (Nat.le_of_not_lt hi)]
  · -- nothing is remembered yet
    rw [memo, hfront, Array.getElem?_replicate] at hf
    split at hf <;> simp at hf

/-- The dominance frontiers of a graph built by the edits, with root `r`, are exact and do not
    depend on the order of the queries: in any sequence of queries to the computed tree, each
    taken on the tree the ones before left, the query for a node reachable from `r` answers, in
    increasing order, the nodes `w` with an edge from a reachable node the node dominates that
    it does not strictly dominate, and the query for any other node answers that it is
    unreachable. -/
theorem queryFrontiers_exact [DecidableEq K] (hg : g.Built) (hr : g.root = some r) :
    ∃ t, compute g = .ok t ∧ ∀ qs : List Nat, List.Forall₂ (fun n a =>
      (g.Reaches r n → ∃ f, a = .ok f ∧ f.Pairwise (· < ·) ∧ ∀ w, w ∈ f ↔
        (∃ p, g.Reaches r p ∧ w ∈ g.succs p ∧ t.dominates n p = true) ∧
          t.strictlyDominates n w = false) ∧
      (¬g.Reaches r n → a = .error (.unreachable s!"n{n}"))) qs (t.queryFrontiers qs) := by
  obtain ⟨t, ht, -⟩ := compute_eq_ok hr
  obtain ⟨h, hm⟩ := treeOf_compute hg hr ht
  refine ⟨t, ht, fun qs =>
    (queryFrontiers_answers qs t h hm).imp fun n a ha => ⟨fun hn => ?_, ha.2⟩⟩
  obtain ⟨f, rfl, hsorted, hf⟩ := ha.1 hn
  refine ⟨f, rfl, hsorted, fun w => ?_⟩
  rw [hf w, InFrontier, Bool.eq_false_iff, Ne, h.strictlyDominates_iff]
  simp only [h.dominates]

theorem queryFrontiers_exact_diamond : diamond.Built ∧ diamond.root = some 0 ∧
    ∃ t, compute diamond = .ok t ∧ ∀ qs : List Nat, List.Forall₂ (fun n a =>
      (diamond.Reaches 0 n → ∃ f, a = .ok f ∧ f.Pairwise (· < ·) ∧ ∀ w, w ∈ f ↔
        (∃ p, diamond.Reaches 0 p ∧ w ∈ diamond.succs p ∧ t.dominates n p = true) ∧
          t.strictlyDominates n w = false) ∧
      (¬diamond.Reaches 0 n → a = .error (.unreachable s!"n{n}"))) qs (t.queryFrontiers qs) :=
  ⟨diamond_built, rfl, queryFrontiers_exact diamond_built rfl⟩

/-- In the diamond, the frontier of each branch is the join: asked first for a branch, then for
    the root, which passes over the branch already known, then for the join and the other
    branch. -/
example : ((compute diamond).toOption.map fun t =>
    (t.queryFrontiers [1, 0, 3, 2]).map Except.toOption) =
      some [some [3], some [], some [], some [3]] := by
  decide +kernel

end DominatorTree

end Decompilation
