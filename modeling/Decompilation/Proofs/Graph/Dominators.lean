import Decompilation.Graph.Dominance
import Decompilation.Proofs.Graph.Construction

/-!
# The dominator tree is exact

The dominator tree of a graph built by the edits answers dominance exactly: `v` dominates `u`
in the tree (the walk up from `u` through immediate dominators meets `v`) exactly when `u` is
`v`, or `u` is reachable from the root and every path from the root to `u` passes through `v`;
and the immediate dominator of a node is the one strict dominator that every other strict
dominator dominates, none for the root and for unreachable nodes.

The proof follows the computation:

1. the tree's immediate dominators are those the Lengauer-Tarjan construction writes over the
   search from the root (`compute_eq_ok`), which are exact (`LengauerTarjan.idomOf_compute`);
2. the walk up the tree meets exactly the dominators (`dominates_compute`), by induction on the
   place in the search order, which falls at every step up: a strict dominator of a node is
   placed before it.

`compute_exact` puts these together for every graph built by the edits.
-/

namespace Decompilation

variable {K : Type} {g : Digraph K}

namespace SpanningTree

/-- In a sound search, a strict dominator of a reached node, for the search's root, is placed
    before it: it lies on the path to the node through nodes placed no later. -/
theorem Sound.idxOf_lt (ht : Sound g t) {v u : Nat} (hvu : g.StrictlyDominates t.root v u)
    (hu : u ∈ t.order.toList) : t.order.toList.idxOf v < t.order.toList.idxOf u := by
  obtain ⟨p, hp, hle⟩ := ht.exists_path_le hu
  obtain ⟨hv, hvle⟩ := hle v (hvu.mem hp)
  have hne : t.order.toList.idxOf v ≠ t.order.toList.idxOf u :=
    fun h => hvu.1 ((List.idxOf_inj hv).1 h)
  omega

end SpanningTree

namespace DominatorTree

open SpanningTree

/-! ### The tree of a rooted graph -/

/-- The dominator tree of a graph with root `r` is built over the search from `r`, with the
    immediate dominators that the Lengauer-Tarjan construction writes over that search. -/
theorem compute_eq_ok {r : Nat} (hr : g.root = some r) :
    ∃ t, compute g = .ok t ∧ t.spanning = fromRoot g r ∧
      t.idoms = LengauerTarjan.immediateDominators g (fromRoot g r) :=
  ⟨_, by simp only [compute, ofGraph, hr]; rfl, rfl, rfl⟩

section Exact

variable [DecidableEq K] (hg : g.Built) {r : Nat} (hr : g.root = some r) {t : DominatorTree}
  (ht : compute g = .ok t)
include hg hr ht

/-- The search of the tree, its root and size, and its immediate dominators, those the
    construction writes. -/
private theorem tree_facts :
    r < g.bound ∧ Sound g (fromRoot g r) ∧ t.root = r ∧ t.bound = g.bound ∧
      ∀ u, t.idom? u = ((LengauerTarjan.new (fromRoot g r) g.bound).compute g).idomOf u := by
  have hrb := hg.closed.root_lt r hr
  obtain ⟨t', ht', hs, hidoms⟩ := compute_eq_ok hr
  obtain rfl : t' = t := Except.ok.inj (ht'.symm.trans ht)
  obtain ⟨hsound, hroot, -⟩ := fromRoot_sound hg.closed hrb
  have hsize := (LengauerTarjan.idomOf_compute_of_reaches hg hr
    (by simp [ofGraph, hr] : ofGraph g = .ok (fromRoot g r))).1
  refine ⟨hrb, hsound, by rw [DominatorTree.root, hs, hroot], ?_, fun u => ?_⟩
  · rw [DominatorTree.bound, hidoms]
    exact hsize
  · rw [idom?, hidoms]
    rfl

/-- The tree has a slot per slot of the graph. -/
theorem bound_compute : t.bound = g.bound := (tree_facts hg hr ht).2.2.2.1

/-- The nodes reachable from the root are the nodes of the search. -/
private theorem mem_order {x : Nat} (hx : g.Reaches r x) : x ∈ (fromRoot g r).order.toList := by
  obtain ⟨hrb, hsound, -⟩ := tree_facts hg hr ht
  exact (hsound.contains_iff x).1 ((fromRoot_contains_iff hg.closed hrb).2 hx)

/-- A strict dominator of a node is placed before it in the search order. -/
private theorem idxOf_lt_of_strictlyDominates {v w : Nat} (h : g.StrictlyDominates r v w) :
    (fromRoot g r).order.toList.idxOf v < (fromRoot g r).order.toList.idxOf w := by
  obtain ⟨hrb, hsound, -⟩ := tree_facts hg hr ht
  obtain ⟨-, hroot, -⟩ := fromRoot_sound hg.closed hrb
  have h' : g.StrictlyDominates (fromRoot g r).root v w := by rw [hroot]; exact h
  exact hsound.idxOf_lt h' (mem_order hg hr ht h.reaches)

/-- The tree's immediate dominator of `u` is `d` exactly when `d` immediately dominates `u` in
    the graph. -/
theorem idom?_compute {d u : Nat} : t.idom? u = some d ↔ g.ImmediatelyDominates r d u := by
  rw [(tree_facts hg hr ht).2.2.2.2 u]
  exact LengauerTarjan.idomOf_compute hg hr (by simp [ofGraph, hr]) d u

/-- A node reachable from the root, other than the root, has an immediate dominator in the
    tree. -/
theorem idom?_compute_of_reaches {u : Nat} (hu : g.Reaches r u) (hur : u ≠ r) :
    ∃ d, t.idom? u = some d ∧ g.ImmediatelyDominates r d u := by
  obtain ⟨d, hd⟩ := (LengauerTarjan.idomOf_compute_of_reaches hg hr
    (by simp [ofGraph, hr] : ofGraph g = .ok (fromRoot g r))).2 u hu hur
  rw [← (tree_facts hg hr ht).2.2.2.2 u] at hd
  exact ⟨d, hd, (idom?_compute hg hr ht).1 hd⟩

/-- The root and the nodes not reachable from it have no immediate dominator in the tree: an
    immediate dominator strictly dominates, which only happens to reachable nodes other than
    the root. -/
theorem idom?_compute_eq_none {u : Nat} (hu : ¬(g.Reaches r u ∧ u ≠ r)) : t.idom? u = none := by
  cases hd : t.idom? u with
  | none => rfl
  | some d =>
    have hid := (idom?_compute hg hr ht).1 hd
    refine absurd ⟨hid.1.reaches, fun h => ?_⟩ hu
    subst h
    exact hid.1.1 (Digraph.dominates_root_iff.1 hid.1.2)

/-- The walk up the tree from `c` meets `v` exactly when `v` dominates `c`, given more fuel than
    the place of `c` in the search order: each step up goes to the immediate dominator, which
    is placed before. -/
theorem dominates_go_iff (v : Nat) : ∀ (fuel c : Nat),
    (fromRoot g r).order.toList.idxOf c < fuel →
      (dominates.go t v fuel c = true ↔ g.Dominates r v c)
  | 0, _, h => absurd h (Nat.not_lt_zero _)
  | fuel + 1, c, h => by
    obtain ⟨-, -, htroot, -, -⟩ := tree_facts hg hr ht
    rw [dominates.go]
    by_cases hcv : c = v
    · simp only [hcv, if_true, true_iff]
      exact .refl _ _
    rw [if_neg hcv]
    by_cases hcr : c = t.root
    · -- the walk stops at the root, which only the root dominates
      rw [if_pos hcr, htroot] at *
      subst hcr
      simp only [Bool.false_eq_true, false_iff]
      exact fun hv => hcv (Digraph.dominates_root_iff.1 hv).symm
    rw [if_neg hcr]
    rw [htroot] at hcr
    split
    · next d hd =>
      have himm := (idom?_compute hg hr ht).1 hd
      have hlt := idxOf_lt_of_strictlyDominates hg hr ht himm.1
      rw [dominates_go_iff v fuel d (by omega)]
      constructor
      · intro hvd
        exact hvd.trans himm.1.2
      · intro hvc
        by_cases hvd : v = d
        · rw [hvd]
          exact .refl _ _
        · exact himm.2 v ⟨Ne.symm hcv, hvc⟩ hvd
    · next hnone =>
      -- a node without immediate dominator is the root or unreachable, dominated by itself only
      simp only [Bool.false_eq_true, false_iff]
      rintro (h | ⟨hreach, -⟩)
      · exact hcv h
      · obtain ⟨d, hd, -⟩ := idom?_compute_of_reaches hg hr ht hreach hcr
        rw [hd] at hnone
        cases hnone

/-- The tree answers dominance exactly. -/
theorem dominates_compute (v u : Nat) : t.dominates v u = true ↔ g.Dominates r v u := by
  obtain ⟨-, hsound, -, hbound, -⟩ := tree_facts hg hr ht
  rw [dominates, hbound]
  exact dominates_go_iff hg hr ht v _ u
    (Nat.lt_succ_of_le (List.idxOf_le_length.trans hsound.length_le))

end Exact

/-- The dominator tree of a graph built by the edits, with root `r`, is computed and answers
    dominance exactly: `v` dominates `u` in the tree exactly when `u` is `v`, or `u` is
    reachable from `r` and every path from `r` to `u` passes through `v`. The immediate
    dominator of a node is the strict dominator of it that every other one dominates; every
    node reachable from `r` other than `r` has one, and the root and the nodes not reachable
    from it have none. -/
theorem compute_exact [DecidableEq K] {r : Nat} (hg : g.Built) (hr : g.root = some r) :
    ∃ t, compute g = .ok t ∧ (∀ v u, t.dominates v u = true ↔ g.Dominates r v u) ∧
      (∀ d u, t.idom? u = some d ↔ g.ImmediatelyDominates r d u) ∧
      (∀ u, g.Reaches r u → u ≠ r → ∃ d, t.idom? u = some d) ∧
      (∀ u, ¬g.Reaches r u ∨ u = r → t.idom? u = none) := by
  obtain ⟨t, ht, -⟩ := compute_eq_ok hr
  refine ⟨t, ht, dominates_compute hg hr ht, fun d u => idom?_compute hg hr ht,
    fun u hu hur => ?_, fun u hu => idom?_compute_eq_none hg hr ht ?_⟩
  · obtain ⟨d, hd, -⟩ := idom?_compute_of_reaches hg hr ht hu hur
    exact ⟨d, hd⟩
  · rintro ⟨hreach, hne⟩
    rcases hu with hu | rfl
    · exact hu hreach
    · exact hne rfl

theorem compute_exact_diamond : diamond.Built ∧ diamond.root = some 0 ∧
    ∃ t, compute diamond = .ok t ∧ (∀ v u, t.dominates v u = true ↔ diamond.Dominates 0 v u) ∧
      (∀ d u, t.idom? u = some d ↔ diamond.ImmediatelyDominates 0 d u) ∧
      (∀ u, diamond.Reaches 0 u → u ≠ 0 → ∃ d, t.idom? u = some d) ∧
      (∀ u, ¬diamond.Reaches 0 u ∨ u = 0 → t.idom? u = none) :=
  ⟨diamond_built, rfl, compute_exact diamond_built rfl⟩

end DominatorTree

end Decompilation
