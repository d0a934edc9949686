import Decompilation.Proofs.Graph.Subtrees

/-!
# Semidominators

Over the depth-first tree of a rooted graph, a node `x` *semi-reaches* a node `w` when some
path leads from `x` to `w` whose inner nodes are all numbered after `w`. The *semidominator*
of `w` is the node numbered first among those that semi-reach it. The construction of
dominators finds the semidominators first, and obtains each immediate dominator from them by
one of two rules. This module proves those rules about the graph and its tree alone.

* `Shaped.sdom_below`: the semidominator of a node lies strictly above it in the tree;
* `Shaped.below_of_strictlyDominates`: so does every strict dominator, and
  `Shaped.below_sdom`: every strict dominator lies above the semidominator too;
* `Shaped.exists_entry`: a path from the root that misses an ancestor `a` of `w` enters the
  stretch of tree path from `a` down to `w`, at a node semi-reached from a node numbered before
  `a`;
* `Shaped.immediatelyDominates_sdom`: when no node of the tree path strictly between the
  semidominator `s` of `w` and `w` is semi-reached from a node numbered before `s`, `s` is the
  immediate dominator of `w`;
* `Shaped.immediatelyDominates_of_lower`: otherwise `w` has the immediate dominator of a node
  `y` of that stretch whose semidominator is numbered first;
* `Shaped.exists_candidate`: a node that semi-reaches `w` reaches it by an edge, or
  semi-reaches a node above a predecessor of `w`, both numbered after `w`.
-/

namespace Decompilation

namespace SpanningTree

variable {K : Type} {g : Digraph K} {t : SpanningTree}

variable (g) in
/-- `s` is the semidominator of `w`: a reached node that semi-reaches `w`, numbered no later
    than any reached node that does. -/
structure IsSdom (t : SpanningTree) (w s : Nat) : Prop where
  contains : t.contains s = true
  above : Above g t (t.num w) s w
  least : ∀ v, t.contains v = true → Above g t (t.num w) v w → t.num s ≤ t.num v

namespace Shaped

variable {r a d d' s s' w x y z u v : Nat} (hs : Shaped g r t)
include hs

/-- The root reaches every node of the tree, along the tree path. -/
theorem reaches (hx : t.contains x = true) : g.Reaches r x :=
  (hs.exists_tree_path (hs.below_root x hx)).elim fun _ h => h.1.reaches

/-- A reached node other than the root is numbered after it. -/
theorem num_pos (hx : t.contains x = true) (hxr : x ≠ r) : 0 < t.num x := by
  by_contra h
  exact hxr (hs.eq_of_num_eq hx hs.contains_root (by rw [hs.num_root]; omega))

/-- Along an edge into a path that starts at `y`, the least node `u` of the path is reached
    from the source of the edge through nodes numbered after `u`. -/
theorem above_of_least (hxy : y ∈ g.succs x) (hy : t.contains y = true)
    (hu : t.contains u = true) (hle : t.num u ≤ t.num y)
    (hpre : u = y ∨ Above g t (t.num u) y u) : Above g t (t.num u) x u := by
  by_cases hyu : y = u
  · subst hyu
    exact .edge hxy
  · rcases hpre with rfl | habove
    · exact absurd rfl hyu
    · exact .step hxy hy (lt_of_le_of_ne hle fun h => hyu (hs.eq_of_num_eq hy hu h.symm)) habove

/-- Two semidominators of one node are the same node. -/
theorem sdom_unique (h₁ : IsSdom g t w s) (h₂ : IsSdom g t w s') : s = s' :=
  hs.eq_of_num_eq h₁.contains h₂.contains
    (le_antisymm (h₁.least s' h₂.contains h₂.above) (h₂.least s h₁.contains h₁.above))

/-- The semidominator of a reached node other than the root lies strictly above it in the tree.
    The node's parent semi-reaches it along the tree edge, so the semidominator is numbered
    before the node; on a path that semi-reaches the node from it, the semidominator is then
    the least node, and the least node of a path lies above the path's end. -/
theorem sdom_below (hw : t.contains w = true) (hwr : w ≠ r) (h : IsSdom g t w s) :
    t.Below s w ∧ t.num s < t.num w := by
  obtain ⟨p, hp⟩ := hs.exists_parent? hw hwr
  obtain ⟨hpc, hpw⟩ := num_lt_of_parent? hs.parentsFirst hp
  have hsw : t.num s < t.num w := (h.least p hpc (.edge (hs.parent_edge w p hp))).trans_lt hpw
  obtain ⟨q, hq, hmem⟩ := h.above.exists_path
  obtain ⟨u, hu, hmin, huw, -⟩ := hs.exists_least hq h.contains
  have hus := hmin s hq.source_mem
  obtain rfl : u = s := by
    rcases hmem u hu with rfl | rfl | hlt
    · rfl
    · omega
    · omega
  exact ⟨huw, hsw⟩

/-- A strict dominator of a reached node lies strictly above it in the tree: the tree path
    from the root passes it. -/
theorem below_of_strictlyDominates (hw : t.contains w = true)
    (h : g.StrictlyDominates r d w) : t.Below d w ∧ t.num d < t.num w := by
  obtain ⟨p, hp, hmem⟩ := hs.exists_tree_path (hs.below_root w hw)
  have hdw := (hmem d (h.mem hp)).2
  exact ⟨hdw, hdw.num_lt hs.parentsFirst hw h.1⟩

/-- Every strict dominator of `w` lies above its semidominator `s`: the tree path to `s`
    followed by a path on which `s` semi-reaches `w` is a path to `w`, and the strict dominator
    is none of the nodes after `s`, which are numbered after `w` or are `w`. -/
theorem below_sdom (hw : t.contains w = true) (h : IsSdom g t w s)
    (hd : g.StrictlyDominates r d w) : t.Below d s := by
  obtain ⟨p, hp, hmem⟩ := hs.exists_tree_path (hs.below_root s h.contains)
  obtain ⟨q, hq, hqmem⟩ := h.above.exists_path
  have hdw := (hs.below_of_strictlyDominates hw hd).2
  rcases List.mem_append.1 (hd.mem (hp.append hq)) with hdp | hdq
  · exact (hmem d hdp).2
  · rcases hqmem d (List.mem_of_mem_tail hdq) with rfl | rfl | hlt
    · exact .refl
    · exact absurd rfl hd.1
    · omega

/-- A strict dominator of `w` other than its semidominator `s` dominates `s`: from `s` a path
    semi-reaches `w` through nodes numbered after `w`, which the strict dominator is not. -/
theorem dominates_sdom (hw : t.contains w = true) (h : IsSdom g t w s)
    (hd : g.StrictlyDominates r d w) : g.Dominates r d s := by
  by_cases hds : d = s
  · subst hds
    exact .refl r d
  obtain ⟨q, hq, hqmem⟩ := h.above.exists_path
  have hdw := (hs.below_of_strictlyDominates hw hd).2
  refine hd.dominates_of_path (hs.reaches h.contains) hq fun c hc => ?_
  rcases hqmem c (List.mem_of_mem_tail hc) with rfl | rfl | hlt
  · exact Ne.symm hds
  · exact Ne.symm hd.1
  · rintro rfl
    omega

/-- A path from the root to `w` that misses an ancestor `a` of `w` enters the stretch of tree
    path from `a` down to `w` below `a`: at a node `y` that a node numbered before `a`
    semi-reaches. From the last node of the path numbered before `a` on, the path passes nodes
    numbered after `a` only, and the least of them is the node `y`. -/
theorem exists_entry {P : List Nat} (hP : g.Path r w P) (hw : t.contains w = true)
    (ha : t.Below a w) (haP : a ∉ P) :
    ∃ y x, t.Below a y ∧ y ≠ a ∧ t.Below y w ∧ t.contains x = true ∧ t.num x < t.num a ∧
      Above g t (t.num y) x y := by
  have hac := (ha.num_le hs.parentsFirst hw).1
  have har : a ≠ r := fun h => haP (h ▸ hP.source_mem)
  obtain ⟨x, Q, hx, hQ, hlast, hsub⟩ := hP.exists_last_suffix (fun z => t.num z < t.num a)
    ⟨r, hP.source_mem, by rw [hs.num_root]; exact hs.num_pos hac har⟩
  have hxc := hs.contains_of_path hP hs.contains_root x (hsub x hQ.source_mem)
  cases hQ with
  | single => exact absurd hx (not_lt.2 (ha.num_le hs.parentsFirst hw).2)
  | @cons _ x' _ Q' hxx' hQ' =>
    have hx'c := (hs.succ x x' hxc hxx').1
    -- after `x` the path passes nodes numbered after `a`: not before it, and `a` is not on it
    have hgt : ∀ c ∈ Q', t.num a < t.num c := fun c hc => by
      have hcP := hsub c (.tail _ hc)
      refine lt_of_le_of_ne (not_lt.1 (hlast c (by simpa using hc))) fun h => haP ?_
      rwa [hs.eq_of_num_eq hac (hs.contains_of_path hP hs.contains_root c hcP) h]
    obtain ⟨u, hu, hmin, huw, hpre⟩ := hs.exists_least hQ' hx'c
    have huc := hs.contains_of_path hQ' hx'c u hu
    refine ⟨u, x, hs.below_of_le ha huw hw (hgt u hu).le, fun h => ?_, huw, hxc, hx,
      hs.above_of_least hxx' hx'c huc (hmin x' hQ'.source_mem) hpre⟩
    have := hgt u hu
    rw [h] at this
    exact lt_irrefl _ this

/-- A path from the root to `y` that goes up the tree to `x`, on to `z` through nodes numbered
    after `z`, and down the tree from `z` to `y`: it misses every node numbered strictly between
    `x` and `z`. -/
theorem exists_path_around (hxc : t.contains x = true) (habove : Above g t (t.num z) x z)
    (hzy : t.Below z y) (hy : t.contains y = true) :
    ∃ P, g.Path r y P ∧ ∀ c ∈ P, t.num c ≤ t.num x ∨ t.num z ≤ t.num c := by
  obtain ⟨P₁, hP₁, hmem₁⟩ := hs.exists_tree_path (hs.below_root x hxc)
  obtain ⟨P₂, hP₂, hmem₂⟩ := habove.exists_path
  obtain ⟨P₃, hP₃, hmem₃⟩ := hs.exists_tree_path hzy
  refine ⟨_, (hP₁.append hP₂).append hP₃, fun c hc => ?_⟩
  rcases List.mem_append.1 hc with hc | hc
  · rcases List.mem_append.1 hc with hc | hc
    · exact .inl ((hmem₁ c hc).2.num_le hs.parentsFirst hxc).2
    · rcases hmem₂ c (List.mem_of_mem_tail hc) with rfl | rfl | hlt
      · exact .inl le_rfl
      · exact .inr le_rfl
      · exact .inr hlt.le
  · obtain ⟨hzc, hcy⟩ := hmem₃ c (List.mem_of_mem_tail hc)
    exact .inr (hzc.num_le hs.parentsFirst ((hcy.num_le hs.parentsFirst hy).1)).2

/-- The first rule: when no node strictly below the semidominator `s` of `w`, on the tree path
    down to `w`, is semi-reached from a node numbered before `s`, then `s` is the immediate
    dominator of `w`. A path from the root that missed `s` would enter the tree path below `s`
    at such a node. -/
theorem immediatelyDominates_sdom (hw : t.contains w = true) (hwr : w ≠ r) (h : IsSdom g t w s)
    (hrange : ∀ y x, t.Below s y → y ≠ s → t.Below y w → t.contains x = true →
      Above g t (t.num y) x y → t.num s ≤ t.num x) :
    g.ImmediatelyDominates r s w := by
  obtain ⟨hsw, hlt⟩ := hs.sdom_below hw hwr h
  have hsd : g.StrictlyDominates r s w := by
    refine ⟨fun h => lt_irrefl _ (h ▸ hlt), .inr ⟨hs.reaches hw, fun P hP => ?_⟩⟩
    by_contra hsP
    obtain ⟨y, x, hsy, hys, hyw, hxc, hxs, habove⟩ := hs.exists_entry hP hw hsw hsP
    exact absurd (hrange y x hsy hys hyw hxc habove) (not_le.2 hxs)
  exact ⟨hsd, fun d hd _ => hs.dominates_sdom hw h hd⟩

/-- The second rule: let `y`, strictly below the semidominator `s` of `w` on the tree path down
    to `w`, have a semidominator `s'` numbered before `s`, and let no node of that stretch be
    semi-reached from a node numbered before `s'`. Then the immediate dominator `d` of `y` is
    that of `w`.

    `d` lies above `s'` and so strictly above `s`. A path from the root to `w` that missed `d`
    would enter the tree path below `d` at a node `z` semi-reached from a node numbered before
    `d`: below `y` this contradicts the choice of `y`, and above it, going on down the tree to
    `y` gives a path to `y` that misses `d`. Every other strict dominator of `w` lies above `s`,
    so it strictly dominates `y` as well, and therefore dominates `d`. -/
theorem immediatelyDominates_of_lower (hw : t.contains w = true) (hwr : w ≠ r)
    (h : IsSdom g t w s) (hsy : t.Below s y) (hys : y ≠ s) (hyw : t.Below y w)
    (hy : IsSdom g t y s') (hlt : t.num s' < t.num s)
    (hrange : ∀ z x, t.Below s z → z ≠ s → t.Below z w → t.contains x = true →
      Above g t (t.num z) x z → t.num s' ≤ t.num x)
    (hd : g.ImmediatelyDominates r d y) : g.ImmediatelyDominates r d w := by
  have hyc := (hyw.num_le hs.parentsFirst hw).1
  have hsc := h.contains
  have hsy_lt := hsy.num_lt hs.parentsFirst hyc (Ne.symm hys)
  have hyr : y ≠ r := fun h => by rw [h, hs.num_root] at hsy_lt; omega
  obtain ⟨hs'y, -⟩ := hs.sdom_below hyc hyr hy
  obtain ⟨hsw, hsw_lt⟩ := hs.sdom_below hw hwr h
  -- `d` lies above `s'`, which lies above `s`
  have hds' := hs.below_sdom hyc hy hd.1
  have hds'_le := (hds'.num_le hs.parentsFirst hy.contains).2
  have hdw : t.Below d w := (hds'.trans (hs.below_of_le hs'y hsy hyc hlt.le)).trans hsw
  have hdom : g.Dominates r d w := by
    refine .inr ⟨hs.reaches hw, fun P hP => ?_⟩
    by_contra hdP
    obtain ⟨z, x, hdz, hzd, hzw, hxc, hxd, habove⟩ := hs.exists_entry hP hw hdw hdP
    have hzc := (hzw.num_le hs.parentsFirst hw).1
    by_cases hyz : t.num y < t.num z
    · -- `z` lies strictly below `y`, in the stretch that `y` was chosen from
      have hyz' := hs.below_of_le hyw hzw hw hyz.le
      have := hrange z x (hsy.trans hyz') (fun h => by rw [h] at hyz; omega) hzw hxc habove
      omega
    · -- `z` lies above `y`: around `d` down to `y`
      obtain ⟨P', hP', hmem⟩ := hs.exists_path_around hxc habove
        (hs.below_of_le hzw hyw hw (not_lt.1 hyz)) hyc
      have hdz_lt := hdz.num_lt hs.parentsFirst hzc (Ne.symm hzd)
      rcases hmem d (hd.1.mem hP') with hle | hle <;> omega
  refine ⟨⟨fun h => ?_, hdom⟩, fun d' hd' hne => hd.2 d' ⟨?_, ?_⟩ hne⟩
  · subst h
    omega
  · -- `d'` lies above `s`, so strictly above `y`
    have := (hs.below_sdom hw h hd').num_le hs.parentsFirst hsc
    rintro rfl
    omega
  · -- a path from the root to `y` that missed `d'` would go on down the tree to `w`
    obtain ⟨q, hq, hqmem⟩ := hs.exists_tree_path hyw
    have := ((hs.below_sdom hw h hd').num_le hs.parentsFirst hsc).2
    refine hd'.dominates_of_path (hs.reaches hyc) hq fun c hc => ?_
    obtain ⟨hyc', hcw⟩ := hqmem c (List.mem_of_mem_tail hc)
    have := (hyc'.num_le hs.parentsFirst ((hcw.num_le hs.parentsFirst hw).1)).2
    rintro rfl
    omega

/-- A node has one immediate dominator at most: of two, each would strictly dominate the
    other, and a strict dominator is numbered before the node it dominates. -/
theorem immediatelyDominates_unique (h₁ : g.ImmediatelyDominates r d u)
    (h₂ : g.ImmediatelyDominates r d' u) : d = d' := by
  by_contra hne
  have hu := hs.contains_of_reaches h₁.1.reaches
  have hd := ((hs.below_of_strictlyDominates hu h₁.1).1.num_le hs.parentsFirst hu).1
  have hd' := ((hs.below_of_strictlyDominates hu h₂.1).1.num_le hs.parentsFirst hu).1
  have h₁₂ := hs.below_of_strictlyDominates hd ⟨Ne.symm hne, h₁.2 d' h₂.1 (Ne.symm hne)⟩
  have h₂₁ := hs.below_of_strictlyDominates hd' ⟨hne, h₂.2 d h₁.1 hne⟩
  omega

/-- The nodes that semi-reach `w` through a predecessor `v` numbered after `w`: a node `s'`
    that semi-reaches a node `u` above `v` and numbered after `w` semi-reaches `w`, along the
    tree path from `u` down to `v` and the edge from `v` to `w`. -/
theorem above_of_forest (hvw : w ∈ g.succs v) (hv : t.contains v = true)
    (hwv : t.num w < t.num v) (huv : t.Below u v) (hwu : t.num w < t.num u)
    (habove : Above g t (t.num u) s' u) : Above g t (t.num w) s' w := by
  have huc := (huv.num_le hs.parentsFirst hv).1
  have h₁ : Above g t (t.num w) s' v := by
    by_cases hu : u = v
    · subst hu
      exact habove.mono hwu.le
    · exact (habove.mono hwu.le).trans huc hwu ((hs.above_of_below huv hv hu).mono hwu.le)
  exact h₁.trans hv hwv (.edge hvw)

/-- How a node `s` semi-reaches `w`: by an edge, or by semi-reaching a node `u` numbered
    after `w` that lies above a predecessor `v` of `w` numbered after `w`. The last inner node
    of the path is such a `v`, and its least inner node such a `u`. -/
theorem exists_candidate (h : Above g t (t.num w) s w) :
    w ∈ g.succs s ∨ ∃ v u, w ∈ g.succs v ∧ t.contains v = true ∧ t.num w < t.num v ∧
      t.Below u v ∧ t.num w < t.num u ∧ Above g t (t.num u) s u := by
  rcases h.split with hsw | ⟨y, v, q, hsy, hq, hall, hvw⟩
  · exact .inl hsw
  · have hyc := (hall y hq.source_mem).1
    obtain ⟨u, hu, hmin, huv, hpre⟩ := hs.exists_least hq hyc
    exact .inr ⟨v, u, hvw, (hall v hq.target_mem).1, (hall v hq.target_mem).2, huv,
      (hall u hu).2, hs.above_of_least hsy hyc (hall u hu).1 (hmin y hq.source_mem) hpre⟩

end Shaped

end SpanningTree

end Decompilation
