import Decompilation.Proofs.Graph.Forest

/-!
# Subtrees of the depth-first search

The search numbers a node, then runs the searches from those of its successors not numbered
yet, one after the other. The descendants of a node in the tree are therefore the nodes
numbered while its own search ran: a run of consecutive dfnums that starts at the node. Two
facts about the tree follow, and the construction of dominators rests on them:

* an edge leads to a node numbered before its source, or to a descendant of its source
  (`Shaped.succ`);
* the nodes numbered between a node and one of its descendants are descendants of it too
  (`Shaped.interval`).

They are proved by induction on the rules of the search (`Tries.explores`), for the nodes each
run of tries numbers, with the invariant that every node numbered after an ancestor of the
node being searched from lies below that ancestor (`Active`).

* `SpanningTree.Below`: the ancestor relation of the tree;
* `SpanningTree.Shaped`: what the search from the root keeps of its tree, and
  `fromRoot_shaped`: the search from a slot of a closed graph keeps it;
* `Shaped.below_of_path`: a path from below `a` that passes no node numbered before `a`
  stays below `a`;
* `Shaped.below_of_le`: the ancestors of a node form a chain ordered by dfnum;
* `Shaped.exists_least`: on every path, a node numbered least lies above the path's end and
  is reached from its start along nodes numbered after it.
-/

namespace Decompilation

namespace SpanningTree

variable {K : Type} {g : Digraph K}

/-- The dfnum of a node, and `unnumbered` for a node the search did not reach: the number the
    construction of dominators compares. -/
def num (t : SpanningTree) (x : Nat) : Nat := (t.dfnum? x).getD unnumbered

/-- `t.Below a x`: climbing the tree from `x` by parents reaches `a`. Every node lies below
    itself. -/
inductive Below (t : SpanningTree) (a : Nat) : Nat → Prop
  | refl : Below t a a
  | parent {x p : Nat} : t.parent? x = some p → Below t a p → Below t a x

variable {t t' t₁ : SpanningTree} {a b x y n s i : Nat} {l : List Nat}

theorem num_of_dfnum? (h : t.dfnum? x = some i) : t.num x = i := by simp [num, h]

/-- A reached node's number is a place in the order. -/
theorem num_lt_size (ht : Numbered t) (hx : t.contains x = true) : t.num x < t.order.size := by
  obtain ⟨i, hi⟩ := Option.isSome_iff_exists.1 hx
  rw [num_of_dfnum? hi]
  exact ht.lt_size hi

/-- Reached nodes with the same number are the same node: the one at that place. -/
theorem eq_of_num_eq (ht : Numbered t) (hx : t.contains x = true) (hy : t.contains y = true)
    (h : t.num x = t.num y) : x = y := by
  obtain ⟨i, hi⟩ := Option.isSome_iff_exists.1 hx
  obtain ⟨j, hj⟩ := Option.isSome_iff_exists.1 hy
  rw [num_of_dfnum? hi, num_of_dfnum? hj] at h
  subst h
  exact Option.some.inj ((ht x i hi).symm.trans (ht y i hj))

theorem contains_of_dfnum? (h : t.dfnum? x = some i) : t.contains x = true := by
  simp [contains, h]

theorem exists_dfnum?_of_contains (h : t.contains x = true) : ∃ i, t.dfnum? x = some i :=
  Option.isSome_iff_exists.1 h

theorem Below.trans (hab : t.Below a b) (hbx : t.Below b x) : t.Below a x := by
  induction hbx with
  | refl => exact hab
  | parent hp _ ih => exact .parent hp ih

/-- A node above a reached node is reached and numbered no later. -/
theorem Below.num_le (ht : t.ParentsFirst) (h : t.Below a x) (hx : t.contains x = true) :
    t.contains a = true ∧ t.num a ≤ t.num x := by
  induction h with
  | refl => exact ⟨hx, le_rfl⟩
  | @parent x p hp _ ih =>
    obtain ⟨i, j, hi, hj, hij⟩ := ht x p hp
    obtain ⟨ha, hle⟩ := ih (contains_of_dfnum? hj)
    refine ⟨ha, hle.trans ?_⟩
    rw [num_of_dfnum? hi, num_of_dfnum? hj]
    exact hij.le

/-- A node strictly above a reached node is numbered before it. -/
theorem Below.num_lt (ht : t.ParentsFirst) (h : t.Below a x) (hx : t.contains x = true)
    (hne : a ≠ x) : t.num a < t.num x := by
  cases h with
  | refl => exact absurd rfl hne
  | @parent _ p hp hap =>
    obtain ⟨i, j, hi, hj, hij⟩ := ht x p hp
    have hle := (hap.num_le ht (contains_of_dfnum? hj)).2
    rw [num_of_dfnum? hi]
    rw [num_of_dfnum? hj] at hle
    omega

/-- Over the nodes of `t`, a tree `t'` that gives them the same parents has the same
    ancestors. -/
theorem below_iff_of_parent? (ht : t.ParentsFirst)
    (hframe : ∀ y, t.contains y = true → t'.parent? y = t.parent? y) (hy : t.contains y = true) :
    t'.Below a y ↔ t.Below a y := by
  constructor
  · intro hb
    induction hb with
    | refl => exact .refl
    | @parent x p hp _ ih =>
      rw [hframe x hy] at hp
      obtain ⟨-, j, -, hj, -⟩ := ht x p hp
      exact .parent hp (ih (contains_of_dfnum? hj))
  · intro hb
    induction hb with
    | refl => exact .refl
    | @parent x p hp _ ih =>
      obtain ⟨-, j, -, hj, -⟩ := ht x p hp
      exact .parent ((hframe x hy).trans hp) (ih (contains_of_dfnum? hj))

/-! ### Numbering a node -/

section Visit

variable {o : Option Nat}

/-- Numbering a node leaves the nodes reached before as they were. -/
theorem visit_frame (hy : t.contains y = true) (hns : t.contains s = false) :
    (t.visit s o).dfnum? y = t.dfnum? y ∧ (t.visit s o).parent? y = t.parent? y := by
  have hys : y ≠ s := by
    rintro rfl
    simp [hy] at hns
  rw [dfnum?_visit, parent?_visit]
  simp [hys]

/-- A node the numbering reaches that was not reached before is the one numbered, and takes the
    next number. -/
theorem num_visit_of_new (hy : (t.visit s o).contains y = true)
    (hyt : t.contains y = false) : y = s ∧ (t.visit s o).num y = t.order.size := by
  simp only [contains, dfnum?_visit] at hy hyt
  split_ifs at hy with h
  · refine ⟨h.1, ?_⟩
    simp [num, dfnum?_visit, h]
  · simp [hyt] at hy

theorem num_visit_self (hs : s < t.dfnums.size) : (t.visit s o).num s = t.order.size := by
  simp [num, dfnum?_visit, hs]

theorem parent?_visit_self (hs : s < t.parents.size) : (t.visit s o).parent? s = o := by
  simp [parent?_visit, hs]

theorem contains_visit_of_contains (hy : t.contains y = true) (hns : t.contains s = false) :
    (t.visit s o).contains y = true := by
  simp only [contains, (visit_frame hy hns).1]
  exact hy

theorem num_visit_of_contains (hy : t.contains y = true) (hns : t.contains s = false) :
    (t.visit s o).num y = t.num y := by
  simp only [num, (visit_frame hy hns).1]

/-- Numbering a node of the graph reached from a node reached before keeps a search ordered. -/
theorem Ordered.visit (ht : Ordered g t) (hns : t.contains s = false)
    (hp : ∀ m, o = some m → t.contains m = true) : Ordered g (t.visit s o) where
  size_dfnums := by simp [ht.size_dfnums]
  size_parents := by simp [SpanningTree.visit, ht.size_parents]
  numbered := ht.numbered.visit s o
  parentsFirst := ht.parentsFirst.visit ht.numbered hns
    (by rw [ht.size_parents, ht.size_dfnums]) hp

end Visit

/-! ### The runs of tries -/

/-- Trying successors numbers new nodes only: a node reached before keeps its dfnum and its
    parent. -/
theorem Tries.frame (h : Tries g n l t t') (hy : t.contains y = true) :
    t'.dfnum? y = t.dfnum? y ∧ t'.parent? y = t.parent? y := by
  induction h with
  | nil => exact ⟨rfl, rfl⟩
  | skip _ _ ih => exact ih hy
  | @call n s l t t₁ t' hns _ _ ih₁ ih₂ =>
    have hv := visit_frame (o := some n) hy hns
    have hyv : (t.visit s (some n)).contains y = true := by simp only [contains, hv.1]; exact hy
    obtain ⟨h₁, h₁'⟩ := ih₁ hyv
    obtain ⟨h₂, h₂'⟩ := ih₂ (by simp only [contains, h₁]; exact hyv)
    exact ⟨h₂.trans (h₁.trans hv.1), h₂'.trans (h₁'.trans hv.2)⟩

theorem Tries.contains_mono (h : Tries g n l t t') (hy : t.contains y = true) :
    t'.contains y = true := by
  simp only [contains, (h.frame hy).1]
  exact hy

theorem Tries.num_eq (h : Tries g n l t t') (hy : t.contains y = true) : t'.num y = t.num y := by
  simp only [num, (h.frame hy).1]

theorem Tries.below_iff (h : Tries g n l t t') (ht : t.ParentsFirst) (hy : t.contains y = true) :
    t'.Below a y ↔ t.Below a y :=
  below_iff_of_parent? ht (fun _ hy => (h.frame hy).2) hy

/-- The nodes a run of tries numbers come after those numbered before it. -/
theorem Tries.size_le_num (h : Tries g n l t t') :
    t.order.size ≤ t'.order.size ∧
      ∀ y, t'.contains y = true → t.contains y = false → t.order.size ≤ t'.num y := by
  induction h with
  | nil => exact ⟨le_rfl, fun y h h' => by simp [h] at h'⟩
  | skip _ _ ih => exact ih
  | @call n s l t t₁ t' hns h₁ h₂ ih₁ ih₂ =>
    obtain ⟨hs₁, hnew₁⟩ := ih₁
    obtain ⟨hs₂, hnew₂⟩ := ih₂
    have hsize : (t.visit s (some n)).order.size = t.order.size + 1 := by simp [visit]
    refine ⟨by omega, fun y hy hyt => ?_⟩
    by_cases hy₁ : t₁.contains y = true
    · rw [h₂.num_eq hy₁]
      by_cases hyv : (t.visit s (some n)).contains y = true
      · rw [h₁.num_eq hyv, (num_visit_of_new hyv hyt).2]
      · have := hnew₁ y hy₁ (by simpa using hyv)
        omega
    · have := hnew₂ y hy (by simpa using hy₁)
      omega

/-- A node a run of tries reaches with a number below the size of the search it started from
    was reached before. -/
theorem Tries.contains_of_num_lt (h : Tries g n l t t') (hy : t'.contains y = true)
    (hlt : t'.num y < t.order.size) : t.contains y = true := by
  by_contra hyt
  have := (h.size_le_num).2 y hy (by simpa using hyt)
  omega

/-! ### What a run of tries builds -/

/-- The node `n` is active in `t`: every node numbered no earlier than an ancestor of `n` lies
    below that ancestor. While the search from `n` runs, the searches from its ancestors have
    not finished, and every node numbered since they started lies below them. -/
def Active (t : SpanningTree) (n : Nat) : Prop :=
  ∀ a y, t.Below a n → t.contains y = true → t.num a ≤ t.num y → t.Below a y

variable (g) in
/-- What trying the successors `l` of `n` builds, from `t` to `t'`: every node it numbers lies
    below `n`, and was reached along an edge from its parent; the successors of such a node are
    numbered before it or lie below it; the nodes numbered between one of its ancestors and it lie
    below that ancestor; and every node of `l` is reached, before the run or below `n`. -/
structure Explores (n : Nat) (l : List Nat) (t t' : SpanningTree) : Prop where
  below : ∀ y, t'.contains y = true → t.contains y = false → t'.Below n y
  edge : ∀ y p, t'.contains y = true → t.contains y = false → t'.parent? y = some p →
    y ∈ g.succs p
  succ : ∀ x y, t'.contains x = true → t.contains x = false → y ∈ g.succs x →
    t'.contains y = true ∧ (t'.num y < t'.num x ∨ t'.Below x y)
  interval : ∀ a x y, t'.contains x = true → t.contains x = false → t'.Below a x →
    t'.contains y = true → t'.num a ≤ t'.num y → t'.num y ≤ t'.num x → t'.Below a y
  tried : ∀ s ∈ l, t'.contains s = true ∧ (t.contains s = true ∨ t'.Below n s)

theorem Explores.nil : Explores g n [] t t where
  below _ h h' := by simp [h] at h'
  edge _ _ h h' := by simp [h] at h'
  succ _ _ h h' := by simp [h] at h'
  interval _ _ _ h h' := by simp [h] at h'
  tried := by simp

theorem Explores.skip (h : Explores g n l t t') (hs : t.contains s = true)
    (hmono : t'.contains s = true) : Explores g n (s :: l) t t' := by
  refine ⟨h.below, h.edge, h.succ, h.interval, fun s' hs' => ?_⟩
  rcases List.mem_cons.1 hs' with rfl | hs'
  · exact ⟨hmono, .inl hs⟩
  · exact h.tried s' hs'

section Call

variable (hg : g.Closed) (ht : Ordered g t) (hn : t.contains n = true)
  (hsn : s ∈ g.succs n) (hns : t.contains s = false) (hact : Active t n)
include hg ht hn hsn hns hact

/-- The search from a successor `s` just numbered starts active: only `s` is numbered after
    `s`, and the ancestors of `n` keep their descendants. -/
theorem Active.visit : Active (t.visit s (some n)) s := by
  have hs : s < t.dfnums.size := ht.size_dfnums ▸ hg.succs_lt hsn
  have hframe := fun y (hy : t.contains y = true) => visit_frame (o := some n) hy hns
  intro a y hb hy hle
  by_cases hyt : t.contains y = true
  · have hyn := (hframe y hyt).1
    cases hb with
    | refl =>
      -- nothing reached before comes after the new node
      obtain ⟨k, hk⟩ := exists_dfnum?_of_contains hyt
      have hlt := ht.numbered.lt_size hk
      rw [num_visit_self hs, num, hyn, hk, Option.getD_some] at hle
      omega
    | @parent _ p hp hap =>
      rw [parent?_visit_self (ht.size_parents ▸ ht.size_dfnums ▸ hs)] at hp
      cases hp
      have hap' := (below_iff_of_parent? ht.parentsFirst (fun y hy => (hframe y hy).2) hn).1 hap
      have ha := (hap'.num_le ht.parentsFirst hn).1
      have hb' := hact a y hap' hyt (by simpa [num, (hframe a ha).1, hyn] using hle)
      exact (below_iff_of_parent? ht.parentsFirst (fun y hy => (hframe y hy).2) hyt).2 hb'
  · obtain ⟨rfl, -⟩ := num_visit_of_new hy (by simpa using hyt)
    exact hb

end Call

/-- The nodes the search from a successor `s` of `n` numbers, `s` among them, lie below `n`. -/
theorem below_of_call (hg : g.Closed) (ht : Ordered g t) (hsn : s ∈ g.succs n)
    (hns : t.contains s = false) (h₁ : Tries g s (g.succs s) (t.visit s (some n)) t₁)
    (hE₁ : Explores g s (g.succs s) (t.visit s (some n)) t₁) (hy : t₁.contains y = true)
    (hyt : t.contains y = false) : t₁.Below n y := by
  have hsb := hg.succs_lt hsn
  have hsv : (t.visit s (some n)).contains s = true := by
    rw [contains_visit (ht.size_dfnums ▸ hsb)]
    simp
  -- `s` hangs from `n`, and the rest of the nodes numbered hang below `s`
  have hns₁ : t₁.Below n s :=
    .parent ((h₁.frame hsv).2.trans (parent?_visit_self (ht.size_parents ▸ hsb))) .refl
  by_cases hyv : (t.visit s (some n)).contains y = true
  · obtain ⟨rfl, -⟩ := num_visit_of_new hyv hyt
    exact hns₁
  · exact hns₁.trans (hE₁.below y hy (by simpa using hyv))

/-- After the search from a successor of `n`, `n` is still active: what that search numbered
    lies below `n`. -/
theorem Active.after (hg : g.Closed) (ht : Ordered g t) (hn : t.contains n = true)
    (hsn : s ∈ g.succs n) (hns : t.contains s = false) (hact : Active t n)
    (h₁ : Tries g s (g.succs s) (t.visit s (some n)) t₁)
    (hE₁ : Explores g s (g.succs s) (t.visit s (some n)) t₁) : Active t₁ n := by
  have hv : Ordered g (t.visit s (some n)) := ht.visit hns (by rintro _ ⟨⟩; exact hn)
  have hbelow : ∀ {a y}, t.contains y = true → (t₁.Below a y ↔ t.Below a y) := fun hy =>
    (h₁.below_iff hv.parentsFirst (contains_visit_of_contains hy hns)).trans
      (below_iff_of_parent? ht.parentsFirst (fun _ hy => (visit_frame hy hns).2) hy)
  have hnum : ∀ {y}, t.contains y = true → t₁.num y = t.num y := fun hy =>
    (h₁.num_eq (contains_visit_of_contains hy hns)).trans (num_visit_of_contains hy hns)
  intro a y ha hy hle
  have ha' := (hbelow hn).1 ha
  have hat := (ha'.num_le ht.parentsFirst hn).1
  by_cases hyt : t.contains y = true
  · rw [hnum hat, hnum hyt] at hle
    exact (hbelow hyt).2 (hact a y ha' hyt hle)
  · exact ha.trans (below_of_call hg ht hsn hns h₁ hE₁ hy (by simpa using hyt))

/-- A call on a successor `s` of `n` not numbered yet, followed by the tries of the rest of the
    successors, builds what the tries of all of them do. -/
theorem Explores.call (hg : g.Closed) (ht : Ordered g t) (hn : t.contains n = true)
    (hsn : s ∈ g.succs n) (hns : t.contains s = false) (hact : Active t n)
    (h₁ : Tries g s (g.succs s) (t.visit s (some n)) t₁)
    (hE₁ : Explores g s (g.succs s) (t.visit s (some n)) t₁)
    (h₂ : Tries g n l t₁ t') (hE₂ : Explores g n l t₁ t') : Explores g n (s :: l) t t' := by
  have hsb := hg.succs_lt hsn
  have hv : Ordered g (t.visit s (some n)) := ht.visit hns (by rintro _ ⟨⟩; exact hn)
  have hsv : (t.visit s (some n)).contains s = true := by
    rw [contains_visit (ht.size_dfnums ▸ hsb)]
    simp
  obtain ⟨ht₁, -⟩ := h₁.ordered hg hv hsv fun x hx => hg.succs_lt hx
  have hb₂ : ∀ {a y}, t₁.contains y = true → (t'.Below a y ↔ t₁.Below a y) := fun hy =>
    h₂.below_iff ht₁.parentsFirst hy
  have hnew : ∀ y, t₁.contains y = true → t.contains y = false → t'.Below n y := fun y hy hyt =>
    (hb₂ hy).2 (below_of_call hg ht hsn hns h₁ hE₁ hy hyt)
  -- the number `s` takes, after all numbered before the call
  have hnums : t₁.num s = t.order.size := (h₁.num_eq hsv).trans (num_visit_self (ht.size_dfnums ▸ hsb))
  refine ⟨fun y hy hyt => ?below, fun y p hy hyt hp => ?edge, fun x y hx hxt hxy => ?succ,
    fun a x y hx hxt hax hy hay hyx => ?interval, fun s' hs' => ?tried⟩
  case below =>
    by_cases hy₁ : t₁.contains y = true
    · exact hnew y hy₁ hyt
    · exact hE₂.below y hy (by simpa using hy₁)
  case edge =>
    by_cases hy₁ : t₁.contains y = true
    · rw [(h₂.frame hy₁).2] at hp
      by_cases hyv : (t.visit s (some n)).contains y = true
      · obtain ⟨rfl, -⟩ := num_visit_of_new hyv hyt
        rw [(h₁.frame hyv).2, parent?_visit_self (ht.size_parents ▸ hsb)] at hp
        cases hp
        exact hsn
      · exact hE₁.edge y p hy₁ (by simpa using hyv) hp
    · exact hE₂.edge y p hy (by simpa using hy₁) hp
  case succ =>
    by_cases hx₁ : t₁.contains x = true
    · rw [h₂.num_eq hx₁]
      by_cases hxv : (t.visit s (some n)).contains x = true
      · -- the successors of `s` were tried by its own search
        obtain ⟨rfl, -⟩ := num_visit_of_new hxv hxt
        obtain ⟨hy₁, hy⟩ := hE₁.tried y hxy
        refine ⟨h₂.contains_mono hy₁, ?_⟩
        rw [h₂.num_eq hy₁, hb₂ hy₁, hnums]
        rcases hy with hyv | hbelow
        · by_cases hyt : t.contains y = true
          · left
            rw [h₁.num_eq hyv, num_visit_of_contains hyt hns]
            exact num_lt_size ht.numbered hyt
          · obtain ⟨rfl, -⟩ := num_visit_of_new hyv (by simpa using hyt)
            exact .inr .refl
        · exact .inr hbelow
      · obtain ⟨hy₁, hy⟩ := hE₁.succ x y hx₁ (by simpa using hxv) hxy
        refine ⟨h₂.contains_mono hy₁, ?_⟩
        rw [h₂.num_eq hy₁, hb₂ hy₁]
        exact hy
    · exact hE₂.succ x y hx (by simpa using hx₁) hxy
  case interval =>
    by_cases hx₁ : t₁.contains x = true
    · have hax₁ := (hb₂ hx₁).1 hax
      have ha₁ := (hax₁.num_le ht₁.parentsFirst hx₁).1
      rw [h₂.num_eq hx₁] at hyx
      have hy₁ : t₁.contains y = true := h₂.contains_of_num_lt hy
        (hyx.trans_lt (num_lt_size ht₁.numbered hx₁))
      rw [h₂.num_eq ha₁, h₂.num_eq hy₁] at hay
      rw [h₂.num_eq hy₁] at hyx
      refine (hb₂ hy₁).2 ?_
      by_cases hxv : (t.visit s (some n)).contains x = true
      · obtain ⟨hxs, -⟩ := num_visit_of_new hxv hxt
        subst x
        rw [hnums] at hyx
        by_cases hyt : t.contains y = true
        · -- an ancestor of `s` other than `s` is one of `n`, and `n` is active
          have hyn : t₁.num y = t.num y :=
            (h₁.num_eq (contains_visit_of_contains hyt hns)).trans (num_visit_of_contains hyt hns)
          cases (h₁.below_iff hv.parentsFirst hsv).1 hax₁ with
          | refl =>
            have := num_lt_size ht.numbered hyt
            omega
          | @parent _ p hp hap =>
            rw [parent?_visit_self (ht.size_parents ▸ hsb)] at hp
            cases hp
            have hbv := fun {a y} (hy : t.contains y = true) =>
              (h₁.below_iff (a := a) hv.parentsFirst (contains_visit_of_contains hy hns)).trans
                (below_iff_of_parent? ht.parentsFirst (fun _ hy => (visit_frame hy hns).2) hy)
            have hapt := (below_iff_of_parent? ht.parentsFirst
              (fun _ hy => (visit_frame hy hns).2) hn).1 hap
            have hat := (hapt.num_le ht.parentsFirst hn).1
            have han : t₁.num a = t.num a :=
              (h₁.num_eq (contains_visit_of_contains hat hns)).trans (num_visit_of_contains hat hns)
            exact (hbv hyt).2 (hact a y hapt hyt (by omega))
        · -- the only node numbered no later than `s` and not before the call is `s`
          by_cases hyv : (t.visit s (some n)).contains y = true
          · obtain ⟨rfl, -⟩ := num_visit_of_new hyv (by simpa using hyt)
            exact hax₁
          · have := (h₁.size_le_num).2 y hy₁ (by simpa using hyv)
            simp only [SpanningTree.visit, Array.size_push] at this
            omega
      · exact hE₁.interval a x y hx₁ (by simpa using hxv) hax₁ hy₁ hay hyx
    · exact hE₂.interval a x y hx (by simpa using hx₁) hax hy hay hyx
  case tried =>
    rcases List.mem_cons.1 hs' with rfl | hs'
    · have hs₁ := h₁.contains_mono hsv
      exact ⟨h₂.contains_mono hs₁, .inr (hnew s' hs₁ hns)⟩
    · obtain ⟨hc, hor⟩ := hE₂.tried s' hs'
      refine ⟨hc, ?_⟩
      rcases hor with h | h
      · by_cases hst : t.contains s' = true
        · exact .inl hst
        · exact .inr (hnew s' h (by simpa using hst))
      · exact .inr h

/-- Trying successors of a reached, active node builds what `Explores` says. -/
theorem Tries.explores (hg : g.Closed) (h : Tries g n l t t') (ht : Ordered g t)
    (hn : t.contains n = true) (hl : ∀ s ∈ l, s ∈ g.succs n) (hact : Active t n) :
    Explores g n l t t' := by
  induction h with
  | nil => exact .nil
  | skip hs h ih =>
    exact (ih ht hn (fun s hs => hl s (.tail _ hs)) hact).skip hs (h.contains_mono hs)
  | @call n s l t t₁ t' hns h₁ h₂ ih₁ ih₂ =>
    have hsn := hl s List.mem_cons_self
    have hv : Ordered g (t.visit s (some n)) := ht.visit hns (by rintro _ ⟨⟩; exact hn)
    have hsv : (t.visit s (some n)).contains s = true := by
      rw [contains_visit (ht.size_dfnums ▸ hg.succs_lt hsn)]
      simp
    have hE₁ := ih₁ hv hsv (fun _ h => h) (Active.visit hg ht hn hsn hns hact)
    obtain ⟨ht₁, -⟩ := h₁.ordered hg hv hsv fun x hx => hg.succs_lt hx
    have hE₂ := ih₂ ht₁ (h₁.contains_mono (contains_visit_of_contains hn hns))
      (fun s hs => hl s (.tail _ hs)) (Active.after hg ht hn hsn hns hact h₁ hE₁)
    exact Explores.call hg ht hn hsn hns hact h₁ hE₁ h₂ hE₂

/-! ### The tree of the search from the root -/

/-- A parent is reached, and numbered before its child. -/
theorem num_lt_of_parent? (ht : t.ParentsFirst) {p : Nat} (h : t.parent? x = some p) :
    t.contains p = true ∧ t.num p < t.num x := by
  obtain ⟨i, j, hi, hj, hij⟩ := ht x p h
  rw [num_of_dfnum? hi, num_of_dfnum? hj]
  exact ⟨contains_of_dfnum? hj, hij⟩

/-- A node with a parent is reached. -/
theorem contains_of_parent? (ht : t.ParentsFirst) {p : Nat} (h : t.parent? x = some p) :
    t.contains x = true := by
  obtain ⟨i, -, hi, -⟩ := ht x p h
  exact contains_of_dfnum? hi

/-- A node strictly above `x` lies above the parent of `x`. -/
theorem Below.of_parent? {p : Nat} (h : t.Below a x) (hne : a ≠ x) (hp : t.parent? x = some p) :
    t.Below a p := by
  cases h with
  | refl => exact absurd rfl hne
  | parent hp' hap =>
    rw [hp] at hp'
    cases hp'
    exact hap

/-- Below a node strictly above `x` hangs a child of it above `x`. -/
theorem Below.exists_child (h : t.Below a x) (hne : a ≠ x) :
    ∃ c, t.parent? c = some a ∧ t.Below c x := by
  induction h with
  | refl => exact absurd rfl hne
  | @parent x p hp _ ih =>
    by_cases hap : a = p
    · subst hap
      exact ⟨x, hp, .refl⟩
    · obtain ⟨c, hc, hcp⟩ := ih hap
      exact ⟨c, hc, .parent hp hcp⟩

section Segment

variable {u : Nat} {xs : List Nat}

/-- The nodes a segment passes lie above its bottom. -/
theorem Segment.below_of_mem (h : t.Segment x a xs) (hu : u ∈ xs) : t.Below u x := by
  induction h with
  | parent hp =>
    obtain rfl := List.mem_singleton.1 hu
    exact .refl
  | cons hp _ ih =>
    rcases List.mem_cons.1 hu with rfl | hu
    · exact .refl
    · exact .parent hp (ih hu)

/-- The top of a segment lies above its bottom. -/
theorem Segment.below_top (h : t.Segment x a xs) : t.Below a x := by
  induction h with
  | parent hp => exact .parent hp .refl
  | cons hp _ ih => exact .parent hp ih

/-- A node above the bottom of a segment is one the segment passes, or lies above its top. -/
theorem Segment.mem_or_below (h : t.Segment x a xs) (hu : t.Below u x) :
    u ∈ xs ∨ t.Below u a := by
  induction h with
  | parent hp =>
    cases hu with
    | refl => exact .inl (List.mem_singleton_self _)
    | parent hp' hup =>
      rw [hp] at hp'
      cases hp'
      exact .inr hup
  | cons hp _ ih =>
    cases hu with
    | refl => exact .inl List.mem_cons_self
    | parent hp' hup =>
      rw [hp] at hp'
      cases hp'
      exact (ih hup).imp (List.mem_cons_of_mem _) id

end Segment

theorem ordered_start (r : Nat) : Ordered g (start r g.bound) where
  size_dfnums := by simp [start]
  size_parents := by simp [start]
  numbered := numbered_start r g.bound
  parentsFirst := parentsFirst_start r g.bound

variable (g) in
/-- What the search from `r` keeps of its tree: it is ordered; `r` is reached first and has no
    parent, and every reached node lies below it; each node hangs from its parent along an edge;
    an edge leads to a node numbered before its source or to a descendant of its source; and
    the nodes numbered between a node and one of its descendants are descendants of it too. -/
structure Shaped (r : Nat) (t : SpanningTree) : Prop where
  ordered : Ordered g t
  contains_root : t.contains r = true
  num_root : t.num r = 0
  parent_root : t.parent? r = none
  below_root : ∀ x, t.contains x = true → t.Below r x
  parent_edge : ∀ x p, t.parent? x = some p → x ∈ g.succs p
  succ : ∀ x y, t.contains x = true → y ∈ g.succs x →
    t.contains y = true ∧ (t.num y < t.num x ∨ t.Below x y)
  interval : ∀ a x y, t.Below a x → t.contains x = true → t.contains y = true →
    t.num a ≤ t.num y → t.num y ≤ t.num x → t.Below a y

/-- The search from a slot of a closed graph is shaped: the rules of the search, run from the
    slot, build what `Explores` says, and the slot itself is the one node reached at the
    start. -/
theorem fromRoot_shaped (hg : g.Closed) {r : Nat} (hr : r < g.bound) :
    Shaped g r (fromRoot g r) := by
  set t₀ := (start r g.bound).visit r none
  have hsize : (start r g.bound).dfnums.size = g.bound := by simp [start]
  have h₀ : Ordered g t₀ := (ordered_start r).visit contains_start (by rintro _ ⟨⟩)
  have hcontains : ∀ y, t₀.contains y = true ↔ y = r := fun y => by
    simp [t₀, contains_visit (by rw [hsize]; exact hr : r < (start r g.bound).dfnums.size),
      contains_start]
  have hr₀ : t₀.contains r = true := (hcontains r).2 rfl
  -- at the start only `r` is reached, so it is active and every node below it is itself
  have hact : Active t₀ r := fun a y ha hy _ => by
    obtain rfl := (hcontains y).1 hy
    obtain rfl := (hcontains a).1 ((ha.num_le h₀.parentsFirst hr₀).1)
    exact .refl
  have hw := fromRoot_walk hg hr
  have hE := Tries.explores hg hw h₀ hr₀ (fun _ h => h) hact
  obtain ⟨ht, -⟩ := Tries.ordered hg hw h₀ hr₀ fun x hx => hg.succs_lt hx
  have hroot : (fromRoot g r).parent? r = none :=
    (Tries.frame hw hr₀).2.trans (parent?_visit_self (by simpa [start] using hr))
  have hbelow : ∀ a, (fromRoot g r).Below a r → a = r := fun a h => by
    cases h with
    | refl => rfl
    | parent hp => simp [hroot] at hp
  refine ⟨ht, Tries.contains_mono hw hr₀,
    (Tries.num_eq hw hr₀).trans (num_visit_self (by simpa [start] using hr)), hroot,
    fun x hx => ?_, fun x p hp => ?_, fun x y hx hxy => ?_, fun a x y hax hx hy hay hyx => ?_⟩
  · by_cases hx₀ : t₀.contains x = true
    · obtain rfl := (hcontains x).1 hx₀
      exact .refl
    · exact hE.below x hx (by simpa using hx₀)
  · have hx := (num_lt_of_parent? ht.parentsFirst hp).1
    obtain ⟨i, -, hi, -⟩ := ht.parentsFirst x p hp
    by_cases hx₀ : t₀.contains x = true
    · obtain rfl := (hcontains x).1 hx₀
      simp [hroot] at hp
    · exact hE.edge x p (contains_of_dfnum? hi) (by simpa using hx₀) hp
  · by_cases hx₀ : t₀.contains x = true
    · -- the successors of `r` are the ones tried from the start
      obtain rfl := (hcontains x).1 hx₀
      obtain ⟨hy, hor⟩ := hE.tried y hxy
      refine ⟨hy, .inr ?_⟩
      rcases hor with hy₀ | h
      · obtain rfl := (hcontains y).1 hy₀
        exact .refl
      · exact h
    · exact hE.succ x y hx (by simpa using hx₀) hxy
  · by_cases hx₀ : t₀.contains x = true
    · obtain rfl := (hcontains x).1 hx₀
      obtain rfl := hbelow a hax
      obtain rfl := eq_of_num_eq ht.numbered hy hx (by omega)
      exact .refl
    · exact hE.interval a x y hx (by simpa using hx₀) hax hy hay hyx

variable (g) in
/-- `Above g t m x w`: a path of at least one edge from `x` to `w` whose inner nodes the search
    reached, all with numbers above `m`. -/
inductive Above (t : SpanningTree) (m : Nat) : Nat → Nat → Prop
  | edge {x w : Nat} : w ∈ g.succs x → Above t m x w
  | step {x y w : Nat} : y ∈ g.succs x → t.contains y = true → m < t.num y → Above t m y w →
      Above t m x w

namespace Above

variable {m m' u w : Nat}

/-- A bound on the inner nodes holds of every lower bound. -/
theorem mono (h : Above g t m x w) (hle : m' ≤ m) : Above g t m' x w := by
  induction h with
  | edge hw => exact .edge hw
  | step hy hyc hm _ ih => exact .step hy hyc (by omega) ih

/-- Two such paths joined at a reached node numbered above the bound make one. -/
theorem trans (h₁ : Above g t m x u) (hu : t.contains u = true) (hmu : m < t.num u)
    (h₂ : Above g t m u w) : Above g t m x w := by
  induction h₁ with
  | edge hxu => exact .step hxu hu hmu h₂
  | step hy hyc hm _ ih => exact .step hy hyc hm (ih hu hmu h₂)

/-- Such a path as a list of nodes: every node but its ends is numbered above the bound. -/
theorem exists_path (h : Above g t m x w) :
    ∃ p, g.Path x w p ∧ ∀ c ∈ p, c = x ∨ c = w ∨ m < t.num c := by
  induction h with
  | @edge x w hw => exact ⟨[x, w], .cons hw (.single w), by simp⟩
  | @step x y w hy _ hm _ ih =>
    obtain ⟨p, hp, hmem⟩ := ih
    refine ⟨x :: p, .cons hy hp, fun c hc => ?_⟩
    rcases List.mem_cons.1 hc with rfl | hc
    · exact .inl rfl
    · rcases hmem c hc with rfl | rfl | h
      · exact .inr (.inr hm)
      · exact .inr (.inl rfl)
      · exact .inr (.inr h)

/-- Such a path is one edge, or an edge, a path of reached nodes numbered above the bound, and
    an edge. -/
theorem split (h : Above g t m x w) :
    w ∈ g.succs x ∨ ∃ y v q, y ∈ g.succs x ∧ g.Path y v q ∧
      (∀ c ∈ q, t.contains c = true ∧ m < t.num c) ∧ w ∈ g.succs v := by
  induction h with
  | edge hw => exact .inl hw
  | @step x y w hy hyc hm _ ih =>
    refine .inr ?_
    rcases ih with hyw | ⟨y', v, q, hyy', hq, hall, hvw⟩
    · exact ⟨y, y, [y], hy, .single y, by simp [hyc, hm], hyw⟩
    · refine ⟨y, v, y :: q, hy, .cons hyy' hq, fun c hc => ?_, hvw⟩
      rcases List.mem_cons.1 hc with rfl | hc
      · exact ⟨hyc, hm⟩
      · exact hall c hc

end Above

namespace Shaped

variable {r : Nat} (hs : Shaped g r t)
include hs

theorem parentsFirst : t.ParentsFirst := hs.ordered.parentsFirst

theorem eq_of_num_eq (hx : t.contains x = true) (hy : t.contains y = true)
    (h : t.num x = t.num y) : x = y :=
  SpanningTree.eq_of_num_eq hs.ordered.numbered hx hy h

/-- A reached node is a slot of the graph. -/
theorem lt_bound (hx : t.contains x = true) : x < g.bound := by
  obtain ⟨i, hi⟩ := exists_dfnum?_of_contains hx
  rw [← hs.ordered.size_dfnums]
  by_contra h
  simp [dfnum?, Array.getElem?_eq_none (Nat.le_of_not_lt h)] at hi

/-- A reached node other than the root has a parent. -/
theorem exists_parent? (hx : t.contains x = true) (hxr : x ≠ r) : ∃ p, t.parent? x = some p := by
  cases hs.below_root x hx with
  | refl => exact absurd rfl hxr
  | parent hp => exact ⟨_, hp⟩

/-- The nodes of a path from a reached node are reached. -/
theorem contains_of_path {z : Nat} {p : List Nat} (hp : g.Path x z p) (hx : t.contains x = true) :
    ∀ c ∈ p, t.contains c = true := by
  induction hp with
  | single => simpa using hx
  | @cons x b z p hb _ ih =>
    intro c hc
    rcases List.mem_cons.1 hc with rfl | hc
    · exact hx
    · exact ih (hs.succ x b hx hb).1 c hc

/-- The root reaches along a path only nodes of the tree. -/
theorem contains_of_reaches (h : g.Reaches r x) : t.contains x = true :=
  h.elim fun _ hp => hs.contains_of_path hp hs.contains_root x hp.target_mem

/-- An edge out of a node below `a` leads below `a`, or to a node numbered before `a`. -/
theorem below_of_succ (ha : t.Below a x) (hx : t.contains x = true) (hy : y ∈ g.succs x) :
    t.Below a y ∨ t.num y < t.num a := by
  obtain ⟨hyc, hor⟩ := hs.succ x y hx hy
  rcases hor with hlt | hxy
  · by_cases hay : t.num a ≤ t.num y
    · exact .inl (hs.interval a x y ha hx hyc hay hlt.le)
    · exact .inr (by omega)
  · exact .inl (ha.trans hxy)

/-- A path from below `a` that passes no node numbered before `a` stays below `a`. -/
theorem below_of_path {z : Nat} {p : List Nat} (hp : g.Path x z p) (hx : t.contains x = true)
    (ha : t.Below a x) (hle : ∀ c ∈ p, t.num a ≤ t.num c) : ∀ c ∈ p, t.Below a c := by
  induction hp with
  | single => simpa using ha
  | @cons x b z p hb hrest ih =>
    -- the next node is numbered no earlier than `a`, so the edge to it stays below `a`
    have hab : t.Below a b := (hs.below_of_succ ha hx hb).resolve_right
      (not_lt.2 (hle b (.tail _ hrest.source_mem)))
    intro c hc
    rcases List.mem_cons.1 hc with rfl | hc
    · exact ha
    · exact ih (hs.succ x b hx hb).1 hab (fun c hc => hle c (.tail _ hc)) c hc

/-- The ancestors of a reached node form a chain: of two of them, the one numbered first lies
    above the other. -/
theorem below_of_le {w : Nat} (ha : t.Below a w) (hb : t.Below b w) (hw : t.contains w = true)
    (hle : t.num a ≤ t.num b) : t.Below a b := by
  induction hb with
  | refl => exact ha
  | @parent w p hp hbp ih =>
    obtain ⟨hpc, hpw⟩ := num_lt_of_parent? hs.parentsFirst hp
    cases ha with
    | refl =>
      -- `a` is `w` itself, numbered after its parent and so after `b`
      have := (hbp.num_le hs.parentsFirst hpc).2
      omega
    | parent hp' hap =>
      obtain rfl : p = _ := Option.some.inj (hp.symm.trans hp')
      exact ih hap hpc

/-- Two children `c` and `n` of one node are the same when `c`, numbered no later than `n`,
    lies above a node numbered no earlier than `n`: the nodes numbered in between lie below
    `c`, and `n` would lie strictly below its sibling. -/
theorem eq_of_siblings {c n p v : Nat} (hc : t.parent? c = some p) (hn : t.parent? n = some p)
    (hcv : t.Below c v) (hv : t.contains v = true) (hcn : t.num c ≤ t.num n)
    (hnv : t.num n ≤ t.num v) : c = n := by
  by_contra hne
  have hcn' := hs.interval c v n hcv hv (contains_of_parent? hs.parentsFirst hn) hcn hnv
  have hcp := (hcn'.of_parent? hne hn).num_le hs.parentsFirst
    (num_lt_of_parent? hs.parentsFirst hn).1
  have := (num_lt_of_parent? hs.parentsFirst hc).2
  omega

/-- The tree path from `a` down to `x`, a path of the graph through nodes between the two. -/
theorem exists_tree_path (h : t.Below a x) :
    ∃ p, g.Path a x p ∧ ∀ c ∈ p, t.Below a c ∧ t.Below c x := by
  induction h with
  | refl => exact ⟨[a], .single a, by simp [Below.refl]⟩
  | @parent x p hp hap ih =>
    obtain ⟨q, hq, hmem⟩ := ih
    refine ⟨q ++ [x], hq.snoc (hs.parent_edge x p hp), fun c hc => ?_⟩
    rcases List.mem_append.1 hc with hc | hc
    · exact ⟨(hmem c hc).1, .parent hp (hmem c hc).2⟩
    · obtain rfl := List.mem_singleton.1 hc
      exact ⟨.parent hp hap, .refl⟩

/-- The tree path from `u` down to another node `v`: its inner nodes lie strictly below `u`. -/
theorem above_of_below {u v : Nat} (h : t.Below u v) (hv : t.contains v = true) (hne : u ≠ v) :
    Above g t (t.num u) u v := by
  induction h with
  | refl => exact absurd rfl hne
  | @parent v p hp hup ih =>
    obtain ⟨hpc, -⟩ := num_lt_of_parent? hs.parentsFirst hp
    by_cases hpu : u = p
    · subst hpu
      exact .edge (hs.parent_edge v u hp)
    · exact (ih hpc hpu).trans hpc (hup.num_lt hs.parentsFirst hpc hpu)
        (.edge (hs.parent_edge v p hp))

/-- On a path from a reached node, a node numbered least lies above the path's end, and the path
    reaches it from its start along nodes all numbered after it. -/
theorem exists_least {z : Nat} {p : List Nat} (hp : g.Path y z p) (hy : t.contains y = true) :
    ∃ u ∈ p, (∀ c ∈ p, t.num u ≤ t.num c) ∧ t.Below u z ∧ (u = y ∨ Above g t (t.num u) y u) := by
  induction hp with
  | single y => exact ⟨y, by simp, by simp, .refl, .inl rfl⟩
  | @cons y b z p hb hp ih =>
    have hbc := (hs.succ y b hy hb).1
    obtain ⟨u, hu, hmin, huz, hpre⟩ := ih hbc
    by_cases hle : t.num y ≤ t.num u
    · -- `y` is least, and the rest of the path stays below it
      have hyb := (hs.below_of_succ .refl hy hb).resolve_right
        (not_lt.2 (hle.trans (hmin b hp.source_mem)))
      have hall := hs.below_of_path hp hbc hyb fun c hc => hle.trans (hmin c hc)
      refine ⟨y, List.mem_cons_self, fun c hc => ?_, hall z hp.target_mem, .inl rfl⟩
      rcases List.mem_cons.1 hc with rfl | hc
      · exact le_rfl
      · exact hle.trans (hmin c hc)
    · refine ⟨u, .tail _ hu, fun c hc => ?_, huz, .inr ?_⟩
      · rcases List.mem_cons.1 hc with rfl | hc
        · omega
        · exact hmin c hc
      · -- the path goes on from `b`, which is `u` or numbered after it
        by_cases hbu : b = u
        · subst hbu
          exact .edge hb
        · rcases hpre with rfl | habove
          · exact absurd rfl hbu
          · have hlt : t.num u < t.num b := lt_of_le_of_ne (hmin b hp.source_mem) fun h =>
              hbu (hs.eq_of_num_eq hbc (hs.contains_of_path hp hbc u hu) h.symm)
            exact .step hb hbc hlt habove

end Shaped

end SpanningTree

end Decompilation
