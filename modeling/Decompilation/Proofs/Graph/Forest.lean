import Decompilation.Graph.LengauerTarjan
import Decompilation.Proofs.Graph.Spanning

/-!
# The forest of the Lengauer-Tarjan construction

The construction links each node it has handled to its tree parent, and path compression later
links a node higher up, to where its ancestor is linked. So a link always spans a stretch of
tree path, from the node up to, not including, its ancestor (`SpanningTree.Segment`), and the
node's `best` is the node of least semidominator dfnum on that stretch (`Stretch`). What the
construction keeps of its forest is stated as `LengauerTarjan.Forest`:

* the tree's parents are numbered before their children (`SpanningTree.ParentsFirst`), so links
  lead to smaller dfnums, and every dfnum is less than the number of slots;
* every link spans a stretch of linked nodes, with the node's best the least on it;
* a node not linked is its own best.

Each step the construction takes keeps it: linking a node to its tree parent
(`Forest.link`), recording a semidominator for a node not yet linked (`Forest.assignSemi`), and
compressing a link that ends at a linked node (`Forest.shortcut`), which joins two stretches.
The search from a slot of a closed graph gives a tree to start from (`fromRoot_ordered`).
-/

namespace Decompilation

namespace SpanningTree

variable {K : Type} {g : Digraph K}

/-- Every tree parent was numbered before its child. -/
def ParentsFirst (t : SpanningTree) : Prop :=
  ∀ w p, t.parent? w = some p → ∃ i j, t.dfnum? w = some i ∧ t.dfnum? p = some j ∧ j < i

theorem parentsFirst_start (r b : Nat) : ParentsFirst (start r b) := by
  intro w p h
  simp only [start, parent?, Array.getElem?_replicate] at h
  split at h <;> simp at h

theorem parent?_visit {t : SpanningTree} {i j : Nat} {parent : Option Nat} :
    (t.visit i parent).parent? j = if j = i ∧ i < t.parents.size then parent else t.parent? j := by
  simp only [visit, parent?, Array.getElem?_modify]
  by_cases hij : i = j
  · subst hij
    by_cases hi : i < t.parents.size <;> simp [hi]
  · simp [hij, Ne.symm hij]

theorem dfnum?_visit {t : SpanningTree} {i j : Nat} {parent : Option Nat} :
    (t.visit i parent).dfnum? j =
      if j = i ∧ i < t.dfnums.size then some t.order.size else t.dfnum? j := by
  simp only [visit, dfnum?, Array.getElem?_modify]
  by_cases hij : i = j
  · subst hij
    by_cases hi : i < t.dfnums.size <;> simp [hi]
  · simp [hij, Ne.symm hij]

/-- A numbered node stands before the end of the order. -/
theorem Numbered.lt_size {t : SpanningTree} (ht : Numbered t) {w i : Nat}
    (hw : t.dfnum? w = some i) : i < t.order.size := by
  have hk := ht w i hw
  by_contra hge
  simp [Array.getElem?_eq_none (Nat.le_of_not_lt hge)] at hk

/-- Numbering a new node, reached from a node numbered already, keeps parents first: the new
    node takes the next number. -/
theorem ParentsFirst.visit {t : SpanningTree} {s : Nat} {parent : Option Nat}
    (ht : ParentsFirst t) (hnum : Numbered t) (hs : t.contains s = false)
    (hsize : t.parents.size = t.dfnums.size) (hp : ∀ n, parent = some n → t.contains n = true) :
    ParentsFirst (t.visit s parent) := by
  intro w p hw
  rw [parent?_visit] at hw
  split_ifs at hw with hws
  · obtain ⟨rfl, hlt⟩ := hws
    obtain ⟨j, hj⟩ := Option.isSome_iff_exists.1 (hp p hw)
    have hpw : p ≠ w := by
      rintro rfl
      simp [contains, hj] at hs
    refine ⟨t.order.size, j, ?_, ?_, hnum.lt_size hj⟩
    · rw [dfnum?_visit, if_pos ⟨rfl, hsize ▸ hlt⟩]
    · rw [dfnum?_visit, if_neg fun h => hpw h.1]
      exact hj
  · -- both ends were numbered before, so neither is the new node
    obtain ⟨i, j, hi, hj, hij⟩ := ht w p hw
    have hne : ∀ x k, t.dfnum? x = some k → x ≠ s := by
      rintro x k hx rfl
      simp [contains, hx] at hs
    refine ⟨i, j, ?_, ?_, hij⟩
    · rw [dfnum?_visit, if_neg fun h => hne w i hi h.1]
      exact hi
    · rw [dfnum?_visit, if_neg fun h => hne p j hj h.1]
      exact hj

variable (g) in
/-- What the search procedure keeps of a search besides its order: slot arrays of the graph's
    size, every number a place in the order, and parents numbered before their children. -/
structure Ordered (t : SpanningTree) : Prop where
  size_dfnums : t.dfnums.size = g.bound
  size_parents : t.parents.size = g.bound
  numbered : Numbered t
  parentsFirst : ParentsFirst t

/-- The procedure keeps a search ordered and never unnumbers a node. -/
theorem Tries.ordered (hg : g.Closed) {n : Nat} {l : List Nat} {t t' : SpanningTree}
    (h : Tries g n l t t') (ht : Ordered g t) (hn : t.contains n = true)
    (hl : ∀ s ∈ l, s < g.bound) :
    Ordered g t' ∧ ∀ x, t.contains x = true → t'.contains x = true := by
  induction h with
  | nil => exact ⟨ht, fun _ h => h⟩
  | skip _ _ ih => exact ih ht hn fun s hs => hl s (.tail _ hs)
  | @call n s l t t₁ t' hns _ _ ih₁ ih₂ =>
    have hs : s < t.dfnums.size := ht.size_dfnums ▸ hl s List.mem_cons_self
    have hv : Ordered g (t.visit s (some n)) :=
      { size_dfnums := by simp [ht.size_dfnums]
        size_parents := by simp [SpanningTree.visit, ht.size_parents]
        numbered := ht.numbered.visit s (some n)
        parentsFirst := ht.parentsFirst.visit ht.numbered hns
          (by rw [ht.size_parents, ht.size_dfnums]) (by rintro _ ⟨⟩; exact hn) }
    have hkeep : ∀ x, t.contains x = true → (t.visit s (some n)).contains x = true := by
      intro x hx
      simp [contains_visit hs, hx]
    obtain ⟨h₁, hmono₁⟩ := ih₁ hv (by simp [contains_visit hs]) fun x hx => hg.succs_lt hx
    obtain ⟨h₂, hmono₂⟩ := ih₂ h₁ (hmono₁ n (hkeep n hn)) fun x hx => hl x (.tail _ hx)
    exact ⟨h₂, fun x hx => hmono₂ x (hmono₁ x (hkeep x hx))⟩

/-- In the search from any slot of a closed graph, parents are numbered before their children,
    and every dfnum is less than the number of slots. -/
theorem fromRoot_ordered (hg : g.Closed) (r : Nat) :
    ParentsFirst (fromRoot g r) ∧ ∀ w i, (fromRoot g r).dfnum? w = some i → i < g.bound := by
  by_cases hr : r < g.bound
  · have hsize : (start r g.bound).dfnums.size = g.bound := by simp [start]
    have h₀ : Ordered g ((start r g.bound).visit r none) :=
      { size_dfnums := by simp [hsize]
        size_parents := by simp [SpanningTree.visit, start]
        numbered := (numbered_start r g.bound).visit r none
        parentsFirst := (parentsFirst_start r g.bound).visit (numbered_start r g.bound)
          contains_start (by simp [start]) (by rintro _ ⟨⟩) }
    obtain ⟨hord, -⟩ := Tries.ordered hg (fromRoot_walk hg hr) h₀
      (by simp [contains_visit (by rw [hsize]; exact hr : r < (start r g.bound).dfnums.size)])
      fun s hs => hg.succs_lt hs
    have hlen := (fromRoot_sound hg hr).1.length_le
    refine ⟨hord.parentsFirst, fun w i hw => ?_⟩
    have := hord.numbered.lt_size hw
    simp only [Array.length_toList] at hlen
    omega
  · rw [fromRoot, if_neg hr]
    refine ⟨parentsFirst_start r g.bound, fun w i h => ?_⟩
    simp only [start, dfnum?, Array.getElem?_replicate] at h
    split at h <;> simp at h

/-- `Segment t w a xs`: climbing the tree `t` from `w` by parents reaches `a`, and `xs` lists
    the nodes passed, from `w` up to `a`, `a` left out. -/
inductive Segment (t : SpanningTree) : Nat → Nat → List Nat → Prop
  | parent {w a : Nat} : t.parent? w = some a → Segment t w a [w]
  | cons {w p a : Nat} {xs : List Nat} : t.parent? w = some p → Segment t p a xs →
      Segment t w a (w :: xs)

variable {t : SpanningTree} {w a b : Nat} {xs ys : List Nat}

theorem Segment.append (h₁ : t.Segment w a xs) (h₂ : t.Segment a b ys) :
    t.Segment w b (xs ++ ys) := by
  induction h₁ with
  | parent hp => exact .cons hp h₂
  | cons hp _ ih => exact .cons hp (ih h₂)

/-- The top of a segment is numbered before its bottom. -/
theorem Segment.dfnum_lt (ht : t.ParentsFirst) (h : t.Segment w a xs) :
    ∃ i j, t.dfnum? w = some i ∧ t.dfnum? a = some j ∧ j < i := by
  induction h with
  | parent hp => exact ht _ _ hp
  | cons hp _ ih =>
    obtain ⟨i, j, hi, hj, hij⟩ := ht _ _ hp
    obtain ⟨i', j', hi', hj', hij'⟩ := ih
    rw [hj] at hi'
    cases hi'
    exact ⟨i, j', hi, hj', by omega⟩

end SpanningTree

namespace LengauerTarjan

variable {st st' : LengauerTarjan} {v w x n p a b c s : Nat} {up : Option Nat}

/-! ### The steps on single slots -/

theorem lt_size_of_ancestorOf (h : st.ancestorOf x = some a) : x < st.ancestor.size := by
  by_contra hx
  simp [ancestorOf, Array.getElem?_eq_none (Nat.le_of_not_lt hx)] at h

@[simp]
theorem ancestorOf_link_of_ne (h : x ≠ n) : (st.link p n).ancestorOf x = st.ancestorOf x := by
  simp [link, ancestorOf, Array.getElem?_modify, Ne.symm h]

theorem ancestorOf_link_self :
    (st.link p n).ancestorOf n = if n < st.ancestor.size then some p else none := by
  simp only [link, ancestorOf, Array.getElem?_modify, if_true]
  split <;> simp_all

@[simp]
theorem bestOf_link_of_ne (h : x ≠ n) : (st.link p n).bestOf x = st.bestOf x := by
  simp [link, bestOf, Array.getElem?_modify, Ne.symm h]

@[simp]
theorem bestOf_link_self : (st.link p n).bestOf n = n := by
  simp only [link, bestOf, Array.getElem?_modify, if_true]
  cases st.best[n]? <;> rfl

/-- Linking a node leaves every linked node linked. -/
theorem isSome_ancestorOf_link (h : (st.ancestorOf x).isSome) :
    ((st.link p n).ancestorOf x).isSome := by
  by_cases hxn : x = n
  · subst hxn
    obtain ⟨a, ha⟩ := Option.isSome_iff_exists.1 h
    simp [ancestorOf_link_self, lt_size_of_ancestorOf ha]
  · rwa [ancestorOf_link_of_ne hxn]

@[simp]
theorem ancestorOf_shortcut_of_ne (h : x ≠ w) :
    (st.shortcut w up b).ancestorOf x = st.ancestorOf x := by
  simp [shortcut, ancestorOf, Array.getElem?_modify, Ne.symm h]

theorem ancestorOf_shortcut_self (h : w < st.ancestor.size) :
    (st.shortcut w up b).ancestorOf w = up := by
  simp only [shortcut, ancestorOf, Array.getElem?_modify, if_true]
  simp [h]

@[simp]
theorem bestOf_shortcut_of_ne (h : x ≠ w) : (st.shortcut w up b).bestOf x = st.bestOf x := by
  unfold shortcut bestOf
  split_ifs <;> simp [Array.getElem?_modify, Ne.symm h]

theorem bestOf_shortcut_self (h : w < st.best.size) :
    (st.shortcut w up b).bestOf w =
      if st.semiDfnum b < st.semiDfnum (st.bestOf w) then b else st.bestOf w := by
  unfold shortcut bestOf
  split_ifs
  · simp only [Array.getElem?_modify, if_true]
    simp [h]
  · rfl

@[simp]
theorem tree_shortcut : (st.shortcut w up b).tree = st.tree := rfl

@[simp]
theorem semiDfnum_shortcut : (st.shortcut w up b).semiDfnum x = st.semiDfnum x := rfl

@[simp]
theorem size_ancestor_shortcut : (st.shortcut w up b).ancestor.size = st.ancestor.size := by
  simp [shortcut]

@[simp]
theorem size_best_shortcut : (st.shortcut w up b).best.size = st.best.size := by
  unfold shortcut
  split_ifs <;> simp

/-- Compressing a linked node's link to a linked node keeps the same nodes linked. -/
theorem isSome_ancestorOf_shortcut (hw : (st.ancestorOf w).isSome) :
    ((st.shortcut w (some c) b).ancestorOf x).isSome = (st.ancestorOf x).isSome := by
  by_cases hxw : x = w
  · subst hxw
    obtain ⟨a, ha⟩ := Option.isSome_iff_exists.1 hw
    simp [ancestorOf_shortcut_self (lt_size_of_ancestorOf ha), ha]
  · rw [ancestorOf_shortcut_of_ne hxw]

@[simp]
theorem tree_assignSemi : (st.assignSemi n s).tree = st.tree := rfl

theorem semiDfnum_assignSemi_of_ne (h : x ≠ n) :
    (st.assignSemi n s).semiDfnum x = st.semiDfnum x := by
  simp [assignSemi, semiDfnum, semiOf, dfnum, Array.getElem?_modify, Ne.symm h]

theorem compressAt_of_ancestorOf (h : st.ancestorOf w = some a) :
    st.compressAt w = st.shortcut w (st.ancestorOf a) (st.bestOf a) := by
  simp [compressAt, h]

/-! ### Stretches and the forest -/

/-- The link of `w` to `a` spans the stretch `xs` of tree path from `w` up to `a`: all of it is
    linked, and `w`'s best is the node of least semidominator dfnum on it. -/
structure Stretch (st : LengauerTarjan) (w a : Nat) (xs : List Nat) : Prop where
  segment : st.tree.Segment w a xs
  linked : ∀ x ∈ xs, (st.ancestorOf x).isSome
  best_mem : st.bestOf w ∈ xs
  best_le : ∀ x ∈ xs, st.semiDfnum (st.bestOf w) ≤ st.semiDfnum x

/-- A stretch carries over to a state over the same tree that links at least the same nodes and
    keeps the node's best and the semidominators on it. -/
theorem Stretch.transfer {xs : List Nat} (h : st.Stretch w a xs) (htree : st'.tree = st.tree)
    (hlinked : ∀ x, (st.ancestorOf x).isSome → (st'.ancestorOf x).isSome)
    (hbest : st'.bestOf w = st.bestOf w) (hsemi : ∀ x ∈ xs, st'.semiDfnum x = st.semiDfnum x) :
    st'.Stretch w a xs where
  segment := htree ▸ h.segment
  linked x hx := hlinked x (h.linked x hx)
  best_mem := hbest ▸ h.best_mem
  best_le x hx := by
    rw [hbest, hsemi _ h.best_mem, hsemi x hx]
    exact h.best_le x hx

/-- What the construction keeps of its forest: the tree's parents come first and its dfnums are
    slots; `best` has a slot per slot of `ancestor`; every link spans a stretch of tree path with
    the node's best the least on it; and a node not linked is its own best. -/
structure Forest (st : LengauerTarjan) : Prop where
  parentsFirst : st.tree.ParentsFirst
  dfnum_lt : ∀ w i, st.tree.dfnum? w = some i → i < st.ancestor.size
  size_best : st.best.size = st.ancestor.size
  stretch : ∀ w a, st.ancestorOf w = some a → ∃ xs, st.Stretch w a xs
  best_self : ∀ w, st.ancestorOf w = none → st.bestOf w = w

/-- A link leads to a smaller dfnum, and the linked node's dfnum is a slot: the measure of every
    walk up the forest. -/
theorem Forest.dfnum_lt_of_ancestorOf (hf : st.Forest) (h : st.ancestorOf w = some a) :
    st.dfnum a < st.dfnum w ∧ st.dfnum w < st.ancestor.size := by
  obtain ⟨xs, hxs⟩ := hf.stretch w a h
  obtain ⟨i, j, hi, hj, hij⟩ := hxs.segment.dfnum_lt hf.parentsFirst
  simp only [dfnum, hi, hj, Option.getD_some]
  exact ⟨hij, hf.dfnum_lt w i hi⟩

/-- Before any node is handled nothing is linked and every node is its own best. -/
theorem forest_new {t : SpanningTree} {bound : Nat} (ht : t.ParentsFirst)
    (hlt : ∀ w i, t.dfnum? w = some i → i < bound) : (new t bound).Forest where
  parentsFirst := ht
  dfnum_lt := by simpa [new] using hlt
  size_best := by simp [new]
  stretch w a h := by
    simp only [new, ancestorOf, Array.getElem?_replicate] at h
    split at h <;> simp at h
  best_self w _ := by
    simp only [new, bestOf, Array.getElem?_range]
    split <;> simp

/-- Linking a node to its tree parent keeps the forest: the new link spans the node alone. -/
theorem Forest.link (hf : st.Forest) (hp : st.tree.parent? n = some p) : (st.link p n).Forest where
  parentsFirst := hf.parentsFirst
  dfnum_lt := by simpa [LengauerTarjan.link] using hf.dfnum_lt
  size_best := by simp [LengauerTarjan.link, hf.size_best]
  stretch x a hx := by
    by_cases hxn : x = n
    · subst hxn
      rw [ancestorOf_link_self] at hx
      split_ifs at hx with hsize
      cases hx
      refine ⟨[x], .parent hp, ?_, by simp, by simp⟩
      simp [ancestorOf_link_self, hsize]
    · rw [ancestorOf_link_of_ne hxn] at hx
      obtain ⟨xs, hxs⟩ := hf.stretch x a hx
      exact ⟨xs, hxs.transfer rfl (fun _ => isSome_ancestorOf_link) (bestOf_link_of_ne hxn)
        fun _ _ => rfl⟩
  best_self x hx := by
    by_cases hxn : x = n
    · subst hxn
      exact bestOf_link_self
    · rw [ancestorOf_link_of_ne hxn] at hx
      rw [bestOf_link_of_ne hxn]
      exact hf.best_self x hx

/-- Recording a semidominator for a node not linked keeps the forest: stretches hold linked
    nodes only, whose semidominators stay as they were. -/
theorem Forest.assignSemi (hf : st.Forest) (hn : st.ancestorOf n = none) :
    (st.assignSemi n s).Forest where
  parentsFirst := hf.parentsFirst
  dfnum_lt := hf.dfnum_lt
  size_best := hf.size_best
  stretch x a hx := by
    obtain ⟨xs, hxs⟩ := hf.stretch x a hx
    refine ⟨xs, hxs.transfer rfl (fun _ h => h) rfl fun y hy => semiDfnum_assignSemi_of_ne ?_⟩
    rintro rfl
    simpa [hn] using hxs.linked y hy
  best_self := hf.best_self

/-- Writing the fields the forest does not read keeps it. -/
theorem Forest.record (hf : st.Forest) (samedom idom : Array (Option Nat))
    (bucket : Array (List Nat)) : ({ st with samedom, idom, bucket } : LengauerTarjan).Forest where
  parentsFirst := hf.parentsFirst
  dfnum_lt := hf.dfnum_lt
  size_best := hf.size_best
  stretch w a h := by
    obtain ⟨xs, hxs⟩ := hf.stretch w a h
    exact ⟨xs, hxs.transfer rfl (fun _ h => h) rfl fun _ _ => rfl⟩
  best_self := hf.best_self

/-- Compressing the link of `w` to `a`, itself linked to `c`, keeps the forest: `w`'s new link
    spans `w`'s stretch and then `a`'s, and the better of the two bests is the least on both. -/
theorem Forest.shortcut (hf : st.Forest) (hw : st.ancestorOf w = some a)
    (ha : st.ancestorOf a = some c) : (st.shortcut w (some c) (st.bestOf a)).Forest where
  parentsFirst := hf.parentsFirst
  dfnum_lt := by simpa using hf.dfnum_lt
  size_best := by simp [hf.size_best]
  stretch x y hx := by
    have hws := lt_size_of_ancestorOf hw
    have hlinked : ∀ z, (st.ancestorOf z).isSome →
        ((st.shortcut w (some c) (st.bestOf a)).ancestorOf z).isSome := fun z hz => by
      rwa [isSome_ancestorOf_shortcut (by simp [hw])]
    by_cases hxw : x = w
    · subst hxw
      rw [ancestorOf_shortcut_self hws] at hx
      cases hx
      obtain ⟨xs, hxs⟩ := hf.stretch x a hw
      obtain ⟨ys, hys⟩ := hf.stretch a c ha
      have hbest : (st.shortcut x (some c) (st.bestOf a)).bestOf x =
          if st.semiDfnum (st.bestOf a) < st.semiDfnum (st.bestOf x) then st.bestOf a
          else st.bestOf x :=
        bestOf_shortcut_self (hf.size_best ▸ hws)
      refine ⟨xs ++ ys, hxs.segment.append hys.segment, ?_, ?_, ?_⟩
      · intro z hz
        rcases List.mem_append.1 hz with hz | hz
        · exact hlinked z (hxs.linked z hz)
        · exact hlinked z (hys.linked z hz)
      · rw [hbest]
        split_ifs
        · exact List.mem_append_right _ hys.best_mem
        · exact List.mem_append_left _ hxs.best_mem
      · intro z hz
        have h₁ := hxs.best_le
        have h₂ := hys.best_le
        simp only [semiDfnum_shortcut, hbest]
        rcases List.mem_append.1 hz with hz | hz
        · have := h₁ z hz
          split_ifs <;> omega
        · have := h₂ z hz
          split_ifs <;> omega
    · rw [ancestorOf_shortcut_of_ne hxw] at hx
      obtain ⟨xs, hxs⟩ := hf.stretch x y hx
      exact ⟨xs, hxs.transfer rfl hlinked (bestOf_shortcut_of_ne hxw) fun _ _ => rfl⟩
  best_self x hx := by
    by_cases hxw : x = w
    · subst hxw
      rw [ancestorOf_shortcut_self (lt_size_of_ancestorOf hw)] at hx
      cases hx
    · rw [ancestorOf_shortcut_of_ne hxw] at hx
      rw [bestOf_shortcut_of_ne hxw]
      exact hf.best_self x hx

end LengauerTarjan

end Decompilation
