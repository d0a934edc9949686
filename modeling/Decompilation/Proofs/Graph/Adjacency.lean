import Mathlib
import Decompilation.Proofs.Graph.Built

/-!
# Exact adjacency

A graph records each edge twice, once among the successors of its source and once among the
predecessors of its target, keeps a count of its edges beside the lists, and an index from the
keys of its live nodes to their slots. The edits change these records one entry at a time. Deleting a node drops its edges from the lists of its
neighbours in two loops, the edges leaving it first; a self-loop is then already gone from its
own predecessors when the edges entering it are dropped, so each edge is dropped once.

Every graph the edits build keeps its records exact:

* `Digraph.Exact`: a key names at most one live node, the edges from one slot to another are
  recorded as often on either end, the counter is the number of recorded successors, the root
  is live, and the index holds each live key once, with its slot;
* `Digraph.Exact.find?_iff`, `Exact.nodeCount_eq`, `Exact.live_of_mem_succs`: the slot found
  for a key is the live node with that key, the index counts the live nodes, and the
  neighbours of a node are live;
* `Digraph.Exact.unlink`, `Exact.delNode`: removing an edge or a node keeps the records exact
  and lowers the counter by one per edge removed, so that no decrement goes below zero;
* `Digraph.splitEdge_eq_ok_of_delEdge`: a split that has removed its edge cannot fail
  afterwards, so a failed split has changed nothing;
* `Digraph.Built.exact`: every built graph is exact.
-/

namespace Decompilation

namespace Digraph

variable {K : Type} {g g' : Digraph K} {s d i j a b x : Nat} {k : K}

/-! ### What a change of one slot shows -/

section Views

variable {f : Vertex K → Vertex K}

/-- A change of one slot that keeps its deletion mark shows only at that slot. -/
theorem vertex?_modifySlot (hr : ∀ v, (f v).removed = v.removed) :
    (g.modifySlot s f).vertex? j = if s = j then (g.vertex? j).map f else g.vertex? j := by
  unfold vertex?
  rw [slots_modifySlot]
  by_cases hs : s = j
  · rcases g.slots[j]? with _ | v
    · simp [hs]
    · by_cases hv : v.removed <;> simp [hs, hr, hv]
  · simp [hs]

theorem isSome_vertex?_modifySlot (hr : ∀ v, (f v).removed = v.removed) :
    ((g.modifySlot s f).vertex? j).isSome = (g.vertex? j).isSome := by
  rw [vertex?_modifySlot hr]
  split <;> simp

theorem key?_modifySlot (hk : ∀ v, (f v).key = v.key) (hr : ∀ v, (f v).removed = v.removed) :
    (g.modifySlot s f).key? j = g.key? j := by
  unfold key?
  rw [vertex?_modifySlot hr]
  split
  · rcases g.vertex? j <;> simp [hk]
  · rfl

end Views

/-! Changing one list of a slot leaves its key, its liveness and its other list. -/

section Lists

variable {h : List Nat → List Nat}

theorem preds_modifySlot_succs :
    (g.modifySlot s fun v => { v with succs := h v.succs }).preds j = g.preds j := by
  unfold preds
  rw [vertex?_modifySlot (f := fun v => { v with succs := h v.succs }) fun _ => rfl]
  split
  · rcases g.vertex? j <;> rfl
  · rfl

theorem succs_modifySlot_preds :
    (g.modifySlot s fun v => { v with preds := h v.preds }).succs j = g.succs j := by
  unfold succs
  rw [vertex?_modifySlot (f := fun v => { v with preds := h v.preds }) fun _ => rfl]
  split
  · rcases g.vertex? j <;> rfl
  · rfl

theorem key?_modifySlot_succs :
    (g.modifySlot s fun v => { v with succs := h v.succs }).key? j = g.key? j :=
  key?_modifySlot (f := fun v => { v with succs := h v.succs }) (fun _ => rfl) fun _ => rfl

theorem key?_modifySlot_preds :
    (g.modifySlot s fun v => { v with preds := h v.preds }).key? j = g.key? j :=
  key?_modifySlot (f := fun v => { v with preds := h v.preds }) (fun _ => rfl) fun _ => rfl

theorem isSome_vertex?_modifySlot_succs :
    ((g.modifySlot s fun v => { v with succs := h v.succs }).vertex? j).isSome =
      (g.vertex? j).isSome :=
  isSome_vertex?_modifySlot (f := fun v => { v with succs := h v.succs }) fun _ => rfl

theorem isSome_vertex?_modifySlot_preds :
    ((g.modifySlot s fun v => { v with preds := h v.preds }).vertex? j).isSome =
      (g.vertex? j).isSome :=
  isSome_vertex?_modifySlot (f := fun v => { v with preds := h v.preds }) fun _ => rfl

end Lists

/-- Setting the successors of slot `s` by `h`: a live node `s` shows `h` of its old
    successors, a deleted slot still shows none. -/
theorem succs_modifySlot_succs {h : List Nat → List Nat} :
    (g.modifySlot s fun v => { v with succs := h v.succs }).succs j =
      if s = j ∧ (g.vertex? j).isSome then h (g.succs j) else g.succs j := by
  unfold succs
  rw [vertex?_modifySlot (f := fun v => { v with succs := h v.succs }) fun _ => rfl]
  by_cases hs : s = j
  · rcases g.vertex? j <;> simp [hs]
  · simp [hs]

theorem preds_modifySlot_preds {h : List Nat → List Nat} :
    (g.modifySlot s fun v => { v with preds := h v.preds }).preds j =
      if s = j ∧ (g.vertex? j).isSome then h (g.preds j) else g.preds j := by
  unfold preds
  rw [vertex?_modifySlot (f := fun v => { v with preds := h v.preds }) fun _ => rfl]
  by_cases hs : s = j
  · rcases g.vertex? j <;> simp [hs]
  · simp [hs]

/-- The successors of a deleted or unknown slot are none, and so are its predecessors. -/
theorem succs_eq_nil (h : g.vertex? j = none) : g.succs j = [] := by simp [succs, h]

theorem preds_eq_nil (h : g.vertex? j = none) : g.preds j = [] := by simp [preds, h]

/-- Erasing from the successors of slot `s`: the erasure shows at `s`, live or not. -/
theorem succs_modifySlot_erase :
    (g.modifySlot s fun v => { v with succs := v.succs.erase i }).succs j =
      if s = j then (g.succs j).erase i else g.succs j := by
  rw [succs_modifySlot_succs (h := fun l => l.erase i)]
  by_cases hs : s = j
  · rcases hv : g.vertex? j with _ | v
    · simp [hs, succs_eq_nil hv]
    · simp [hs]
  · simp [hs]

theorem preds_modifySlot_erase :
    (g.modifySlot s fun v => { v with preds := v.preds.erase i }).preds j =
      if s = j then (g.preds j).erase i else g.preds j := by
  rw [preds_modifySlot_preds (h := fun l => l.erase i)]
  by_cases hs : s = j
  · rcases hv : g.vertex? j with _ | v
    · simp [hs, preds_eq_nil hv]
    · simp [hs]
  · simp [hs]

/-- A live slot lies below the bound. -/
theorem lt_bound_of_isSome (h : (g.vertex? j).isSome) : j < g.bound := by
  unfold vertex? at h
  rcases hj : g.slots[j]? with _ | v
  · simp [hj] at h
  · exact (Array.getElem?_eq_some_iff.1 hj).1

/-- The key of a slot is that of a live node in it. -/
theorem key?_eq_some_iff : g.key? j = some k ↔ ∃ v, g.slots[j]? = some v ∧ v.removed = false ∧ v.key = k := by
  unfold key? vertex?
  rcases g.slots[j]? with _ | v
  · simp
  · by_cases hv : v.removed <;> simp [hv]

/-! ### Finding a key -/

section Find

variable [DecidableEq K]

/-- In a list of pairs whose first components are distinct, the lookup of a key gives the one
    pair with that key. -/
theorem lookup_eq_some_iff_mem {l : List (K × Nat)} (hl : (l.map Prod.fst).Nodup) :
    l.lookup k = some i ↔ (k, i) ∈ l := by
  induction l with
  | nil => simp
  | cons e l ih =>
    obtain ⟨k', i'⟩ := e
    simp only [List.map_cons, List.nodup_cons, List.mem_map] at hl
    by_cases hk : k = k'
    · subst hk
      simp only [List.lookup_cons_self, Option.some.injEq, List.mem_cons, Prod.mk.injEq,
        true_and]
      -- the key occurs nowhere further on
      exact ⟨fun h => .inl h.symm, fun h => h.elim Eq.symm fun h' => absurd ⟨_, h', rfl⟩ hl.1⟩
    · have hbeq : (k == k') = false := by simpa using hk
      simp [List.lookup_cons, hbeq, hk, ih hl.2]

/-- Graphs with the same index find the same slots. -/
theorem find?_congr (h : g'.index = g.index) : g'.find? k = g.find? k := by
  unfold find?
  rw [h]

/-- No slot is found for a key that the index does not record. -/
theorem find?_eq_none_iff : g.find? k = none ↔ ∀ i, (k, i) ∉ g.index := by
  unfold find?
  rw [List.lookup_eq_none_iff]
  constructor
  · intro h i hi
    simpa using h _ hi
  · rintro h ⟨k', i⟩ hi
    have hk : k ≠ k' := fun hk => h i (hk ▸ hi)
    simpa using hk

end Find

/-! ### Views that only read the slots -/

@[simp]
theorem edgeCount_modifySlot {f : Vertex K → Vertex K} : (g.modifySlot s f).edgeCount = g.edgeCount :=
  rfl

@[simp]
theorem root_modifySlot {f : Vertex K → Vertex K} : (g.modifySlot s f).root = g.root := rfl

@[simp]
theorem index_modifySlot {f : Vertex K → Vertex K} : (g.modifySlot s f).index = g.index := rfl

@[simp]
theorem vertex?_mk (ix : List (K × Nat)) (r : Option Nat) (n : Nat) :
    ({ slots := g.slots, index := ix, root := r, edgeCount := n } : Digraph K).vertex? j =
      g.vertex? j := rfl

@[simp]
theorem key?_mk (ix : List (K × Nat)) (r : Option Nat) (n : Nat) :
    ({ slots := g.slots, index := ix, root := r, edgeCount := n } : Digraph K).key? j =
      g.key? j := rfl

@[simp]
theorem succs_mk (ix : List (K × Nat)) (r : Option Nat) (n : Nat) :
    ({ slots := g.slots, index := ix, root := r, edgeCount := n } : Digraph K).succs j =
      g.succs j := rfl

@[simp]
theorem preds_mk (ix : List (K × Nat)) (r : Option Nat) (n : Nat) :
    ({ slots := g.slots, index := ix, root := r, edgeCount := n } : Digraph K).preds j =
      g.preds j := rfl

@[simp]
theorem bound_mk (ix : List (K × Nat)) (r : Option Nat) (n : Nat) :
    ({ slots := g.slots, index := ix, root := r, edgeCount := n } : Digraph K).bound =
      g.bound := rfl

theorem isSome_key? : (g.key? j).isSome = (g.vertex? j).isSome := by simp [key?]

/-- Marking slot `i` deleted hides it and nothing else. -/
theorem vertex?_modifySlot_remove :
    (g.modifySlot i fun v => { v with removed := true }).vertex? j =
      if i = j then none else g.vertex? j := by
  unfold vertex?
  rw [slots_modifySlot]
  by_cases hij : i = j
  · rcases g.slots[j]? <;> simp [hij]
  · simp [hij]

theorem key?_modifySlot_remove :
    (g.modifySlot i fun v => { v with removed := true }).key? j =
      if i = j then none else g.key? j := by
  unfold key?
  rw [vertex?_modifySlot_remove]
  split <;> rfl

theorem succs_modifySlot_remove :
    (g.modifySlot i fun v => { v with removed := true }).succs j =
      if i = j then [] else g.succs j := by
  unfold succs
  rw [vertex?_modifySlot_remove]
  split <;> rfl

theorem preds_modifySlot_remove :
    (g.modifySlot i fun v => { v with removed := true }).preds j =
      if i = j then [] else g.preds j := by
  unfold preds
  rw [vertex?_modifySlot_remove]
  split <;> rfl

/-! ### Counting entries -/

/-- A list of slots below `n` is as long as the sum of the multiplicities of the slots. -/
theorem length_eq_sum_count {l : List Nat} {n : Nat} (h : ∀ x ∈ l, x < n) :
    l.length = ∑ x ∈ Finset.range n, l.count x := by
  have := Multiset.sum_count_eq_card (s := Finset.range n) (m := (l : Multiset Nat))
    (by simpa using h)
  simpa using this.symm

/-- The entries other than `i` hold no `i`. -/
theorem count_filter_ne_self {l : List Nat} : (l.filter (· ≠ i)).count i = 0 :=
  List.count_eq_zero.2 (by simp)

/-- Lists with the same multiplicities away from `i` have as many entries other than `i`. -/
theorem countP_ne_eq {l l' : List Nat} (h : ∀ x, x ≠ i → l'.count x = l.count x) :
    l'.countP (· ≠ i) = l.countP (· ≠ i) := by
  simp only [List.countP_eq_length_filter]
  refine List.Perm.length_eq (List.perm_iff_count.2 fun x => ?_)
  by_cases hx : x = i
  · rw [hx, count_filter_ne_self, count_filter_ne_self]
  · rw [List.count_filter (by simpa using hx), List.count_filter (by simpa using hx), h x hx]

/-- A list that has lost every entry `i` and nothing else is shorter by the entries `i`. -/
theorem length_eq_add_count {l l' : List Nat}
    (h : ∀ x, l'.count x = if x = i then 0 else l.count x) :
    l.length = l'.length + l.count i := by
  have hperm : l'.Perm (l.filter (· ≠ i)) := List.perm_iff_count.2 fun x => by
    by_cases hx : x = i
    · rw [h, if_pos hx, hx, count_filter_ne_self]
    · rw [h, if_neg hx, List.count_filter (by simpa using hx)]
  rw [hperm.length_eq, ← List.countP_eq_length_filter, List.count_eq_countP,
    List.length_eq_countP_add_countP (· ≠ i)]
  simp only [ne_eq, decide_not, Nat.add_left_cancel_iff]
  exact List.countP_congr fun x _ => by simp

/-- The entries other than `i` of a list of slots below `n`, counted slot by slot. -/
theorem countP_ne_eq_sum {l : List Nat} {n : Nat} (hi : i < n) (h : ∀ x ∈ l, x < n) :
    l.countP (· ≠ i) = ∑ x ∈ (Finset.range n).erase i, l.count x := by
  have hsum := length_eq_sum_count h
  rw [← Finset.add_sum_erase _ _ (Finset.mem_range.2 hi)] at hsum
  have hlen : l.length = (l.filter (· ≠ i)).length + l.count i := length_eq_add_count fun x => by
    by_cases hx : x = i
    · rw [if_pos hx, hx, count_filter_ne_self]
    · rw [if_neg hx, List.count_filter (by simpa using hx)]
  rw [List.countP_eq_length_filter]
  omega

/-- A sum over the live slots is the sum over all slots of a quantity that is zero at the
    others. -/
theorem sum_filter_range {P : Nat → Bool} {f : Nat → Nat} (hf : ∀ a, P a = false → f a = 0) :
    ∀ n, (((List.range n).filter P).map f).sum = ∑ a ∈ Finset.range n, f a
  | 0 => rfl
  | n + 1 => by
    rw [List.range_succ, List.filter_append, List.map_append, List.sum_append,
      sum_filter_range hf n, Finset.sum_range_succ]
    cases hP : P n <;> simp [hP, hf n]

/-! ### Loops over lists of slots -/

/-- A loop whose steps keep a view keeps it. -/
theorem foldl_keep {α β : Type} {F : Digraph K → α → Digraph K} (N : Digraph K → β)
    (hF : ∀ g a, N (F g a) = N g) : ∀ (L : List α) (g : Digraph K), N (L.foldl F g) = N g
  | [], _ => rfl
  | a :: L, g => by rw [List.foldl_cons, foldl_keep N hF L, hF]

/-- A loop whose every step lowers a quantity by one exactly at the entries satisfying `P`
    lowers it by the number of such entries. -/
theorem foldl_sub_countP {α : Type} {F : Digraph K → α → Digraph K} (N : Digraph K → Nat)
    (P : α → Bool) (hF : ∀ g a, N (F g a) = N g - if P a then 1 else 0) :
    ∀ (L : List α) (g : Digraph K), N (L.foldl F g) = N g - L.countP P
  | [], _ => by simp
  | a :: L, g => by
    rw [List.foldl_cons, foldl_sub_countP N P hF L, hF, List.countP_cons]
    omega

/-! ### Exact records -/

/-- The records of a graph are exact: a key names at most one live node, the edges from `a` to
    `b` are recorded as often among the successors of `a` as among the predecessors of `b`, the
    counter is the number of recorded successors, the root is live, and the index pairs each
    live node's key with its slot and holds no key twice. -/
structure Exact (g : Digraph K) : Prop where
  key_unique : ∀ {i j k}, g.key? i = some k → g.key? j = some k → i = j
  count_eq : ∀ a b, (g.succs a).count b = (g.preds b).count a
  edgeCount_eq : g.edgeCount = ∑ a ∈ Finset.range g.bound, (g.succs a).length
  root_live : ∀ {r}, g.root = some r → (g.vertex? r).isSome
  index_iff : ∀ {k i}, (k, i) ∈ g.index ↔ g.key? i = some k
  index_nodup : (g.index.map Prod.fst).Nodup

namespace Exact

/-- A successor is live: it records the edge among its predecessors, and a deleted slot shows
    none. -/
theorem live_of_mem_succs (hg : g.Exact) (h : b ∈ g.succs a) : (g.vertex? b).isSome := by
  have hpos : 0 < (g.preds b).count a := hg.count_eq a b ▸ List.count_pos_iff.2 h
  rcases hv : g.vertex? b with _ | v
  · simp [preds_eq_nil hv] at hpos
  · rfl

/-- A predecessor is live. -/
theorem live_of_mem_preds (hg : g.Exact) (h : a ∈ g.preds b) : (g.vertex? a).isSome := by
  have hpos : 0 < (g.succs a).count b := (hg.count_eq a b).symm ▸ List.count_pos_iff.2 h
  rcases hv : g.vertex? a with _ | v
  · simp [succs_eq_nil hv] at hpos
  · rfl

/-- The predecessors of a node are the nodes it is a successor of. -/
theorem mem_preds_iff_mem_succs (hg : g.Exact) : a ∈ g.preds b ↔ b ∈ g.succs a := by
  rw [← List.count_pos_iff, ← List.count_pos_iff, hg.count_eq]

section Find

variable [DecidableEq K]

/-- The slot found for a key is the live node with that key. -/
theorem find?_iff (hg : g.Exact) : g.find? k = some i ↔ g.key? i = some k :=
  (lookup_eq_some_iff_mem hg.index_nodup).trans hg.index_iff

/-- No slot is found for a key that no live node has. -/
theorem find?_eq_none_iff (hg : g.Exact) : g.find? k = none ↔ ∀ j, g.key? j ≠ some k := by
  rw [Digraph.find?_eq_none_iff]
  exact forall_congr' fun j => not_congr hg.index_iff

/-- A slot found for a key holds a live node. -/
theorem live_of_find? (hg : g.Exact) (h : g.find? k = some i) : (g.vertex? i).isSome := by
  rw [← isSome_key?, hg.find?_iff.1 h]
  rfl

end Find

/-- The slots the index records are those of the live nodes, each once, so the count of nodes
    read off the index is the number of live nodes. -/
theorem nodeCount_eq (hg : g.Exact) : g.nodeCount = g.nodeIds.length := by
  -- a slot is recorded with one key at most, and no key is recorded twice
  have hnodup : (g.index.map Prod.snd).Nodup := by
    refine (hg.index_nodup.of_map _).map_on fun x hx y hy hxy => ?_
    obtain ⟨k, i⟩ := x
    obtain ⟨k', i'⟩ := y
    dsimp only at hxy
    subst hxy
    have hk := (hg.index_iff.1 hx).symm.trans (hg.index_iff.1 hy)
    cases hk
    rfl
  have hmem : ∀ i, i ∈ g.index.map Prod.snd ↔ i ∈ g.nodeIds := fun i => by
    simp only [List.mem_map, Prod.exists, exists_eq_right, nodeIds, List.mem_filter,
      List.mem_range, hg.index_iff, ← isSome_key?, Option.isSome_iff_exists]
    exact ⟨fun ⟨k, hk⟩ => ⟨lt_bound_of_isSome (by rw [← isSome_key?, hk]; rfl), k, hk⟩,
      fun h => h.2⟩
  have hperm := (List.perm_ext_iff_of_nodup hnodup (List.nodup_range.filter _)).2 hmem
  calc g.nodeCount = (g.index.map Prod.snd).length := by simp [nodeCount]
    _ = g.nodeIds.length := hperm.length_eq

theorem length_succs (hg : g.Exact) (a : Nat) :
    (g.succs a).length = ∑ b ∈ Finset.range g.bound, (g.succs a).count b :=
  length_eq_sum_count fun _ hb => lt_bound_of_isSome (hg.live_of_mem_succs hb)

theorem length_preds (hg : g.Exact) (b : Nat) :
    (g.preds b).length = ∑ a ∈ Finset.range g.bound, (g.preds b).count a :=
  length_eq_sum_count fun _ ha => lt_bound_of_isSome (hg.live_of_mem_preds ha)

/-- Each edge is recorded once on either end, so the predecessor lists are as long in total as
    the successor lists. -/
theorem sum_length_preds (hg : g.Exact) :
    ∑ b ∈ Finset.range g.bound, (g.preds b).length =
      ∑ a ∈ Finset.range g.bound, (g.succs a).length :=
  calc ∑ b ∈ Finset.range g.bound, (g.preds b).length
      = ∑ b ∈ Finset.range g.bound, ∑ a ∈ Finset.range g.bound, (g.succs a).count b := by
        refine Finset.sum_congr rfl fun b _ => ?_
        rw [hg.length_preds b]
        exact Finset.sum_congr rfl fun a _ => (hg.count_eq a b).symm
    _ = ∑ a ∈ Finset.range g.bound, ∑ b ∈ Finset.range g.bound, (g.succs a).count b :=
        Finset.sum_comm
    _ = ∑ a ∈ Finset.range g.bound, (g.succs a).length :=
        Finset.sum_congr rfl fun a _ => (hg.length_succs a).symm

theorem empty : (empty : Digraph K).Exact where
  key_unique h := by simp [key?, vertex?, Digraph.empty] at h
  count_eq a b := by simp [succs, preds, vertex?, Digraph.empty]
  edgeCount_eq := by simp [Digraph.empty, bound]
  root_live h := by simp [Digraph.empty] at h
  index_iff := by simp [key?, vertex?, Digraph.empty]
  index_nodup := by simp [Digraph.empty]

end Exact

/-! ### Adding a node and setting the root -/

theorem vertex?_bound : g.vertex? g.bound = none := by simp [vertex?, bound]

section Keys

variable [DecidableEq K]

/-- The node a new key gets: its slot is the next one, and it has no edges. -/
theorem vertex?_addNode (h : g.addNode k = .ok (i, g')) :
    i = g.bound ∧ ¬ g.contains k ∧
      ∀ j, g'.vertex? j = if j = g.bound then some { key := k } else g.vertex? j := by
  unfold addNode at h
  split at h
  · cases h
  · cases h
    rename_i hk
    refine ⟨rfl, hk, fun j => ?_⟩
    unfold vertex? bound
    rw [Array.getElem?_push]
    by_cases hj : j = g.slots.size <;> simp [hj]

theorem Exact.addNode (hg : g.Exact) (h : g.addNode k = .ok (i, g')) : g'.Exact := by
  obtain ⟨-, hk, hv⟩ := vertex?_addNode h
  -- the new slot shows no neighbours, so every list reads as before
  have hsuccs : ∀ j, g'.succs j = g.succs j := fun j => by
    by_cases hj : j = g.bound
    · simp [succs, hv, hj, vertex?_bound]
    · simp [succs, hv, hj]
  have hpreds : ∀ j, g'.preds j = g.preds j := fun j => by
    by_cases hj : j = g.bound
    · simp [preds, hv, hj, vertex?_bound]
    · simp [preds, hv, hj]
  have hkey : ∀ j, g'.key? j = if j = g.bound then some k else g.key? j := fun j => by
    by_cases hj : j = g.bound <;> simp [key?, hv, hj]
  -- and no live node had the new key
  have hfresh : ∀ j, g.key? j ≠ some k :=
    hg.find?_eq_none_iff.1 (by simpa [contains] using hk)
  have hsize : g'.bound = g.bound + 1 := by
    unfold Digraph.addNode at h
    split at h <;> cases h
    simp [bound]
  have hrest : g'.edgeCount = g.edgeCount ∧ g'.root = g.root ∧
      g'.index = (k, g.bound) :: g.index := by
    unfold Digraph.addNode at h
    split at h <;> cases h
    exact ⟨rfl, rfl, rfl⟩
  refine ⟨fun {a b k'} ha hb => ?_, fun a b => ?_, ?_, fun {r} hr => ?_, fun {k' j} => ?_, ?_⟩
  · rw [hkey] at ha hb
    by_cases ha' : a = g.bound <;> by_cases hb' : b = g.bound <;> simp only [ha', hb', if_true,
      if_false] at ha hb
    · rw [ha', hb']
    · cases ha
      exact absurd hb (hfresh b)
    · cases hb
      exact absurd ha (hfresh a)
    · exact hg.key_unique ha hb
  · rw [hsuccs, hpreds]
    exact hg.count_eq a b
  · rw [hrest.1, hg.edgeCount_eq, hsize, Finset.sum_range_succ, hsuccs, succs_eq_nil vertex?_bound]
    simp [hsuccs]
  · rw [hrest.2.1] at hr
    rw [hv]
    split <;> simp [hg.root_live hr]
  · -- the index gains the new key with the new slot
    rw [hrest.2.2, List.mem_cons, hg.index_iff, hkey, Prod.mk.injEq]
    by_cases hj : j = g.bound
    · simp [hj, key?, vertex?_bound, eq_comm]
    · simp [hj]
  · rw [hrest.2.2, List.map_cons, List.nodup_cons]
    refine ⟨fun hmem => ?_, hg.index_nodup⟩
    obtain ⟨⟨k', j⟩, hj, rfl⟩ := List.mem_map.1 hmem
    exact hfresh j (hg.index_iff.1 hj)

theorem Exact.setRoot (hg : g.Exact) (h : g.setRoot k = .ok (i, g')) : g'.Exact := by
  simp only [Digraph.setRoot, bind_eq_ok, pure_eq_ok] at h
  obtain ⟨r, hr, h⟩ := h
  cases h
  exact { hg with root_live := fun h => by cases h; exact hg.live_of_find? (find?_of_require hr) }

end Keys

/-! ### Adding and removing one edge -/

/-- A sum over the slots in which slot `s` counts one more. -/
theorem sum_add_ite_eq {n : Nat} (hs : s < n) (f : Nat → Nat) :
    ∑ a ∈ Finset.range n, (f a + if s = a then 1 else 0) = ∑ a ∈ Finset.range n, f a + 1 := by
  rw [Finset.sum_add_distrib, Finset.sum_ite_eq, if_pos (Finset.mem_range.2 hs)]

/-- Adding an edge out of a live node shows among its successors. -/
theorem succs_link (hs : (g.vertex? s).isSome) :
    (g.link s d).succs a = if s = a then g.succs a ++ [d] else g.succs a := by
  simp only [link, succs_mk]
  rw [succs_modifySlot_preds (h := (· ++ [s])), succs_modifySlot_succs (h := (· ++ [d]))]
  by_cases hsa : s = a
  · subst hsa
    simp [hs]
  · simp [hsa]

/-- Adding an edge into a live node shows among its predecessors. -/
theorem preds_link (hd : (g.vertex? d).isSome) :
    (g.link s d).preds b = if d = b then g.preds b ++ [s] else g.preds b := by
  simp only [link, preds_mk]
  rw [preds_modifySlot_preds (h := (· ++ [s])), isSome_vertex?_modifySlot_succs (h := (· ++ [d])),
    preds_modifySlot_succs (h := (· ++ [d]))]
  by_cases hdb : d = b
  · subst hdb
    simp [hd]
  · simp [hdb]

theorem vertex?_link_isSome : ((g.link s d).vertex? j).isSome = (g.vertex? j).isSome := by
  simp only [link, vertex?_mk]
  rw [isSome_vertex?_modifySlot_preds (h := (· ++ [s])),
    isSome_vertex?_modifySlot_succs (h := (· ++ [d]))]

theorem key?_link : (g.link s d).key? j = g.key? j := by
  simp only [link, key?_mk]
  rw [key?_modifySlot_preds (h := (· ++ [s])), key?_modifySlot_succs (h := (· ++ [d]))]

/-- Adding an edge between live nodes keeps the records exact. -/
theorem Exact.link (hg : g.Exact) (hs : (g.vertex? s).isSome) (hd : (g.vertex? d).isSome) :
    (g.link s d).Exact where
  key_unique ha hb := hg.key_unique (key?_link ▸ ha) (key?_link ▸ hb)
  count_eq a b := by
    rw [succs_link hs, preds_link hd]
    by_cases hsa : s = a <;> by_cases hdb : d = b <;>
      simp [hsa, hdb, List.count_append, hg.count_eq]
  edgeCount_eq := by
    have hlen : ∀ a, ((g.link s d).succs a).length = (g.succs a).length + if s = a then 1 else 0 :=
      fun a => by rw [succs_link hs]; split <;> simp
    have hbound : (g.link s d).bound = g.bound := by
      simp only [Digraph.link, bound_mk, bound_modifySlot]
    rw [hbound, Finset.sum_congr rfl fun a _ => hlen a, sum_add_ite_eq (lt_bound_of_isSome hs),
      ← hg.edgeCount_eq]
    rfl
  root_live {r} hr := by
    rw [vertex?_link_isSome]
    exact hg.root_live (by simpa [Digraph.link] using hr)
  index_iff {k i} := by
    rw [key?_link]
    exact hg.index_iff
  index_nodup := hg.index_nodup

/-- Removing an edge: it was recorded at the source, one entry leaves the successors of the
    source and one the predecessors of the target, the counter falls by one, and nothing else
    changes. -/
theorem unlink_views (h : g.unlink s d = some g') :
    d ∈ g.succs s ∧ (∀ a, g'.succs a = if s = a then (g.succs a).erase d else g.succs a) ∧
      (∀ b, g'.preds b = if d = b then (g.preds b).erase s else g.preds b) ∧
      (∀ j, g'.key? j = g.key? j) ∧ (∀ j, (g'.vertex? j).isSome = (g.vertex? j).isSome) ∧
      g'.bound = g.bound ∧ g'.edgeCount = g.edgeCount - 1 ∧ g'.root = g.root ∧
      g'.index = g.index := by
  unfold Digraph.unlink at h
  split at h
  · cases h
    refine ⟨‹_›, fun a => ?_, fun b => ?_, fun j => ?_, fun j => ?_, ?_, rfl, rfl, rfl⟩
    · simp only [succs_mk]
      rw [succs_modifySlot_preds (h := fun l => l.erase s), succs_modifySlot_erase]
    · simp only [preds_mk]
      rw [preds_modifySlot_erase, preds_modifySlot_succs (h := fun l => l.erase d)]
    · simp only [key?_mk]
      rw [key?_modifySlot_preds (h := fun l => l.erase s),
        key?_modifySlot_succs (h := fun l => l.erase d)]
    · simp only [vertex?_mk]
      rw [isSome_vertex?_modifySlot_preds (h := fun l => l.erase s),
        isSome_vertex?_modifySlot_succs (h := fun l => l.erase d)]
    · simp only [bound_mk, bound_modifySlot]
  · cases h

/-- Removing an edge that is there keeps the records exact, and the counter, which is at least
    one, falls by one. -/
theorem Exact.unlink (hg : g.Exact) (h : g.unlink s d = some g') :
    g'.Exact ∧ g'.edgeCount + 1 = g.edgeCount := by
  obtain ⟨hmem, hsuccs, hpreds, hkey, hlive, hbound, hcount, hroot, hindex⟩ := unlink_views h
  -- the source is live, and loses one successor
  have hs : s < g.bound := lt_bound_of_isSome (hg.live_of_mem_preds
    (List.count_pos_iff.1 (hg.count_eq s d ▸ List.count_pos_iff.2 hmem)))
  have hlen : (g.succs s).length = ((g.succs s).erase d).length + 1 := by
    have := List.length_pos_of_mem hmem
    rw [List.length_erase_of_mem hmem]
    omega
  have htotal : ∑ a ∈ Finset.range g.bound, (g.succs a).length =
      ∑ a ∈ Finset.range g.bound, (g'.succs a).length + 1 := by
    rw [← sum_add_ite_eq hs]
    refine Finset.sum_congr rfl fun a _ => ?_
    rw [hsuccs]
    by_cases hsa : s = a
    · subst hsa
      simpa using hlen
    · simp [hsa]
  refine ⟨⟨fun ha hb => hg.key_unique (hkey _ ▸ ha) (hkey _ ▸ hb), fun a b => ?_, ?_,
    fun {r} hr => ?_, fun {k i} => ?_, hindex ▸ hg.index_nodup⟩, ?_⟩
  · rw [hsuccs, hpreds]
    by_cases hsa : s = a <;> by_cases hdb : d = b <;>
      simp [hsa, hdb, List.count_erase, hg.count_eq]
  · rw [hcount, hbound, hg.edgeCount_eq, htotal]
    rfl
  · rw [hlive]
    exact hg.root_live (hroot ▸ hr)
  · rw [hindex, hkey]
    exact hg.index_iff
  · rw [hcount, hg.edgeCount_eq, htotal]
    omega

section Edits

variable [DecidableEq K]

theorem Exact.addEdge {a b : K} (hg : g.Exact) (h : g.addEdge a b = .ok g') : g'.Exact := by
  simp only [Digraph.addEdge, bind_eq_ok, pure_eq_ok] at h
  obtain ⟨s, hs, d, hd, rfl⟩ := h
  exact hg.link (hg.live_of_find? (find?_of_require hs)) (hg.live_of_find? (find?_of_require hd))

theorem Exact.delEdge {a b : K} {found : Bool} (hg : g.Exact)
    (h : g.delEdge a b = .ok (found, g')) : g'.Exact := by
  simp only [Digraph.delEdge, bind_eq_ok] at h
  obtain ⟨s, -, d, -, h⟩ := h
  split at h <;> simp only [pure_eq_ok, Prod.mk.injEq] at h <;> obtain ⟨-, rfl⟩ := h
  · exact (hg.unlink ‹_›).1
  · exact hg

theorem Exact.splitEdge {a b : K} (hg : g.Exact) (h : g.splitEdge a b k = .ok (i, g')) :
    g'.Exact := by
  obtain ⟨g₁, g₂, g₃, h₁, h₂, h₃, h₄⟩ := splitEdge_eq_ok h
  exact (((hg.delEdge h₁).addNode h₂).addEdge h₃).addEdge h₄

/-- Turning the graph around swaps the two lists of every slot, keeps the slots and the
    counter, and roots the graph at the node found for the key. -/
theorem reversed_views (h : g.reversed k = .ok g') :
    (∀ j, g'.vertex? j = (g.vertex? j).map fun v => { v with preds := v.succs, succs := v.preds }) ∧
      g'.bound = g.bound ∧ g'.edgeCount = g.edgeCount ∧ g'.index = g.index ∧
      ∃ r, g.find? k = some r ∧ g'.root = some r := by
  simp only [Digraph.reversed, bind_eq_ok, pure_eq_ok] at h
  obtain ⟨r, hr, rfl⟩ := h
  refine ⟨fun j => ?_, by simp [bound], rfl, rfl, r, find?_of_require hr, rfl⟩
  unfold vertex?
  rw [Array.getElem?_map]
  rcases g.slots[j]? with _ | v
  · rfl
  · by_cases hv : v.removed <;> simp [hv]

theorem Exact.reversed (hg : g.Exact) (h : g.reversed k = .ok g') : g'.Exact := by
  obtain ⟨hv, hbound, hcount, hindex, r, hr, hroot⟩ := reversed_views h
  have hsuccs : ∀ j, g'.succs j = g.preds j := fun j => by
    simp only [succs, preds, hv]
    rcases g.vertex? j <;> rfl
  have hpreds : ∀ j, g'.preds j = g.succs j := fun j => by
    simp only [succs, preds, hv]
    rcases g.vertex? j <;> rfl
  have hkey : ∀ j, g'.key? j = g.key? j := fun j => by
    simp only [key?, hv]
    rcases g.vertex? j <;> rfl
  refine ⟨fun ha hb => hg.key_unique (hkey _ ▸ ha) (hkey _ ▸ hb), fun a b => ?_, ?_,
    fun {r'} hr' => ?_, fun {k i} => ?_, hindex ▸ hg.index_nodup⟩
  · rw [hsuccs, hpreds]
    exact (hg.count_eq b a).symm
  · -- the predecessor lists are as long in total as the successor lists
    simp only [hsuccs]
    rw [hbound, hg.sum_length_preds, hcount, hg.edgeCount_eq]
  · rw [hroot] at hr'
    cases hr'
    rw [hv, Option.isSome_map]
    exact hg.live_of_find? hr
  · rw [hindex, hkey]
    exact hg.index_iff

end Edits

/-! ### Deleting a node -/

/-- The number of edges at a node: those leaving it, self-loops included, and those entering it
    from other nodes. Deleting the node lowers the counter once for each. -/
def degree (g : Digraph K) (i : Nat) : Nat := (g.succs i).length + (g.preds i).countP (· ≠ i)

/-! The rounds of the two loops of a deletion change one list of one slot: the first drops an
entry `i` from the predecessors of a successor `s`, the second an entry `i` from the successors
of a predecessor `p` other than `i`; each counts one edge less. -/

theorem count_preds_erase_of_ne (hx : x ≠ i) :
    ((g.modifySlot s fun v => { v with preds := v.preds.erase i }).preds j).count x =
      (g.preds j).count x := by
  rw [preds_modifySlot_erase]
  split
  · rw [List.count_erase, if_neg (by simpa using Ne.symm hx), Nat.sub_zero]
  · rfl

theorem count_preds_erase_self :
    ((g.modifySlot s fun v => { v with preds := v.preds.erase i }).preds j).count i =
      (g.preds j).count i - if s == j then 1 else 0 := by
  rw [preds_modifySlot_erase]
  by_cases hs : s = j
  · subst hs
    simp
  · simp [hs]

theorem count_succs_erase_of_ne (hx : x ≠ i) :
    ((g.modifySlot s fun v => { v with succs := v.succs.erase i }).succs j).count x =
      (g.succs j).count x := by
  rw [succs_modifySlot_erase]
  split
  · rw [List.count_erase, if_neg (by simpa using Ne.symm hx), Nat.sub_zero]
  · rfl

theorem count_succs_erase_self :
    ((g.modifySlot s fun v => { v with succs := v.succs.erase i }).succs j).count i =
      (g.succs j).count i - if s == j then 1 else 0 := by
  rw [succs_modifySlot_erase]
  by_cases hs : s = j
  · subst hs
    simp
  · simp [hs]

section Delete

variable [DecidableEq K]

/-- Deleting the node found for `k` hides its slot and keeps every other key. -/
theorem key?_delNode (hk : g.find? k = some i) :
    (g.delNode k).2.key? j = if i = j then none else g.key? j := by
  simp only [Digraph.delNode, hk, edgeCount_modifySlot, root_modifySlot, key?_mk]
  rw [key?_modifySlot_remove, foldl_keep (fun g => g.key? j) fun g p => ?second,
    key?_modifySlot_preds (h := fun _ => []), foldl_keep (fun g => g.key? j) fun g s => ?first,
    key?_modifySlot_succs (h := fun _ => [])]
  case first => exact key?_modifySlot_preds (h := fun l => l.erase i)
  case second =>
    split
    · rfl
    · exact key?_modifySlot_succs (h := fun l => l.erase i)

/-- Deleting the node found for `k` drops the edges at it from every successor list, and keeps
    the other edges. -/
theorem count_succs_delNode (hg : g.Exact) (hk : g.find? k = some i) :
    ((g.delNode k).2.succs a).count b = if a = i ∨ b = i then 0 else (g.succs a).count b := by
  simp only [Digraph.delNode, hk, edgeCount_modifySlot, root_modifySlot, succs_mk]
  rw [succs_modifySlot_remove]
  by_cases hia : i = a
  · simp [hia]
  rw [if_neg hia]
  by_cases hbi : b = i
  · -- the second loop drops one entry `i` per entry `a` among the predecessors left to `i`,
    -- which are those of `i` in the graph before
    subst hbi
    rw [foldl_sub_countP (fun g => (g.succs a).count b) (· == a) fun g p => ?second,
      succs_modifySlot_preds (h := fun _ => []), foldl_keep (fun g => g.succs a) fun g s => ?first,
      succs_modifySlot_succs (h := fun _ => []), if_neg fun h => hia h.1,
      ← List.count_eq_countP, foldl_keep (fun g => (g.preds b).count a) fun g s => ?firstCount,
      preds_modifySlot_succs (h := fun _ => []), ← hg.count_eq, if_pos (.inr rfl), Nat.sub_self]
    case first => exact succs_modifySlot_preds (h := fun l => l.erase b)
    case firstCount => exact count_preds_erase_of_ne (Ne.symm hia)
    case second =>
      split
      · rename_i hp
        subst hp
        simp [hia]
      · exact count_succs_erase_self
  · rw [foldl_keep (fun g => (g.succs a).count b) fun g p => ?second,
      succs_modifySlot_preds (h := fun _ => []), foldl_keep (fun g => g.succs a) fun g s => ?first,
      succs_modifySlot_succs (h := fun _ => []), if_neg fun h => hia h.1, if_neg (by omega)]
    case first => exact succs_modifySlot_preds (h := fun l => l.erase i)
    case second =>
      split
      · rfl
      · exact count_succs_erase_of_ne hbi

/-- Deleting the node found for `k` drops the edges at it from every predecessor list, and
    keeps the other edges. -/
theorem count_preds_delNode (hg : g.Exact) (hk : g.find? k = some i) :
    ((g.delNode k).2.preds b).count a = if a = i ∨ b = i then 0 else (g.preds b).count a := by
  simp only [Digraph.delNode, hk, edgeCount_modifySlot, root_modifySlot, preds_mk]
  rw [preds_modifySlot_remove]
  by_cases hib : i = b
  · simp [hib]
  rw [if_neg hib, foldl_keep (fun g => g.preds b) fun g p => ?second,
    preds_modifySlot_preds (h := fun _ => []), if_neg fun h => hib h.1]
  case second =>
    split
    · rfl
    · exact preds_modifySlot_succs (h := fun l => l.erase i)
  by_cases hai : a = i
  · -- the first loop drops one entry `i` per entry `b` among the successors of `i`
    subst hai
    rw [foldl_sub_countP (fun g => (g.preds b).count a) (· == b) fun g s => ?first,
      preds_modifySlot_succs (h := fun _ => []), ← List.count_eq_countP, hg.count_eq,
      if_pos (.inl rfl), Nat.sub_self]
    case first => exact count_preds_erase_self
  · rw [foldl_keep (fun g => (g.preds b).count a) fun g s => ?first,
      preds_modifySlot_succs (h := fun _ => []), if_neg (by omega)]
    case first => exact count_preds_erase_of_ne hai

/-- Deleting the node found for `k` lowers the counter once per edge at the node. -/
theorem edgeCount_delNode (hk : g.find? k = some i) :
    (g.delNode k).2.edgeCount = g.edgeCount - g.degree i := by
  simp only [Digraph.delNode, hk, edgeCount_modifySlot, root_modifySlot]
  rw [foldl_sub_countP (fun g => g.edgeCount) (· ≠ i) fun g p => ?second, edgeCount_modifySlot,
    foldl_sub_countP (fun g => g.edgeCount) (fun _ => true) fun g s => ?first,
    edgeCount_modifySlot, List.countP_true, degree, Nat.sub_sub]
  case first => simp
  case second =>
    split
    · rename_i hp
      simp [hp]
    · rename_i hp
      simp [hp]
  -- the predecessors left to `i` after the first loop differ from those of `i` only in `i`
  congr 2
  refine countP_ne_eq fun x hx => ?_
  rw [foldl_keep (fun g => (g.preds i).count x) fun g s => ?first,
    preds_modifySlot_succs (h := fun _ => [])]
  case first => exact count_preds_erase_of_ne hx

/-- Deleting the node found for `k` clears the root if it was that node. -/
theorem root_delNode (hk : g.find? k = some i) :
    (g.delNode k).2.root = if g.root = some i then none else g.root := by
  simp only [Digraph.delNode, hk, edgeCount_modifySlot, root_modifySlot]
  -- neither loop touches the root
  refine congrArg (fun r => if r = some i then none else r) ?_
  rw [foldl_keep (fun g => g.root) fun g p => ?second, root_modifySlot,
    foldl_keep (fun g => g.root) fun g s => ?first, root_modifySlot]
  case first => rfl
  case second => split <;> rfl

/-- Deleting the node found for `k` drops its key from the index. -/
theorem index_delNode (hk : g.find? k = some i) :
    (g.delNode k).2.index = g.index.filter fun e => e.1 ≠ k := by
  simp only [Digraph.delNode, hk]
  rw [index_modifySlot, foldl_keep (fun g => g.index) fun g p => ?second, index_modifySlot,
    foldl_keep (fun g => g.index) fun g s => ?first, index_modifySlot]
  case first => rfl
  case second => split <;> rfl

theorem bound_delNode (hk : g.find? k = some i) : (g.delNode k).2.bound = g.bound := by
  simp only [Digraph.delNode, hk, edgeCount_modifySlot, root_modifySlot, bound_mk,
    bound_modifySlot]
  rw [foldl_keep (fun g => g.bound) fun g p => ?second, bound_modifySlot,
    foldl_keep (fun g => g.bound) fun g s => ?first, bound_modifySlot]
  case first => simp only [bound_mk, bound_modifySlot]
  case second =>
    split
    · rfl
    · simp only [bound_mk, bound_modifySlot]

/-- Deleting a node keeps the records exact, and the counter falls by exactly the number of
    edges at the node; it was at least that number, so no decrement of the two loops passes
    zero. -/
theorem Exact.delNode (hg : g.Exact) (hk : g.find? k = some i) :
    (g.delNode k).2.Exact ∧ (g.delNode k).2.edgeCount + g.degree i = g.edgeCount := by
  have hi : i < g.bound := lt_bound_of_isSome (hg.live_of_find? hk)
  have hlive : ∀ j, (((g.delNode k).2.vertex? j).isSome) = (decide (i ≠ j) && (g.vertex? j).isSome) :=
    fun j => by
      rw [← isSome_key?, key?_delNode hk, ← isSome_key?]
      by_cases hij : i = j <;> simp [hij]
  -- the slot of the node shows no successors any more, every other slot loses its entries `i`
  have hrow : ∀ a, (g.succs a).length = ((g.delNode k).2.succs a).length +
      if a = i then (g.succs i).length else (g.succs a).count i := fun a => by
    by_cases hai : a = i
    · subst hai
      have hnone : (g.delNode k).2.vertex? a = none := by simpa using hlive a
      simp [succs_eq_nil hnone]
    · rw [if_neg hai]
      exact length_eq_add_count fun x => by rw [count_succs_delNode hg hk]; simp [hai]
  -- the losses add up to the degree: the successors of the node, and one entry per
  -- predecessor of the node other than itself
  have hloss : ∑ a ∈ Finset.range g.bound,
      (if a = i then (g.succs i).length else (g.succs a).count i) = g.degree i := by
    rw [← Finset.add_sum_erase _ _ (Finset.mem_range.2 hi), if_pos rfl, degree,
      countP_ne_eq_sum hi fun x hx => lt_bound_of_isSome (hg.live_of_mem_preds hx)]
    congr 1
    exact Finset.sum_congr rfl fun a ha => by
      rw [if_neg (Finset.ne_of_mem_erase ha), hg.count_eq]
  have htotal : ∑ a ∈ Finset.range g.bound, (g.succs a).length =
      ∑ a ∈ Finset.range g.bound, ((g.delNode k).2.succs a).length + g.degree i := by
    rw [← hloss, ← Finset.sum_add_distrib]
    exact Finset.sum_congr rfl fun a _ => hrow a
  refine ⟨⟨fun {a b k'} ha hb => ?_, fun a b => ?_, ?_, fun {r} hr => ?_, fun {k' j} => ?_,
    ?_⟩, ?_⟩
  · rw [key?_delNode hk] at ha hb
    split at ha
    · cases ha
    split at hb
    · cases hb
    exact hg.key_unique ha hb
  · rw [count_succs_delNode hg hk, count_preds_delNode hg hk, hg.count_eq]
  · rw [edgeCount_delNode hk, bound_delNode hk, hg.edgeCount_eq, htotal]
    omega
  · rw [root_delNode hk] at hr
    split at hr
    · cases hr
    · rename_i hne
      rw [hlive]
      simp only [Bool.and_eq_true, decide_eq_true_eq]
      exact ⟨fun h => hne (h ▸ hr), hg.root_live hr⟩
  · -- the index loses the key of the node, which no other live node has
    rw [index_delNode hk, List.mem_filter, hg.index_iff, key?_delNode hk]
    have hki := hg.find?_iff.1 hk
    by_cases hij : i = j
    · subst hij
      simp only [hki, Option.some.injEq, if_true, reduceCtorEq, iff_false]
      rintro ⟨rfl, h⟩
      simp at h
    · simp only [hij, if_false, decide_eq_true_eq, and_iff_left_iff_imp]
      rintro hkj rfl
      exact hij (hg.key_unique hki hkj)
  · rw [index_delNode hk]
    exact (List.filter_sublist.map Prod.fst).nodup hg.index_nodup
  · rw [edgeCount_delNode hk, hg.edgeCount_eq, htotal]
    omega

/-- Removing an edge with `delEdge` keeps every key, the number of slots and the index, and
    finds both ends first. -/
theorem delEdge_eq_ok {a b : K} {found : Bool} (h : g.delEdge a b = .ok (found, g')) :
    (∃ s, g.find? a = some s) ∧ (∃ d, g.find? b = some d) ∧
      (∀ j, g'.key? j = g.key? j) ∧ g'.bound = g.bound ∧ g'.index = g.index := by
  simp only [Digraph.delEdge, bind_eq_ok] at h
  obtain ⟨s, hs, d, hd, h⟩ := h
  refine ⟨⟨s, find?_of_require hs⟩, ⟨d, find?_of_require hd⟩, ?_⟩
  split at h <;> simp only [pure_eq_ok, Prod.mk.injEq] at h <;> obtain ⟨-, rfl⟩ := h
  · obtain ⟨-, -, -, hkey, -, hbound, -, -, hindex⟩ := unlink_views ‹_›
    exact ⟨hkey, hbound, hindex⟩
  · exact ⟨fun _ => rfl, rfl, rfl⟩

/-- In an exact graph an edge between live keys is always added. -/
theorem Exact.addEdge_eq_ok {a b : K} (hg : g.Exact) (hs : g.key? s = some a)
    (hd : g.key? d = some b) : g.addEdge a b = .ok (g.link s d) := by
  simp [Digraph.addEdge, require, hg.find?_iff.2 hs, hg.find?_iff.2 hd]

/-- A split that has removed its edge goes through: the new key is fresh and both ends are
    live, so adding the node and the two edges cannot fail. A failed split therefore failed at a
    check made before it changed anything. -/
theorem splitEdge_eq_ok_of_delEdge {a b : K} {g₁ : Digraph K} (hg : g.Exact)
    (hk : g.contains k = false) (hd : g.delEdge a b = .ok (true, g₁)) :
    ∃ i g', g.splitEdge a b k = .ok (i, g') := by
  obtain ⟨⟨s, hs⟩, ⟨d, hd'⟩, hkey₁, hb₁, hindex₁⟩ := delEdge_eq_ok hd
  have e₁ : g₁.Exact := hg.delEdge hd
  -- the key is still fresh once the edge is gone, so the node goes into the next slot
  have hk₁ : g₁.contains k = false := by rwa [contains, find?_congr hindex₁]
  obtain ⟨g₂, h₂⟩ : ∃ g₂, g₁.addNode k = .ok (g.bound, g₂) := by
    simp [Digraph.addNode, hk₁, hb₁]
  have e₂ : g₂.Exact := e₁.addNode h₂
  have hkey₂ : ∀ j, g₂.key? j = if j = g.bound then some k else g.key? j := fun j => by
    rw [← hb₁, ← hkey₁ j]
    unfold key?
    rw [(vertex?_addNode h₂).2.2 j]
    split <;> rfl
  -- both ends were found below the new slot
  have hsa : g₂.key? s = some a := by
    rw [hkey₂, if_neg (Nat.ne_of_lt (lt_bound_of_isSome (hg.live_of_find? hs)))]
    exact hg.find?_iff.1 hs
  have hdb : g₂.key? d = some b := by
    rw [hkey₂, if_neg (Nat.ne_of_lt (lt_bound_of_isSome (hg.live_of_find? hd')))]
    exact hg.find?_iff.1 hd'
  have hmid : g₂.key? g.bound = some k := by rw [hkey₂, if_pos rfl]
  have h₃ := e₂.addEdge_eq_ok hsa hmid
  have e₃ : (g₂.link s g.bound).Exact := e₂.addEdge h₃
  have h₄ := e₃.addEdge_eq_ok (key?_link.trans hmid) (key?_link.trans hdb)
  refine ⟨g.bound, (g₂.link s g.bound).link g.bound d, ?_⟩
  simp [splitEdge, hk, hd, h₂, h₃, h₄]

end Delete

/-! ### Built graphs -/

/-- The edge counter is the sum of the out-degrees of the live nodes. -/
theorem Exact.edgeCount_eq_sum_nodeIds (hg : g.Exact) :
    g.edgeCount = (g.nodeIds.map fun a => (g.succs a).length).sum := by
  -- a dead slot has no successors, so the sum over the live slots is the sum over all slots
  have hdead : ∀ a, (g.vertex? a).isSome = false → (g.succs a).length = 0 := fun a ha => by
    rw [succs_eq_nil (Option.not_isSome_iff_eq_none.1 (by simpa using ha)), List.length_nil]
  rw [nodeIds, sum_filter_range hdead, hg.edgeCount_eq]

section Built

variable [DecidableEq K]

/-- Every edit keeps the records exact, so every built graph has them exact. -/
theorem Built.exact (h : g.Built) : g.Exact := by
  induction h with
  | empty => exact Exact.empty
  | addNode _ h ih => exact ih.addNode h
  | addEdge _ h ih => exact ih.addEdge h
  | delEdge _ h ih => exact ih.delEdge h
  | splitEdge _ h ih => exact ih.splitEdge h
  | @delNode g k _ ih =>
    cases hk : g.find? k with
    | none => simpa [Digraph.delNode, hk] using ih
    | some i => exact (ih.delNode hk).1
  | setRoot _ h ih => exact ih.setRoot h
  | reversed _ h ih => exact ih.reversed h

/-- The adjacency records of a built graph are exact, whatever edits built it (parallel edges
    and self-loops included): the index pairs exactly the keys of the live nodes with their
    slots, each key once, so the lookup finds exactly the live keys and the count of nodes is the
    number of live nodes; every neighbour entry names a live node; each edge shows once among the successors of its source and once among
    the predecessors of its target; the counter is the number of successor entries of the
    live nodes, so removing an edge finds it at least one, and deleting a node finds it at
    least the number of its edges, one per decrement; the root is live; and a split that has
    removed its edge always completes, so no edit fails after it has changed the graph. -/
theorem Built.adjacency_exact (h : g.Built) :
    (∀ k i, (k, i) ∈ g.index ↔ g.key? i = some k) ∧ (g.index.map Prod.fst).Nodup ∧
    (∀ k i, g.find? k = some i ↔ g.key? i = some k) ∧ g.nodeCount = g.nodeIds.length ∧
    (∀ a b, b ∈ g.succs a ∨ b ∈ g.preds a → (g.vertex? b).isSome) ∧
    (∀ a b, (g.succs a).count b = (g.preds b).count a) ∧
    g.edgeCount = (g.nodeIds.map fun a => (g.succs a).length).sum ∧
    (∀ r, g.root = some r → (g.vertex? r).isSome) ∧
    (∀ s d g', g.unlink s d = some g' → g'.edgeCount + 1 = g.edgeCount) ∧
    (∀ k i, g.find? k = some i → (g.delNode k).2.edgeCount + g.degree i = g.edgeCount) ∧
    (∀ a b k g₁, g.contains k = false → g.delEdge a b = .ok (true, g₁) →
      ∃ i g', g.splitEdge a b k = .ok (i, g')) := by
  have hg := h.exact
  refine ⟨fun k i => hg.index_iff, hg.index_nodup, fun k i => hg.find?_iff, hg.nodeCount_eq,
    fun a b hb => ?_, hg.count_eq, hg.edgeCount_eq_sum_nodeIds,
    fun r hr => hg.root_live hr, fun s d g' hu => (hg.unlink hu).2,
    fun k i hk => (hg.delNode hk).2, fun a b k g₁ hk hd => splitEdge_eq_ok_of_delEdge hg hk hd⟩
  rcases hb with hb | hb
  · exact hg.live_of_mem_succs hb
  · exact hg.live_of_mem_preds hb

end Built

/-- Two nodes joined by a pair of parallel edges, with a self-loop on the second. -/
def parallelLoop : Digraph Nat where
  slots := #[{ key := 0, succs := [1, 1] }, { key := 1, preds := [0, 0, 1], succs := [1] }]
  index := [(1, 1), (0, 0)]
  root := some 0
  edgeCount := 3

theorem parallelLoop_built : parallelLoop.Built := by
  have h₁ := (Digraph.Built.empty (K := Nat)).addNode (k := 0) (i := 0)
    (by with_unfolding_all rfl)
  have h₂ := h₁.addNode (k := 1) (i := 1) (by with_unfolding_all rfl)
  have h₃ := h₂.addEdge (a := 0) (b := 1) (by with_unfolding_all rfl)
  have h₄ := h₃.addEdge (a := 0) (b := 1) (by with_unfolding_all rfl)
  have h₅ := h₄.addEdge (a := 1) (b := 1) (by with_unfolding_all rfl)
  exact h₅.setRoot (k := 0) (i := 0) (by with_unfolding_all rfl)

theorem adjacency_exact_parallelLoop : parallelLoop.Built ∧
    (∀ k i, (k, i) ∈ parallelLoop.index ↔ parallelLoop.key? i = some k) ∧
    (parallelLoop.index.map Prod.fst).Nodup ∧
    (∀ k i, parallelLoop.find? k = some i ↔ parallelLoop.key? i = some k) ∧
    parallelLoop.nodeCount = parallelLoop.nodeIds.length ∧
    (∀ a b, b ∈ parallelLoop.succs a ∨ b ∈ parallelLoop.preds a →
      (parallelLoop.vertex? b).isSome) ∧
    (∀ a b, (parallelLoop.succs a).count b = (parallelLoop.preds b).count a) ∧
    parallelLoop.edgeCount =
      (parallelLoop.nodeIds.map fun a => (parallelLoop.succs a).length).sum ∧
    (∀ r, parallelLoop.root = some r → (parallelLoop.vertex? r).isSome) ∧
    (∀ s d g', parallelLoop.unlink s d = some g' → g'.edgeCount + 1 = parallelLoop.edgeCount) ∧
    (∀ k i, parallelLoop.find? k = some i →
      (parallelLoop.delNode k).2.edgeCount + parallelLoop.degree i = parallelLoop.edgeCount) ∧
    (∀ a b k g₁, parallelLoop.contains k = false → parallelLoop.delEdge a b = .ok (true, g₁) →
      ∃ i g', parallelLoop.splitEdge a b k = .ok (i, g')) :=
  ⟨parallelLoop_built, Built.adjacency_exact parallelLoop_built⟩

end Digraph

end Decompilation
