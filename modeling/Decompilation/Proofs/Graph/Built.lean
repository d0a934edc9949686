import Decompilation.Proofs.Except
import Decompilation.Proofs.Graph.Path

/-!
# Graphs built by the edits

The graphs a program can hold are those the edits build, one after another, from the empty
graph: adding nodes and edges, deleting them, splitting an edge, setting the root and turning
the graph around. The search and the dominator computation read successor lists slot by slot
and mark slots in arrays of the graph's size, so they rely on one fact about such graphs,
which a graph made up at random need not have: every edge ends at a slot of the graph, and so
do the root and every slot the index records.

* `Digraph.Built`: the graphs the edits build from the empty graph;
* `Digraph.Closed`: every recorded edge, every indexed slot and the root lie within the slots;
* `Digraph.Built.closed`: every built graph is closed, one lemma per edit.
-/

namespace Decompilation

namespace Digraph

variable {K : Type}

/-- Every edge recorded at a slot, as a successor or a predecessor, ends at a slot of the
    graph, the index records slots of the graph, and the root is a slot. -/
structure Closed (g : Digraph K) : Prop where
  slot_lt : ∀ (i : Nat) (v : Vertex K), g.slots[i]? = some v →
    ∀ j, j ∈ v.succs ∨ j ∈ v.preds → j < g.bound
  index_lt : ∀ k i, (k, i) ∈ g.index → i < g.bound
  root_lt : ∀ r, g.root = some r → r < g.bound

variable {g g' : Digraph K} {i j s d : Nat} {k : K} {f : Vertex K → Vertex K}

/-! ### Slots -/

theorem mem_succs_iff : j ∈ g.succs i ↔ ∃ v, g.slots[i]? = some v ∧ v.removed = false ∧ j ∈ v.succs := by
  unfold succs vertex?
  split <;> simp_all
  · split <;> simp_all

theorem mem_preds_iff : j ∈ g.preds i ↔ ∃ v, g.slots[i]? = some v ∧ v.removed = false ∧ j ∈ v.preds := by
  unfold preds vertex?
  split <;> simp_all
  · split <;> simp_all

@[simp]
theorem bound_modifySlot : (g.modifySlot s f).bound = g.bound := by
  simp [modifySlot, bound]

theorem slots_modifySlot :
    (g.modifySlot s f).slots[i]? = if s = i then g.slots[i]?.map f else g.slots[i]? :=
  Array.getElem?_modify

/-! ### Closed graphs -/

namespace Closed

theorem succs_lt (hg : g.Closed) (h : j ∈ g.succs i) : j < g.bound := by
  obtain ⟨v, hv, -, hj⟩ := mem_succs_iff.1 h
  exact hg.slot_lt i v hv j (.inl hj)

theorem empty : (empty : Digraph K).Closed where
  slot_lt _ _ h := by simp [Digraph.empty] at h
  index_lt _ _ h := by simp [Digraph.empty] at h
  root_lt _ h := by simp [Digraph.empty] at h

/-- A change of one slot whose new edges end at slots keeps a graph closed. -/
theorem modifySlot (hg : g.Closed)
    (hf : ∀ v, g.slots[s]? = some v → ∀ j, j ∈ (f v).succs ∨ j ∈ (f v).preds → j < g.bound) :
    (g.modifySlot s f).Closed where
  slot_lt i v' hv' j hj := by
    rw [slots_modifySlot] at hv'
    rw [bound_modifySlot]
    split at hv'
    · subst s
      obtain ⟨v, hv, rfl⟩ := Option.map_eq_some_iff.1 hv'
      exact hf v hv j hj
    · exact hg.slot_lt i v' hv' j hj
  index_lt k i h := by simpa using hg.index_lt k i h
  root_lt r hr := by simpa using hg.root_lt r hr

/-- A change of one slot that only drops edges keeps a graph closed. -/
theorem modifySlot_of_subset (hg : g.Closed)
    (hf : ∀ v j, j ∈ (f v).succs ∨ j ∈ (f v).preds → j ∈ v.succs ∨ j ∈ v.preds) :
    (g.modifySlot s f).Closed :=
  hg.modifySlot fun v hv j hj => hg.slot_lt s v hv j (hf v j hj)

/-- A run of closedness-keeping steps keeps a graph closed. -/
theorem foldl {α : Type} {F : Digraph K → α → Digraph K}
    (hF : ∀ g a, g.Closed → (F g a).Closed) : ∀ (l : List α) {g : Digraph K}, g.Closed →
    (l.foldl F g).Closed
  | [], _, hg => hg
  | a :: l, _, hg => foldl hF l (hF _ a hg)

theorem withEdgeCount (hg : g.Closed) (n : Nat) : ({ g with edgeCount := n } : Digraph K).Closed :=
  ⟨hg.slot_lt, hg.index_lt, hg.root_lt⟩

/-- Dropping entries of the index, and changing the root to none or to the old root, keep a
    graph closed. -/
theorem withIndexRoot (hg : g.Closed) {index : List (K × Nat)} (hi : ∀ e ∈ index, e ∈ g.index)
    {root : Option Nat} (hr : ∀ r, root = some r → g.root = some r) :
    ({ g with index, root } : Digraph K).Closed :=
  ⟨hg.slot_lt, fun k i h => hg.index_lt k i (hi _ h), fun r h => hg.root_lt r (hr r h)⟩

theorem link (hg : g.Closed) (hs : s < g.bound) (hd : d < g.bound) : (g.link s d).Closed := by
  have h₁ := hg.modifySlot (s := s) (f := fun v => { v with succs := v.succs ++ [d] })
    (fun v hv j hj => by
      simp only [List.mem_append, List.mem_singleton] at hj
      rcases hj with (hj | rfl) | hj
      · exact hg.slot_lt s v hv j (.inl hj)
      · exact hd
      · exact hg.slot_lt s v hv j (.inr hj))
  have h₂ := h₁.modifySlot (s := d) (f := fun v => { v with preds := v.preds ++ [s] })
    (fun v hv j hj => by
      simp only [List.mem_append, List.mem_singleton] at hj
      rcases hj with hj | hj | rfl
      · exact h₁.slot_lt d v hv j (.inl hj)
      · exact h₁.slot_lt d v hv j (.inr hj)
      · simpa using hs)
  exact ⟨h₂.slot_lt, h₂.index_lt, h₂.root_lt⟩

theorem unlink (hg : g.Closed) (h : g.unlink s d = some g') : g'.Closed := by
  unfold Digraph.unlink at h
  split at h
  · cases h
    have h₁ := hg.modifySlot_of_subset (s := s) (f := fun v => { v with succs := v.succs.erase d })
      (fun v j hj => hj.imp_left List.mem_of_mem_erase)
    have h₂ := h₁.modifySlot_of_subset (s := d) (f := fun v => { v with preds := v.preds.erase s })
      (fun v j hj => hj.imp_right List.mem_of_mem_erase)
    exact ⟨h₂.slot_lt, h₂.index_lt, h₂.root_lt⟩
  · cases h

end Closed

section Edits

variable [DecidableEq K]

/-- The graphs that a sequence of edits builds from the empty graph; an edit that fails leaves
    the graph as it was. -/
inductive Built : Digraph K → Prop
  | empty : Built empty
  | addNode {g g' : Digraph K} {k : K} {i : Nat} : Built g → g.addNode k = .ok (i, g') → Built g'
  | addEdge {g g' : Digraph K} {a b : K} : Built g → g.addEdge a b = .ok g' → Built g'
  | delEdge {g g' : Digraph K} {a b : K} {found : Bool} :
      Built g → g.delEdge a b = .ok (found, g') → Built g'
  | splitEdge {g g' : Digraph K} {a b k : K} {i : Nat} :
      Built g → g.splitEdge a b k = .ok (i, g') → Built g'
  | delNode {g : Digraph K} (k : K) : Built g → Built (g.delNode k).2
  | setRoot {g g' : Digraph K} {k : K} {i : Nat} :
      Built g → g.setRoot k = .ok (i, g') → Built g'
  | reversed {g g' : Digraph K} {k : K} : Built g → g.reversed k = .ok g' → Built g'

/-- The slot found for a key is the one the index records for it. -/
theorem mem_index_of_find? (h : g.find? k = some i) : (k, i) ∈ g.index := by
  obtain ⟨l₁, l₂, hl, -⟩ := List.lookup_eq_some_iff.1 h
  rw [hl]
  exact List.mem_append_right _ List.mem_cons_self

/-- A key that is required successfully names the slot found for it. -/
theorem find?_of_require {role : String} (h : g.require k role = .ok i) : g.find? k = some i := by
  unfold require at h
  split at h <;> simp_all

/-- The slot found for a key is a slot of the graph. -/
theorem Closed.find?_lt (hg : g.Closed) (h : g.find? k = some i) : i < g.bound :=
  hg.index_lt k i (mem_index_of_find? h)

theorem Closed.lt_of_require (hg : g.Closed) {role : String} (h : g.require k role = .ok i) :
    i < g.bound :=
  hg.find?_lt (find?_of_require h)

namespace Closed

theorem addNode (hg : g.Closed) (h : g.addNode k = .ok (i, g')) : g'.Closed := by
  unfold Digraph.addNode at h
  split at h
  · cases h
  · cases h
    -- the new slot has no edges, and every old edge ends below the old size
    refine ⟨fun i v hv j hj => ?_, fun k' i' h => ?_,
      fun r hr => by simpa [bound] using Nat.lt_succ_of_lt (hg.root_lt r hr)⟩
    · simp only [bound, Array.size_push, Array.getElem?_push] at hv ⊢
      split at hv
      · cases hv
        simp at hj
      · exact Nat.lt_succ_of_lt (hg.slot_lt i v hv j hj)
    · -- the index gains the new slot
      simp only [bound, Array.size_push, List.mem_cons, Prod.mk.injEq] at h ⊢
      rcases h with ⟨-, rfl⟩ | h
      · exact Nat.lt_succ_self _
      · exact Nat.lt_succ_of_lt (hg.index_lt k' i' h)

theorem setRoot (hg : g.Closed) (h : g.setRoot k = .ok (i, g')) : g'.Closed := by
  simp only [Digraph.setRoot, bind_eq_ok, pure_eq_ok] at h
  obtain ⟨r, hr, h⟩ := h
  cases h
  exact ⟨hg.slot_lt, hg.index_lt, fun r' h' => by cases h'; exact hg.lt_of_require hr⟩

theorem addEdge {a b : K} (hg : g.Closed) (h : g.addEdge a b = .ok g') : g'.Closed := by
  simp only [Digraph.addEdge, bind_eq_ok, pure_eq_ok] at h
  obtain ⟨s, hs, d, hd, rfl⟩ := h
  exact hg.link (hg.lt_of_require hs) (hg.lt_of_require hd)

theorem delEdge {a b : K} {found : Bool} (hg : g.Closed) (h : g.delEdge a b = .ok (found, g')) :
    g'.Closed := by
  simp only [Digraph.delEdge, bind_eq_ok] at h
  obtain ⟨s, -, d, -, h⟩ := h
  split at h <;> simp only [pure_eq_ok, Prod.mk.injEq] at h <;> obtain ⟨-, rfl⟩ := h
  · exact hg.unlink ‹_›
  · exact hg

end Closed

/-- What a successful split does: it removes the edge, adds the new node, and links it on both
    sides. -/
theorem splitEdge_eq_ok {a b : K} (h : g.splitEdge a b k = .ok (i, g')) :
    ∃ g₁ g₂ g₃, g.delEdge a b = .ok (true, g₁) ∧ g₁.addNode k = .ok (i, g₂) ∧
      g₂.addEdge a k = .ok g₃ ∧ g₃.addEdge k b = .ok g' := by
  unfold splitEdge at h
  split at h
  · cases h
  simp only [bind_eq_ok] at h
  obtain ⟨⟨found, g₁⟩, h₁, h⟩ := h
  cases found
  · simp at h
  · simp only [Bool.not_true, Bool.false_eq_true, if_false, bind_eq_ok] at h
    obtain ⟨⟨mid, g₂⟩, h₂, g₃, h₃, g₄, h₄, h₅⟩ := h
    cases h₅
    exact ⟨g₁, g₂, g₃, h₁, h₂, h₃, h₄⟩

namespace Closed

theorem splitEdge {a b : K} (hg : g.Closed) (h : g.splitEdge a b k = .ok (i, g')) :
    g'.Closed := by
  obtain ⟨g₁, g₂, g₃, h₁, h₂, h₃, h₄⟩ := splitEdge_eq_ok h
  exact ((((hg.delEdge h₁).addNode h₂).addEdge h₃).addEdge h₄)

/-- Deleting a node only drops edges, and the root at most. -/
theorem delNode (hg : g.Closed) (k : K) : (g.delNode k).2.Closed := by
  unfold Digraph.delNode
  split
  · exact hg
  · rename_i i _
    -- each step below empties a list, erases entries, or marks the slot removed
    have shrink : ∀ {h : Digraph K} (s : Nat) (f : Vertex K → Vertex K), h.Closed →
        (∀ v, (f v).succs ⊆ v.succs ∧ (f v).preds ⊆ v.preds) → (h.modifySlot s f).Closed :=
      fun s f hh hf => hh.modifySlot_of_subset fun v j hj =>
        hj.imp (fun h => (hf v).1 h) (fun h => (hf v).2 h)
    dsimp only
    refine Closed.withIndexRoot ?_ (fun e he => (List.mem_filter.1 he).1)
      fun r hr => by split at hr <;> simp_all
    refine shrink i _ ?_ (by simp)
    refine foldl (fun h p hh => ?_) _ ?_
    · split
      · exact hh
      · exact (shrink p _ hh fun v => ⟨List.erase_subset, by simp⟩).withEdgeCount _
    refine shrink i _ ?_ (by simp)
    refine foldl (fun h s hh =>
      (shrink s _ hh fun v => ⟨by simp, List.erase_subset⟩).withEdgeCount _) _ ?_
    exact shrink i _ hg (by simp)

theorem reversed (hg : g.Closed) (h : g.reversed k = .ok g') : g'.Closed := by
  simp only [Digraph.reversed, bind_eq_ok, pure_eq_ok] at h
  obtain ⟨r, hr, rfl⟩ := h
  refine ⟨fun i v hv j hj => ?_, fun k' i' h' => ?_, fun r' h' => ?_⟩
  · simp only [Array.getElem?_map, Option.map_eq_some_iff] at hv
    obtain ⟨w, hw, rfl⟩ := hv
    simpa [bound] using hg.slot_lt i w hw j hj.symm
  · simpa [bound] using hg.index_lt k' i' h'
  · cases h'
    simpa [bound] using hg.lt_of_require hr

end Closed

/-- Every graph the edits build is closed. -/
theorem Built.closed (h : g.Built) : g.Closed := by
  induction h with
  | empty => exact .empty
  | addNode _ h ih => exact ih.addNode h
  | addEdge _ h ih => exact ih.addEdge h
  | delEdge _ h ih => exact ih.delEdge h
  | splitEdge _ h ih => exact ih.splitEdge h
  | delNode k _ ih => exact ih.delNode k
  | setRoot _ h ih => exact ih.setRoot h
  | reversed _ h ih => exact ih.reversed h

end Edits

end Digraph

end Decompilation
