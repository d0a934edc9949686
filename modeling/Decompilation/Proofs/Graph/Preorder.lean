import Mathlib
import Decompilation.Graph.Search
import Decompilation.Proofs.Graph.Built

/-!
# The search follows the recursive preorder walk

The search keeps a stack of frames, each a node and those of its successors not yet tried.
The procedure it carries out is recursive: number a node, then try its successors in order,
and run the procedure, with the node as parent, on each one not numbered by the time its turn
comes. Here that procedure is stated as rules, with neither fuel nor stack: `Tries g n l t t'`
says that trying the successors `l` of `n` in turn, from the search `t`, ends in `t'`, and
`Walk g r t` that the procedure run from `r` ends in `t`.

* `Tries.det`: the rules give at most one outcome;
* `explore_unwinds`: with rounds enough for the work left, the loop ends where the frames of
  its stack, each tried by the rules from the top down, end. A round pops a frame, passes over
  an edge or numbers a node, and so takes one unit off a measure of the work left;
* `fromRoot_walk`: the search from a slot of a closed graph is the outcome of the procedure;
* `Tries.numbered`: the procedure keeps every numbered node at its dfnum in the order.
-/

namespace Decompilation

namespace SpanningTree

variable {K : Type} {g : Digraph K}

/-! ### The procedure as rules -/

variable (g) in
/-- Trying the successors `l` of `n` in turn, from the search `t`, ends in `t'`: a successor
    already numbered is passed over; one that is not is numbered with parent `n`, and its own
    successors are tried before the rest of `l`. -/
inductive Tries : Nat → List Nat → SpanningTree → SpanningTree → Prop
  | nil (n : Nat) (t : SpanningTree) : Tries n [] t t
  | skip {n s : Nat} {l : List Nat} {t t' : SpanningTree} :
      t.contains s = true → Tries n l t t' → Tries n (s :: l) t t'
  | call {n s : Nat} {l : List Nat} {t t₁ t' : SpanningTree} :
      t.contains s = false → Tries s (g.succs s) (t.visit s (some n)) t₁ → Tries n l t₁ t' →
      Tries n (s :: l) t t'

variable (g) in
/-- The procedure run from `r` on the search of `g` that has reached nothing: number `r`,
    with no parent, then try its successors. -/
def Walk (r : Nat) (t : SpanningTree) : Prop :=
  Tries g r (g.succs r) ((start r g.bound).visit r none) t

/-- The rules give one outcome at most. -/
theorem Tries.det {n : Nat} {l : List Nat} {t t₁ t₂ : SpanningTree} (h₁ : Tries g n l t t₁)
    (h₂ : Tries g n l t t₂) : t₁ = t₂ := by
  induction h₁ generalizing t₂ with
  | nil => cases h₂; rfl
  | skip hs _ ih =>
    cases h₂ with
    | skip _ h₂ => exact ih h₂
    | call hns => simp [hs] at hns
  | call hns _ _ ih₁ ih₂ =>
    cases h₂ with
    | skip hs => simp [hs] at hns
    | call _ h₂ h₂' =>
      obtain rfl := ih₁ h₂
      exact ih₂ h₂'

/-! ### Numbering a node -/

@[simp]
theorem contains_start {r b j : Nat} : (start r b).contains j = false := by
  simp only [start, contains, dfnum?, Array.getElem?_replicate]
  split <;> simp

@[simp]
theorem size_dfnums_visit {t : SpanningTree} {i : Nat} {parent : Option Nat} :
    (t.visit i parent).dfnums.size = t.dfnums.size := by
  simp [visit]

/-- Numbering a slot of the search marks it reached, and leaves the other slots as they were. -/
theorem contains_visit {t : SpanningTree} {i j : Nat} {parent : Option Nat}
    (hi : i < t.dfnums.size) : (t.visit i parent).contains j = (decide (j = i) || t.contains j) := by
  simp only [visit, contains, dfnum?, Array.getElem?_modify]
  by_cases h : i = j
  · subst h
    simp [hi]
  · simp [h, Ne.symm h]

/-! ### The loop against the rules -/

variable (g) in
/-- The frames of a stack, each trying the successors it has left by the rules, from the top
    down, take the search from `t` to `t'`. -/
inductive Unwinds : List (Nat × List Nat) → SpanningTree → SpanningTree → Prop
  | nil (t : SpanningTree) : Unwinds [] t t
  | cons {n : Nat} {l : List Nat} {stack : List (Nat × List Nat)} {t t₁ t' : SpanningTree} :
      Tries g n l t t₁ → Unwinds stack t₁ t' → Unwinds ((n, l) :: stack) t t'

variable (g) in
/-- The rounds the search still owes the slots it has not reached: one for each, and one for
    each edge out of it. -/
def work (t : SpanningTree) : Nat :=
  ∑ j ∈ (Finset.range g.bound).filter (fun j => t.contains j = false), (1 + (g.succs j).length)

/-- The rounds a stack still owes: one for each frame, and one for each successor it has left. -/
def owed (stack : List (Nat × List Nat)) : Nat := (stack.map fun f => 1 + f.2.length).sum

@[simp]
theorem owed_nil : owed [] = 0 := rfl

@[simp]
theorem owed_cons {n : Nat} {l : List Nat} {stack : List (Nat × List Nat)} :
    owed ((n, l) :: stack) = 1 + l.length + owed stack := by
  simp [owed]

/-- Numbering a new slot takes its own round and those of its edges off the work left. -/
theorem work_visit {t : SpanningTree} {i : Nat} (parent : Option Nat) (hi : i < g.bound)
    (hsize : t.dfnums.size = g.bound) (hni : t.contains i = false) :
    work g (t.visit i parent) + (1 + (g.succs i).length) = work g t := by
  have hfilter : (Finset.range g.bound).filter (fun j => (t.visit i parent).contains j = false) =
      ((Finset.range g.bound).filter fun j => t.contains j = false).erase i := by
    ext j
    simp only [Finset.mem_filter, Finset.mem_erase, Finset.mem_range,
      contains_visit (hsize ▸ hi : i < t.dfnums.size), Bool.or_eq_false_iff, decide_eq_false_iff_not]
    tauto
  have hmem : i ∈ (Finset.range g.bound).filter fun j => t.contains j = false := by
    simp [hi, hni]
  rw [work, work, hfilter, Finset.sum_erase_add _ _ hmem]

/-- The search that has reached nothing owes every slot and every edge. -/
theorem work_start (r : Nat) : work g (start r g.bound) = rounds g := by
  -- `rounds` counts the same rounds slot by slot
  have hrounds : ∀ b, (List.range b).foldl (fun n i => n + 1 + (g.succs i).length) 0 =
      ∑ j ∈ Finset.range b, (1 + (g.succs j).length) := by
    intro b
    induction b with
    | zero => rfl
    | succ b ih => rw [List.range_succ, List.foldl_append, ih, Finset.sum_range_succ]; simp; omega
  simp [work, rounds, hrounds]

/-- With rounds enough for the work left, the loop ends where the frames of its stack end by
    the rules. Each round takes one unit off what the stack owes plus the work left: a pop or a
    pass takes it off the stack, and a new node takes its own round and its edges off the work
    and puts them on the stack as its frame, less the round just spent. -/
theorem explore_unwinds (hg : g.Closed) (fuel : Nat) (stack : List (Nat × List Nat))
    (t : SpanningTree) (hsize : t.dfnums.size = g.bound)
    (hstack : ∀ f ∈ stack, ∀ s ∈ f.2, s < g.bound) (hfuel : owed stack + work g t ≤ fuel) :
    Unwinds g stack t (explore g fuel stack t) := by
  induction fuel generalizing stack t with
  | zero =>
    cases stack with
    | nil => exact .nil t
    | cons f stack => simp [owed] at hfuel
  | succ fuel ih =>
    rcases stack with _ | ⟨⟨n, _ | ⟨s, pending⟩⟩, stack⟩
    · exact .nil t
    · -- the frame is done: pop it
      rw [explore]
      refine .cons (.nil n t) (ih stack t hsize (fun f hf => hstack f (.tail _ hf)) ?_)
      simp at hfuel
      omega
    · rw [explore]
      have hs : s < g.bound := hstack _ List.mem_cons_self s List.mem_cons_self
      have hstack' : ∀ f ∈ (n, pending) :: stack, ∀ s ∈ f.2, s < g.bound := by
        intro f hf s' hs'
        rcases List.mem_cons.1 hf with rfl | hf
        · exact hstack _ List.mem_cons_self s' (.tail _ hs')
        · exact hstack f (.tail _ hf) s' hs'
      by_cases hc : t.contains s = true
      · -- a successor already numbered is passed over
        rw [if_pos hc]
        have hrest := ih ((n, pending) :: stack) t hsize hstack' (by simp at hfuel ⊢; omega)
        cases hrest with
        | cons htries hrest => exact .cons (.skip hc htries) hrest
      · -- a new successor is numbered and its frame pushed
        rw [if_neg hc]
        have hnc : t.contains s = false := by simpa using hc
        have hwork := work_visit (some n) hs hsize hnc
        have hrest := ih ((s, g.succs s) :: (n, pending) :: stack) (t.visit s (some n))
          (by simp [hsize]) (by
          intro f hf s' hs'
          rcases List.mem_cons.1 hf with rfl | hf
          · exact hg.succs_lt hs'
          · exact hstack' f hf s' hs') (by simp at hfuel ⊢; omega)
        cases hrest with
        | cons hcall hrest =>
          cases hrest with
          | cons htries hrest => exact .cons (.call hnc hcall htries) hrest

/-- The search from a slot of a closed graph is the outcome of the recursive procedure. -/
theorem fromRoot_walk (hg : g.Closed) {r : Nat} (hr : r < g.bound) : Walk g r (fromRoot g r) := by
  have hsize : (start r g.bound).dfnums.size = g.bound := by simp [start]
  have hwork := work_visit none hr hsize contains_start
  have h := explore_unwinds hg (rounds g) [(r, g.succs r)] ((start r g.bound).visit r none)
    (by simp [hsize]) (by simpa using fun s hs => hg.succs_lt hs)
    (by rw [← work_start r, ← hwork]; simp; omega)
  rw [fromRoot, if_pos hr]
  cases h with
  | cons htries hrest =>
    cases hrest
    exact htries

/-! ### Places in the order -/

/-- Every numbered node stands at its dfnum in the order. -/
def Numbered (t : SpanningTree) : Prop := ∀ j k, t.dfnum? j = some k → t.order[k]? = some j

theorem numbered_start (r b : Nat) : Numbered (start r b) := by
  intro j k h
  simp only [start, dfnum?, Array.getElem?_replicate] at h
  split at h <;> simp at h

theorem Numbered.visit {t : SpanningTree} (ht : Numbered t) (i : Nat) (parent : Option Nat) :
    Numbered (t.visit i parent) := by
  intro j k h
  simp only [SpanningTree.visit, dfnum?, Array.getElem?_modify] at h ⊢
  by_cases hij : i = j
  · -- the new node takes the next place
    subst hij
    cases hi : t.dfnums[i]? with
    | none => simp [hi] at h
    | some d =>
      simp only [hi, if_true, Option.map_some, Option.getD_some, Option.some.injEq] at h
      subst h
      simp
  · -- an old node keeps its place, which lies before the new one
    simp only [hij, if_false] at h
    have hk := ht j k h
    have hlt : k < t.order.size := by
      by_contra hge
      simp [Array.getElem?_eq_none (Nat.le_of_not_lt hge)] at hk
    simp [Array.getElem?_push, Nat.ne_of_lt hlt, hk]

/-- The procedure keeps every numbered node at its dfnum. -/
theorem Tries.numbered {n : Nat} {l : List Nat} {t t' : SpanningTree} (h : Tries g n l t t')
    (ht : Numbered t) : Numbered t' := by
  induction h with
  | nil => exact ht
  | skip _ _ ih => exact ih ht
  | call _ _ _ ih₁ ih₂ => exact ih₂ (ih₁ (ht.visit _ _))

end SpanningTree

end Decompilation
