import Decompilation.Proofs.Graph.Forest

/-!
# Path compression follows the recursive procedure

The walk up the forest (`LengauerTarjan.lowestSemi`) has a recursive counterpart: where the
link of `v` ends at a linked node `a`, run the procedure on `a`, then link `v` to where `a` is
now linked and take the node `a`'s run returned as `v`'s best when its semidominator has a
smaller dfnum; in any case return `v`'s best. Here that procedure is stated as rules
(`Compresses`), with neither fuel nor stack, and the walk, which collects the path bottom-up
and compresses it from the top down, is shown to carry it out.

* `Compresses.det`: the rules give at most one outcome;
* `lowestSemi_compresses`: on a forest that the construction keeps, the walk's answer and
  state are an outcome of the rules. The recursion on the ancestor leaves the node itself alone,
  as every node it touches has a smaller dfnum (`Compresses.frame`);
* `lowestSemi_least`: the walk returns, of the nodes on the forest path from the node up to the
  forest's root, one with the least semidominator dfnum;
* `Reached`: the states the construction passes through, from the start over the search from
  the root, and `reached_compute`: the whole construction stays among them;
* `lowestSemi_eq_recursive`: on every reached state, the walk from a linked node returns
  exactly what the procedure returns, leaves exactly the state it leaves, and the answer is
  the least on the node's forest path.
-/

namespace Decompilation

namespace LengauerTarjan

variable {st st' st₁ : LengauerTarjan} {v w x a b r : Nat}

/-! ### The recursive procedure -/

/-- The recursive procedure as rules: `Compresses st v r st'` says that the procedure run on `v`
    in `st` returns `r` and leaves `st'`. Where `v` is not linked to a linked node it returns
    `v`'s best and changes nothing. Otherwise it runs on `v`'s ancestor `a`, then links `v` to
    where `a` is now linked, and makes the node returned for `a` the best of `v` when that one's
    semidominator has the smaller dfnum; it returns `v`'s best. -/
inductive Compresses (st : LengauerTarjan) : Nat → Nat → LengauerTarjan → Prop
  | stop {v : Nat} :
      (st.ancestorOf v).bind st.ancestorOf = none → Compresses st v (st.bestOf v) st
  | recurse {st₁ : LengauerTarjan} {v a b : Nat} :
      st.ancestorOf v = some a → (st.ancestorOf a).isSome → Compresses st a b st₁ →
      Compresses st v ((st₁.shortcut v (st₁.ancestorOf a) b).bestOf v)
        (st₁.shortcut v (st₁.ancestorOf a) b)

/-- The rules give one outcome at most. -/
theorem Compresses.det {r₁ r₂ : Nat} {s₁ s₂ : LengauerTarjan} (h₁ : Compresses st v r₁ s₁)
    (h₂ : Compresses st v r₂ s₂) : r₁ = r₂ ∧ s₁ = s₂ := by
  induction h₁ generalizing r₂ s₂ with
  | stop hs =>
    cases h₂ with
    | stop => exact ⟨rfl, rfl⟩
    | recurse hv ha => simp [hv, Option.isSome_iff_ne_none.1 ha] at hs
  | recurse hv ha _ ih =>
    cases h₂ with
    | stop hs => simp [hv, Option.isSome_iff_ne_none.1 ha] at hs
    | recurse hv' _ h₂ =>
      rw [hv] at hv'
      cases hv'
      obtain ⟨rfl, rfl⟩ := ih h₂
      exact ⟨rfl, rfl⟩

/-- The procedure returns the best it leaves the node with. -/
theorem Compresses.result (h : Compresses st v r st') : r = st'.bestOf v := by
  cases h <;> rfl

/-- The procedure changes links and bests only: the tree, the semidominators, the deferred and
    immediate dominators and the buckets stay, and so does the number of links. -/
theorem Compresses.keeps (h : Compresses st v r st') :
    st'.tree = st.tree ∧ st'.semi = st.semi ∧ st'.samedom = st.samedom ∧ st'.idom = st.idom ∧
      st'.bucket = st.bucket ∧ st'.ancestor.size = st.ancestor.size := by
  induction h with
  | stop => exact ⟨rfl, rfl, rfl, rfl, rfl, rfl⟩
  | recurse _ _ _ ih =>
    obtain ⟨h₁, h₂, h₃, h₄, h₅, h₆⟩ := ih
    exact ⟨h₁, h₂, h₃, h₄, h₅, by rw [size_ancestor_shortcut, h₆]⟩

section Forest

variable (hf : st.Forest)
include hf

/-- The procedure touches no node of greater dfnum than the one it runs on: it climbs to
    smaller dfnums only. -/
theorem Compresses.frame (h : Compresses st v r st') (hx : st.dfnum v < st.dfnum x) :
    st'.ancestorOf x = st.ancestorOf x ∧ st'.bestOf x = st.bestOf x := by
  induction h with
  | stop => exact ⟨rfl, rfl⟩
  | @recurse st₁ v a b hva _ _ ih =>
    have hav := (hf.dfnum_lt_of_ancestorOf hva).1
    have hxv : x ≠ v := by
      rintro rfl
      omega
    obtain ⟨h₁, h₂⟩ := ih (by omega)
    rw [ancestorOf_shortcut_of_ne hxv, bestOf_shortcut_of_ne hxv]
    exact ⟨h₁, h₂⟩

/-- The run on the ancestor of `v` leaves `v`'s own link in place. -/
theorem Compresses.ancestorOf_of_link (hva : st.ancestorOf v = some a)
    (h : Compresses st a b st₁) : st₁.ancestorOf v = some a :=
  ((h.frame hf (hf.dfnum_lt_of_ancestorOf hva).1).1).trans hva

/-- The procedure run on a linked node leaves it linked to the forest's root. -/
theorem Compresses.toRoot (h : Compresses st v r st') (hv : (st.ancestorOf v).isSome) :
    ∃ root, st'.ancestorOf v = some root ∧ st'.ancestorOf root = none := by
  induction h with
  | stop hs =>
    obtain ⟨a, ha⟩ := Option.isSome_iff_exists.1 hv
    exact ⟨a, ha, by simpa [ha] using hs⟩
  | @recurse st₁ v a b hva ha hsub ih =>
    obtain ⟨root, h₁, h₂⟩ := ih ha
    have hv₁ := hsub.ancestorOf_of_link hf hva
    have hne : root ≠ v := by
      rintro rfl
      rw [hv₁] at h₂
      cases h₂
    refine ⟨root, ?_, ?_⟩
    · rw [ancestorOf_shortcut_self (lt_size_of_ancestorOf hv₁), h₁]
    · rw [ancestorOf_shortcut_of_ne hne, h₂]

/-- The procedure links and unlinks no node. -/
theorem Compresses.isSome_ancestorOf (h : Compresses st v r st') (x : Nat) :
    (st'.ancestorOf x).isSome = (st.ancestorOf x).isSome := by
  induction h with
  | stop => rfl
  | @recurse st₁ v a b hva ha hsub ih =>
    by_cases hxv : x = v
    · subst hxv
      obtain ⟨root, h₁, -⟩ := hsub.toRoot hf ha
      rw [ancestorOf_shortcut_self (lt_size_of_ancestorOf (hsub.ancestorOf_of_link hf hva)), h₁,
        hva]
      rfl
    · rw [ancestorOf_shortcut_of_ne hxv]
      exact ih

/-- The procedure keeps the forest: each of its steps compresses a link that ends at a linked
    node. -/
theorem Compresses.forest (h : Compresses st v r st') : st'.Forest := by
  induction h with
  | stop => exact hf
  | @recurse st₁ v a b hva ha hsub ih =>
    obtain ⟨root, h₁, -⟩ := hsub.toRoot hf ha
    rw [h₁, hsub.result]
    exact ih.shortcut (hsub.ancestorOf_of_link hf hva) h₁

/-! ### The walk carries out the procedure -/

omit hf in
theorem climb_succ (f c : Nat) : st.climb (f + 1) c =
    match st.ancestorOf c with
    | some a => if (st.ancestorOf a).isSome then c :: st.climb f a else []
    | none => [] := rfl

/-- Compressing the collected path from the top down is the procedure, given fuel beyond the
    node's dfnum: the compressions above `v` are the procedure's run on `v`'s ancestor, and the
    last one, of `v` itself, is its final step. -/
theorem compresses_climb (f : Nat) : ∀ v, (st.ancestorOf v).isSome → st.dfnum v < f →
    Compresses st v (((st.climb f v).reverse.foldl compressAt st).bestOf v)
      ((st.climb f v).reverse.foldl compressAt st) := by
  induction f with
  | zero => intro v _ h; omega
  | succ f ih =>
    intro v hv hlt
    obtain ⟨a, hva⟩ := Option.isSome_iff_exists.1 hv
    cases ha : st.ancestorOf a with
    | none =>
      -- `v` is linked to the forest's root: there is nothing to compress
      have hclimb : st.climb (f + 1) v = [] := by rw [climb_succ, hva]; simp [ha]
      rw [hclimb]
      exact .stop (by simp [hva, ha])
    | some c =>
      have hclimb : st.climb (f + 1) v = v :: st.climb f a := by rw [climb_succ, hva]; simp [ha]
      have hav := (hf.dfnum_lt_of_ancestorOf hva).1
      have hsub := ih a (by simp [ha]) (by omega)
      have hfold : (st.climb (f + 1) v).reverse.foldl compressAt st =
          ((st.climb f a).reverse.foldl compressAt st).compressAt v := by
        rw [hclimb, List.reverse_cons, List.foldl_append]
        rfl
      rw [hfold, compressAt_of_ancestorOf (hsub.ancestorOf_of_link hf hva)]
      exact .recurse hva (by simp [ha]) hsub

/-- On a forest the construction keeps, the walk from any node gives an outcome of the
    procedure: a node not linked is its own best, and otherwise the fuel, a slot per slot,
    exceeds the node's dfnum. -/
theorem lowestSemi_compresses (v : Nat) :
    Compresses st v (st.lowestSemi v).1 (st.lowestSemi v).2 := by
  cases hv : st.ancestorOf v with
  | none =>
    have h : Compresses st v (st.bestOf v) st := .stop (by simp [hv])
    rw [hf.best_self v hv] at h
    simpa [lowestSemi, hv] using h
  | some a =>
    have hlt := (hf.dfnum_lt_of_ancestorOf hv).2
    simpa [lowestSemi, hv] using compresses_climb hf _ v (by simp [hv]) hlt

/-- The walk from a linked node returns, of the nodes on its forest path up to, not including,
    the forest's root, one with the least semidominator dfnum: after the walk the node's link
    spans that whole path, and its best is the answer. -/
theorem lowestSemi_least (hv : (st.ancestorOf v).isSome) :
    ∃ root xs, st.tree.Segment v root xs ∧ (∀ x ∈ xs, (st.ancestorOf x).isSome) ∧
      st.ancestorOf root = none ∧ (st.lowestSemi v).1 ∈ xs ∧
      ∀ x ∈ xs, st.semiDfnum (st.lowestSemi v).1 ≤ st.semiDfnum x := by
  have hc := lowestSemi_compresses hf v
  obtain ⟨root, hroot, hnone⟩ := hc.toRoot hf hv
  obtain ⟨xs, hxs⟩ := (hc.forest hf).stretch v root hroot
  obtain ⟨htree, hsemi, -⟩ := hc.keeps
  have hlinks := hc.isSome_ancestorOf hf
  have hsd : (st.lowestSemi v).2.semiDfnum = st.semiDfnum := by
    funext x
    simp [semiDfnum, semiOf, dfnum, htree, hsemi]
  have hroot' : st.ancestorOf root = none := by
    have := hlinks root
    rw [hnone] at this
    simpa using this.symm
  rw [hc.result]
  refine ⟨root, xs, htree ▸ hxs.segment, fun x hx => hlinks x ▸ hxs.linked x hx, hroot',
    hxs.best_mem, fun x hx => ?_⟩
  rw [← hsd]
  exact hxs.best_le x hx

end Forest

/-! ### The states the construction reaches -/

variable {K : Type} {g : Digraph K}

variable (g) in
/-- The states the construction passes through on the graph `g`: the start, before any node is
    handled, over the search from the root; and the steps it takes: compressing a link that ends
    at a linked node, recording a semidominator for a node not linked yet, linking a node to its
    tree parent, and writing the deferred and immediate dominators and the buckets, which the
    forest does not read. -/
inductive Reached : LengauerTarjan → Prop
  | start {t : SpanningTree} : SpanningTree.ofGraph g = .ok t → Reached (new t g.bound)
  | compress {st : LengauerTarjan} {w : Nat} : Reached st →
      ((st.ancestorOf w).bind st.ancestorOf).isSome → Reached (st.compressAt w)
  | assignSemi {st : LengauerTarjan} {n s : Nat} : Reached st → st.ancestorOf n = none →
      Reached (st.assignSemi n s)
  | link {st : LengauerTarjan} {n p : Nat} : Reached st → st.tree.parent? n = some p →
      Reached (st.link p n)
  | record {st : LengauerTarjan} (samedom idom : Array (Option Nat))
      (bucket : Array (List Nat)) : Reached st → Reached { st with samedom, idom, bucket }

/-- Every state the construction reaches on a closed graph keeps its forest. -/
theorem Reached.forest (hg : g.Closed) (h : Reached g st) : st.Forest := by
  induction h with
  | @start t ht =>
    cases hr : g.root with
    | none => simp [SpanningTree.ofGraph, hr] at ht
    | some r =>
      simp only [SpanningTree.ofGraph, hr, Except.ok.injEq] at ht
      subst ht
      obtain ⟨hpf, hlt⟩ := SpanningTree.fromRoot_ordered hg r
      exact forest_new hpf hlt
  | @compress st w _ hw ih =>
    cases hwa : st.ancestorOf w with
    | none => simp [hwa] at hw
    | some a =>
      cases hac : st.ancestorOf a with
      | none => simp [hwa, hac] at hw
      | some c =>
        rw [compressAt_of_ancestorOf hwa, hac]
        exact ih.shortcut hwa hac
  | assignSemi _ hn ih => exact ih.assignSemi hn
  | link _ hp ih => exact ih.link hp
  | record samedom idom bucket _ ih => exact ih.record samedom idom bucket

/-- The procedure's outcome is reached: each of its steps is a compression of a link that ends
    at a linked node. -/
theorem Compresses.reached (hf : st.Forest) (hst : Reached g st) (h : Compresses st v r st') :
    Reached g st' := by
  induction h with
  | stop => exact hst
  | @recurse st₁ v a b hva ha hsub ih =>
    obtain ⟨root, h₁, -⟩ := hsub.toRoot hf ha
    have hv₁ := hsub.ancestorOf_of_link hf hva
    rw [hsub.result, ← compressAt_of_ancestorOf hv₁]
    exact .compress ih (by simp [hv₁, h₁])

/-- A state that differs from a reached one only in what the forest does not read is reached. -/
theorem Reached.of_forest_eq (h : Reached g st) (htree : st'.tree = st.tree)
    (hsemi : st'.semi = st.semi) (hanc : st'.ancestor = st.ancestor) (hbest : st'.best = st.best) :
    Reached g st' := by
  have hst' : st' = { st with samedom := st'.samedom, idom := st'.idom, bucket := st'.bucket } := by
    cases st'
    cases st
    simp_all
  rw [hst']
  exact .record _ _ _ h

/-- `st'` is reached, over the same tree as `st` and with the same nodes linked. -/
structure KeepsLinks (g : Digraph K) (st st' : LengauerTarjan) : Prop where
  reached : Reached g st'
  tree_eq : st'.tree = st.tree
  linked_eq : ∀ x, (st'.ancestorOf x).isSome = (st.ancestorOf x).isSome

theorem KeepsLinks.trans {st₂ : LengauerTarjan} (h₁ : KeepsLinks g st st₁)
    (h₂ : KeepsLinks g st₁ st₂) : KeepsLinks g st st₂ where
  reached := h₂.reached
  tree_eq := h₂.tree_eq.trans h₁.tree_eq
  linked_eq x := (h₂.linked_eq x).trans (h₁.linked_eq x)

/-- A walk from a reached state keeps the links. -/
theorem Reached.lowestSemi (hg : g.Closed) (h : Reached g st) (v : Nat) :
    KeepsLinks g st (st.lowestSemi v).2 := by
  have hf := h.forest hg
  have hc := lowestSemi_compresses hf v
  exact ⟨hc.reached hf h, hc.keeps.1, hc.isSome_ancestorOf hf⟩

/-- Weighing the predecessors of a node keeps the links: a candidate walks or does nothing. -/
theorem Reached.semiSteps (hg : g.Closed) (n : Nat) :
    ∀ (preds : List Nat) (acc : Nat × LengauerTarjan), Reached g acc.2 →
      KeepsLinks g acc.2 (preds.foldl (semiStep n) acc).2
  | [], acc, h => ⟨h, rfl, fun _ => rfl⟩
  | pred :: preds, acc, h => by
    have hstep : KeepsLinks g acc.2 (semiStep n acc pred).2 := by
      unfold semiStep candidate
      split_ifs
      · exact ⟨h, rfl, fun _ => rfl⟩
      · exact h.lowestSemi hg pred
      · exact ⟨h, rfl, fun _ => rfl⟩
    exact hstep.trans (Reached.semiSteps hg n preds _ hstep.reached)

/-- Settling the nodes of a bucket keeps the links: each is a walk, then a write of a deferred
    or immediate dominator. -/
theorem Reached.settles (hg : g.Closed) (parent : Nat) :
    ∀ (pending : List Nat) (st : LengauerTarjan), Reached g st →
      KeepsLinks g st (pending.foldl (settle parent) st)
  | [], st, h => ⟨h, rfl, fun _ => rfl⟩
  | v :: pending, st, h => by
    have hw := h.lowestSemi hg v
    rcases hlow : st.lowestSemi v with ⟨y, st'⟩
    rw [hlow] at hw
    have hstep : KeepsLinks g st (settle parent st v) := by
      simp only [settle, hlow]
      split_ifs
      · exact ⟨hw.reached.of_forest_eq rfl rfl rfl rfl, hw.tree_eq, hw.linked_eq⟩
      · exact ⟨hw.reached.of_forest_eq rfl rfl rfl rfl, hw.tree_eq, hw.linked_eq⟩
    exact hstep.trans (Reached.settles hg parent pending _ hstep.reached)

/-- Handling a node not linked yet stays among the reached states and links that node only. -/
theorem Reached.visit (hg : g.Closed) (h : Reached g st) {n : Nat}
    (hn : st.ancestorOf n = none) :
    Reached g (st.visit g n) ∧
      ∀ m, m ≠ n → ((st.visit g n).ancestorOf m).isSome = (st.ancestorOf m).isSome := by
  cases hp : st.tree.parent? n with
  | none =>
    rw [LengauerTarjan.visit, hp]
    exact ⟨h, fun _ _ => rfl⟩
  | some parent =>
    have h₁ := Reached.semiSteps hg n (g.preds n) (parent, st) h
    rcases hacc : (g.preds n).foldl (semiStep n) (parent, st) with ⟨s, st₁⟩
    rw [hacc] at h₁
    have hn₁ : st₁.ancestorOf n = none := by simpa [hn] using h₁.linked_eq n
    -- the semidominator is recorded before the node is linked to its tree parent
    have h₂ : Reached g ((st₁.assignSemi n s).link parent n) :=
      .link (.assignSemi h₁.reached hn₁) (by rw [tree_assignSemi, h₁.tree_eq]; exact hp)
    set st₂ := (st₁.assignSemi n s).link parent n
    have h₃ := Reached.settles hg parent (st₂.bucketOf parent)
      { st₂ with bucket := st₂.bucket.modify parent fun _ => [] } (h₂.of_forest_eq rfl rfl rfl rfl)
    simp only [LengauerTarjan.visit, hp, hacc]
    refine ⟨h₃.reached, fun m hmn => ?_⟩
    rw [h₃.linked_eq m]
    exact (congrArg Option.isSome (ancestorOf_link_of_ne hmn)).trans (h₁.linked_eq m)

/-- Handling, in turn, distinct nodes none of which is linked yet stays among the reached
    states. -/
theorem Reached.visits (hg : g.Closed) :
    ∀ (L : List Nat) (st : LengauerTarjan), Reached g st → L.Nodup →
      (∀ n ∈ L, st.ancestorOf n = none) → Reached g (L.foldl (LengauerTarjan.visit g) st)
  | [], _, h, _, _ => h
  | n :: L, st, h, hnd, hun => by
    obtain ⟨hnL, hL⟩ := List.nodup_cons.1 hnd
    obtain ⟨h', hlinks⟩ := h.visit hg (hun n List.mem_cons_self)
    refine Reached.visits hg L _ h' hL fun m hm => ?_
    have hmn : m ≠ n := fun e => hnL (e ▸ hm)
    simpa [hun m (.tail _ hm)] using hlinks m hmn

/-- The construction on a closed graph stays among the reached states throughout: it handles
    each node of the search order but the root once, and only writes dominators at the end. -/
theorem reached_compute (hg : g.Closed) {t : SpanningTree} (ht : SpanningTree.ofGraph g = .ok t) :
    Reached g ((new t g.bound).compute g) := by
  have hnd : t.order.toList.Nodup := by
    cases hr : g.root with
    | none => simp [SpanningTree.ofGraph, hr] at ht
    | some r =>
      simp only [SpanningTree.ofGraph, hr, Except.ok.injEq] at ht
      subst ht
      exact (SpanningTree.fromRoot_sound hg (hg.root_lt r hr)).1.nodup
  have hloop := Reached.visits hg _ (new t g.bound) (.start ht)
    (List.nodup_reverse.2 ((List.drop_sublist 1 _).nodup hnd)) fun n _ => by
      simp only [new, ancestorOf, Array.getElem?_replicate]
      split <;> rfl
  -- the deferred dominators are filled in by writes the forest does not read
  have hresolve : ∀ (L : List Nat) (st : LengauerTarjan), Reached g st →
      Reached g (L.foldl resolve st) := by
    intro L
    induction L with
    | nil => exact fun _ h => h
    | cons n L ih =>
      intro st h
      refine ih _ ?_
      unfold resolve
      split
      · exact h.of_forest_eq rfl rfl rfl rfl
      · exact h
  exact hresolve _ _ hloop

/-- The walk with path compression is the recursive procedure: on every state the construction
    reaches on a closed graph, and for every linked node `v`, the walk's answer and final state
    are an outcome of the procedure's rules, the only one; and the answer has the least
    semidominator dfnum among the nodes on the forest path from `v` up to, not including, the
    forest's root. -/
theorem lowestSemi_eq_recursive (hg : g.Closed) (hst : Reached g st)
    (hv : (st.ancestorOf v).isSome) :
    Compresses st v (st.lowestSemi v).1 (st.lowestSemi v).2 ∧
      (∀ r st', Compresses st v r st' → r = (st.lowestSemi v).1 ∧ st' = (st.lowestSemi v).2) ∧
      ∃ root xs, st.tree.Segment v root xs ∧ (∀ x ∈ xs, (st.ancestorOf x).isSome) ∧
        st.ancestorOf root = none ∧ (st.lowestSemi v).1 ∈ xs ∧
        ∀ x ∈ xs, st.semiDfnum (st.lowestSemi v).1 ≤ st.semiDfnum x := by
  have hf := hst.forest hg
  have hc := lowestSemi_compresses hf v
  exact ⟨hc, fun r st' h => h.det hc, lowestSemi_least hf hv⟩

end LengauerTarjan

namespace DominatorTree

/-- A diamond: `0` branches to `1` and `2`, which join at `3`. -/
def diamond : Digraph Nat where
  slots := #[{ key := 0, succs := [1, 2] }, { key := 1, preds := [0], succs := [3] },
    { key := 2, preds := [0], succs := [3] }, { key := 3, preds := [1, 2] }]
  index := [(3, 3), (2, 2), (1, 1), (0, 0)]
  root := some 0
  edgeCount := 4

theorem diamond_built : diamond.Built := by
  -- the nodes, then the edges, then the root, each edit's result computed from the one before;
  -- the lookups of keys are loops that only unfold in full
  have h₁ := (Digraph.Built.empty (K := Nat)).addNode (k := 0) (i := 0)
    (by with_unfolding_all rfl)
  have h₂ := h₁.addNode (k := 1) (i := 1) (by with_unfolding_all rfl)
  have h₃ := h₂.addNode (k := 2) (i := 2) (by with_unfolding_all rfl)
  have h₄ := h₃.addNode (k := 3) (i := 3) (by with_unfolding_all rfl)
  have h₅ := h₄.addEdge (a := 0) (b := 1) (by with_unfolding_all rfl)
  have h₆ := h₅.addEdge (a := 0) (b := 2) (by with_unfolding_all rfl)
  have h₇ := h₆.addEdge (a := 1) (b := 3) (by with_unfolding_all rfl)
  have h₈ := h₇.addEdge (a := 2) (b := 3) (by with_unfolding_all rfl)
  exact h₈.setRoot (k := 0) (i := 0) (by with_unfolding_all rfl)

end DominatorTree

namespace LengauerTarjan

/-- The diamond after its nodes `3` and `1` were handled, as the construction handles them:
    `3` has semidominator `1` and is linked to its tree parent `1`, which has semidominator `0`
    and is linked to the root. -/
def diamondLinked : LengauerTarjan :=
  ((((new (SpanningTree.fromRoot DominatorTree.diamond 0) DominatorTree.diamond.bound).assignSemi
    3 1).link 1 3).assignSemi 1 0).link 0 1

theorem lowestSemi_eq_recursive_diamondLinked :
    DominatorTree.diamond.Closed ∧ Reached DominatorTree.diamond diamondLinked ∧
      (diamondLinked.ancestorOf 3).isSome ∧
      Compresses diamondLinked 3 (diamondLinked.lowestSemi 3).1 (diamondLinked.lowestSemi 3).2 ∧
      (∀ r st', Compresses diamondLinked 3 r st' →
        r = (diamondLinked.lowestSemi 3).1 ∧ st' = (diamondLinked.lowestSemi 3).2) ∧
      ∃ root xs, diamondLinked.tree.Segment 3 root xs ∧
        (∀ x ∈ xs, (diamondLinked.ancestorOf x).isSome) ∧ diamondLinked.ancestorOf root = none ∧
        (diamondLinked.lowestSemi 3).1 ∈ xs ∧
        ∀ x ∈ xs, diamondLinked.semiDfnum (diamondLinked.lowestSemi 3).1 ≤
          diamondLinked.semiDfnum x := by
  have hg := DominatorTree.diamond_built.closed
  have hst : Reached DominatorTree.diamond diamondLinked :=
    .link (.assignSemi (.link (.assignSemi (.start rfl) (by decide)) (by decide)) (by decide))
      (by decide)
  have hv : (diamondLinked.ancestorOf 3).isSome := by decide
  exact ⟨hg, hst, hv, lowestSemi_eq_recursive hg hst hv⟩

/-- The walk from `3` compresses its link to the root and returns `1`, whose semidominator has
    the smaller dfnum. -/
example : (diamondLinked.lowestSemi 3).1 = 1 ∧
    (diamondLinked.lowestSemi 3).2.ancestorOf 3 = some 0 := by
  decide

end LengauerTarjan

end Decompilation
