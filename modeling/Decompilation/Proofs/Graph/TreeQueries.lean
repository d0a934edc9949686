import Decompilation.Proofs.Graph.Frontier
import Decompilation.Proofs.Graph.Adjacency

/-!
# Walking the dominator tree

The dominator tree is kept three ways: the immediate dominator of every node, walked upwards
by `dominates` and `dominators`; the children of every node, walked downwards by
`allDominated`; and the tree exported as a graph of its own by `asGraph`. All three agree with
dominance in the graph. The walks end because every step up goes to a node placed earlier in
the depth-first search and every step down to one placed later, so the number of slots bounds
both.

* `TreeOf.dominators_spec`: the walk up from a reachable node lists each of its dominators
  once, itself first and the root last, each one the immediate dominator of the one before;
* `TreeOf.allDominated_spec`, `TreeOf.allDominated_eq`: the walk down lists each node a
  reachable node dominates once, in preorder of the children;
* `children_compute`: the children of a node are the nodes it immediately dominates, in dfnum
  order;
* `asGraph_compute`: the exported graph has a node for every reachable node, in dfnum order,
  the root of the graph as root, and the edges of the tree; read through `key?_asGraph`,
  `preds_asGraph` and `succs_asGraph`, every node but the root has one edge in, from its
  immediate dominator, and edges out to its children;
* `queries_exact`: all of this for the tree of a graph built by the edits.
-/

namespace Decompilation

/-! ### Loops that go on -/

/-- A loop over a list whose every round goes on, from the state the rounds before it left
    (a state given by the part of the list they went through), ends in the state given by the
    whole list. -/
theorem forIn_eq_ok_of_prefix {ε α β : Type} {l : List α} {b : β}
    {f : α → β → Except ε (ForInStep β)} (F : List α → β) (h₀ : F [] = b)
    (hstep : ∀ pre a post, l = pre ++ a :: post → f a (F pre) = .ok (.yield (F (pre ++ [a])))) :
    forIn l b f = .ok (F l) := by
  induction l generalizing b F with
  | nil => simp [← h₀]
  | cons a l ih =>
    subst h₀
    rw [List.forIn_cons, hstep [] a l rfl]
    -- the rest of the loop starts from the state after `a`
    exact ih (fun pre => F (a :: pre)) rfl fun pre b post hl => by
      simpa using hstep (a :: pre) b post (by rw [hl]; rfl)

/-- A step that succeeds hands its value to the rest. -/
theorem ok_bind {ε α β : Type} (a : α) (f : α → Except ε β) : (Except.ok a >>= f) = f a := rfl

/-- Reading a list through a partial map that is defined on all of it keeps the positions. -/
theorem getElem?_filterMap_of_isSome {α β : Type} {f : α → Option β} :
    ∀ {l : List α}, (∀ x ∈ l, (f x).isSome) → ∀ j : Nat, (l.filterMap f)[j]? = l[j]?.bind f
  | [], _, _ => rfl
  | x :: l, hl, j => by
    obtain ⟨y, hy⟩ := Option.isSome_iff_exists.1 (hl x List.mem_cons_self)
    rw [List.filterMap_cons, hy]
    cases j with
    | zero => simp [hy]
    | succ j => simpa using getElem?_filterMap_of_isSome (fun z hz => hl z (.tail _ hz)) j

namespace Digraph

variable {K : Type}

/-! ### Graphs made of a list of keys and a list of edges -/

/-- The graph with a node for each key of `ks`, in order, and no edge; the index lists the
    last key first, as adding the keys one by one leaves it. -/
def ofKeys (ks : List K) : Digraph K :=
  { slots := (ks.map fun k => ({ key := k } : Vertex K)).toArray, index := ks.zipIdx.reverse }

@[simp]
theorem bound_ofKeys (ks : List K) : (ofKeys ks).bound = ks.length := by
  simp [ofKeys, bound]

theorem vertex?_ofKeys (ks : List K) (j : Nat) :
    (ofKeys ks).vertex? j = ks[j]?.map fun k => { key := k } := by
  simp only [ofKeys, vertex?, List.getElem?_toArray, List.getElem?_map]
  cases ks[j]? <;> rfl

@[simp]
theorem key?_ofKeys (ks : List K) (j : Nat) : (ofKeys ks).key? j = ks[j]? := by
  simp only [key?, vertex?_ofKeys, Option.map_map]
  cases ks[j]? <;> rfl

@[simp]
theorem succs_ofKeys (ks : List K) (j : Nat) : (ofKeys ks).succs j = [] := by
  simp only [succs, vertex?_ofKeys]
  cases ks[j]? <;> rfl

@[simp]
theorem preds_ofKeys (ks : List K) (j : Nat) : (ofKeys ks).preds j = [] := by
  simp only [preds, vertex?_ofKeys]
  cases ks[j]? <;> rfl

/-- The index pairs each place with the key there. -/
theorem mem_index_ofKeys {ks : List K} {k : K} {i : Nat} :
    (k, i) ∈ (ofKeys ks).index ↔ ks[i]? = some k := by
  simp [ofKeys, List.mem_zipIdx_iff_getElem?]

/-- Of distinct keys, each is found at its place. -/
theorem find?_ofKeys [DecidableEq K] {ks : List K} (hks : ks.Nodup) {k : K} {i : Nat} :
    (ofKeys ks).find? k = some i ↔ ks[i]? = some k := by
  rw [find?, lookup_eq_some_iff_mem (by simpa [ofKeys, List.map_reverse] using hks),
    mem_index_ofKeys]

/-- A key that is not yet one of the keys goes to a new node at the end. -/
theorem addNode_ofKeys [DecidableEq K] {ks : List K} {k : K} (hk : k ∉ ks) :
    (ofKeys ks).addNode k = .ok (ks.length, ofKeys (ks ++ [k])) := by
  have hfree : (ofKeys ks).contains k = false := by
    rw [contains, Option.isSome_eq_false_iff, Option.isNone_iff_eq_none, find?_eq_none_iff]
    intro j hj
    exact hk (List.mem_of_getElem? (mem_index_ofKeys.1 hj))
  unfold addNode
  rw [if_neg (by simp [hfree])]
  simp [ofKeys, bound, List.zipIdx_append]

/-- Linking the edges of a list between live nodes adds to each node the targets of the edges
    out of it and the sources of the edges into it, in the order of the list, and changes
    nothing else. -/
theorem foldl_link_views (es : List (Nat × Nat)) : ∀ s : Digraph K,
    (∀ e ∈ es, (s.vertex? e.1).isSome ∧ (s.vertex? e.2).isSome) →
    (∀ j, (es.foldl (fun s e => s.link e.1 e.2) s).key? j = s.key? j) ∧
      (∀ j, ((es.foldl (fun s e => s.link e.1 e.2) s).vertex? j).isSome = (s.vertex? j).isSome) ∧
      (es.foldl (fun s e => s.link e.1 e.2) s).slots.size = s.slots.size ∧
      (∀ a, (es.foldl (fun s e => s.link e.1 e.2) s).succs a =
        s.succs a ++ (es.filter (·.1 = a)).map Prod.snd) ∧
      (∀ b, (es.foldl (fun s e => s.link e.1 e.2) s).preds b =
        s.preds b ++ (es.filter (·.2 = b)).map Prod.fst) := by
  induction es with
  | nil => simp
  | cons e es ih =>
    intro s hes
    obtain ⟨hs, hd⟩ := hes e List.mem_cons_self
    -- the rest of the edges are linked in the graph with `e`, whose nodes stay live
    obtain ⟨hkey, hlive, hsize, hsuccs, hpreds⟩ := ih (s.link e.1 e.2) fun e' he' => by
      rw [vertex?_link_isSome, vertex?_link_isSome]
      exact hes e' (.tail _ he')
    refine ⟨fun j => by rw [List.foldl_cons, hkey, key?_link],
      fun j => by rw [List.foldl_cons, hlive, vertex?_link_isSome],
      by rw [List.foldl_cons, hsize]; simp [link, modifySlot], fun a => ?_, fun b => ?_⟩
    · rw [List.foldl_cons, hsuccs, succs_link hs]
      by_cases ha : e.1 = a <;> simp [ha]
    · rw [List.foldl_cons, hpreds, preds_link hd]
      by_cases hb : e.2 = b <;> simp [hb]

end Digraph

namespace DominatorTree

variable {K : Type} {g : Digraph K} {r : Nat} {t : DominatorTree}

open SpanningTree Decompilation.Digraph

/-- Each node of the walk up is followed by its immediate dominator. -/
theorem isChain_dominators_go (t : DominatorTree) : ∀ (fuel c : Nat),
    (dominators.go t fuel c).IsChain (fun a b => t.idom? a = some b)
  | 0, _ => .nil
  | fuel + 1, c => by
    rw [dominators.go, List.isChain_cons]
    rcases hd : t.idom? c with _ | d
    · exact ⟨by simp, .nil⟩
    · refine ⟨fun y hy => ?_, isChain_dominators_go t fuel d⟩
      -- the walk from the immediate dominator starts there, if it starts at all
      cases fuel with
      | zero => simp [dominators.go] at hy
      | succ fuel => simpa [dominators.go] using hy

namespace TreeOf

variable (h : TreeOf g r t)
include h

/-- The root has no immediate dominator: nothing strictly dominates it. -/
theorem idom?_root : t.idom? r = none := by
  rcases hd : t.idom? r with _ | d
  · rfl
  · have hsd := ((h.idom d r).1 hd).1
    exact absurd (dominates_root_iff.1 hsd.2) hsd.1

/-- A node with an immediate dominator is reachable, and so is its immediate dominator, which
    is placed before it. -/
theorem idom_facts {c d : Nat} (hd : t.idom? c = some d) :
    g.Reaches r c ∧ g.Reaches r d ∧ place g r d < place g r c := by
  have himm := (h.idom d c).1 hd
  exact ⟨himm.1.reaches, himm.1.reaches_left, h.place_lt_of_sdom d c himm.1⟩

/-- The dominators of a reachable node are the node itself and the dominators of its immediate
    dominator. -/
theorem dominates_iff_up {c v : Nat} (hc : g.Reaches r c) :
    g.Dominates r v c ↔ v = c ∨ ∃ d, t.idom? c = some d ∧ g.Dominates r v d := by
  constructor
  · intro hv
    by_cases hvc : v = c
    · exact .inl hvc
    have hcr : c ≠ r := by
      rintro rfl
      exact hvc (dominates_root_iff.1 hv)
    obtain ⟨d, hd⟩ := h.exists_idom c hc hcr
    have himm := (h.idom d c).1 hd
    by_cases hvd : v = d
    · exact .inr ⟨d, hd, hvd ▸ .refl r v⟩
    · exact .inr ⟨d, hd, himm.2 v ⟨hvc, hv⟩ hvd⟩
  · rintro (rfl | ⟨d, hd, hvd⟩)
    · exact .refl r v
    · exact hvd.trans ((h.idom d c).1 hd).1.2

/-- The nodes a reachable node dominates are the node itself and the nodes its children
    dominate. -/
theorem dominates_iff_down {c u : Nat} (hc : g.Reaches r c) :
    g.Dominates r c u ↔ u = c ∨ ∃ k, t.idom? k = some c ∧ g.Dominates r k u := by
  constructor
  · intro hu
    by_cases huc : u = c
    · exact .inl huc
    obtain ⟨k, hk, hku⟩ := h.exists_child u ⟨Ne.symm huc, hu⟩
    exact .inr ⟨k, (h.idom c k).2 hk, hku⟩
  · rintro (rfl | ⟨k, hk, hku⟩)
    · exact .refl r u
    · exact ((h.idom c k).1 hk).1.2.trans hku

/-- Two children of one node dominate no node in common: of two such children one would
    dominate the other, and then also their parent, which strictly dominates it. -/
theorem eq_of_dominates_common {c k₁ k₂ u : Nat} (hk₁ : t.idom? k₁ = some c)
    (hk₂ : t.idom? k₂ = some c) (h₁ : g.Dominates r k₁ u) (h₂ : g.Dominates r k₂ u) :
    k₁ = k₂ := by
  have himm₁ := (h.idom c k₁).1 hk₁
  have himm₂ := (h.idom c k₂).1 hk₂
  -- a child that dominates another child is that child
  have hsame : ∀ {a b}, g.ImmediatelyDominates r c a → g.ImmediatelyDominates r c b →
      g.Dominates r a b → a = b := fun {a b} ha hb hab => by
    by_contra hne
    have hac : g.Dominates r a c := hb.2 a ⟨hne, hab⟩ (Ne.symm ha.1.1)
    exact h.not_sdom_of_sdom ha.1 ⟨Ne.symm ha.1.1, hac⟩
  by_cases hu₁ : u = k₁
  · subst hu₁
    exact (hsame himm₂ himm₁ h₂).symm
  by_cases hu₂ : u = k₂
  · subst hu₂
    exact hsame himm₁ himm₂ h₁
  rcases StrictlyDominates.total ⟨Ne.symm hu₁, h₁⟩ ⟨Ne.symm hu₂, h₂⟩ with h₁₂ | h₂₁
  · exact hsame himm₁ himm₂ h₁₂
  · exact (hsame himm₂ himm₁ h₂₁).symm

/-! ### The walk up -/

/-- The walk up from a reachable node `c`, with more fuel than the place of `c`, lists each
    dominator of `c` once and ends at the root. The induction is on the fuel; the place falls
    at every step up. -/
theorem dominators_go_spec : ∀ (fuel c : Nat), g.Reaches r c → place g r c < fuel →
    (∀ v, v ∈ dominators.go t fuel c ↔ g.Dominates r v c) ∧ (dominators.go t fuel c).Nodup ∧
      (dominators.go t fuel c).getLast? = some r
  | 0, _, _, hfuel => absurd hfuel (Nat.not_lt_zero _)
  | fuel + 1, c, hc, hfuel => by
    rw [dominators.go]
    rcases hd : t.idom? c with _ | d
    · -- only the root has no immediate dominator
      have hcr : c = r := by
        by_contra hne
        obtain ⟨d, hd'⟩ := h.exists_idom c hc hne
        rw [hd] at hd'
        cases hd'
      subst hcr
      refine ⟨fun v => ?_, List.nodup_singleton c, rfl⟩
      rw [List.mem_singleton, dominates_root_iff]
    · obtain ⟨-, hdr, hlt⟩ := h.idom_facts hd
      obtain ⟨hmem, hnodup, hlast⟩ := dominators_go_spec fuel d hdr (by omega)
      refine ⟨fun v => ?_, List.nodup_cons.2 ⟨fun hc' => ?_, hnodup⟩, ?_⟩
      · rw [List.mem_cons, hmem, h.dominates_iff_up hc, hd]
        simp
      · -- the node is no dominator of its immediate dominator, placed before it
        have hcd := (hmem c).1 hc'
        have hsd := ((h.idom d c).1 hd).1
        exact h.not_sdom_of_sdom hsd ⟨Ne.symm hsd.1, hcd⟩
      · rw [List.getLast?_cons, hlast]
        rfl

/-- The dominators of a reachable node: each once, the node first and the root last, each the
    immediate dominator of the one before; the depth counts those above the node. -/
theorem dominators_spec {n : Nat} (hn : g.Reaches r n) :
    (t.dominators n).Nodup ∧ (∀ v, v ∈ t.dominators n ↔ g.Dominates r v n) ∧
      (t.dominators n).head? = some n ∧ (t.dominators n).getLast? = some r ∧
      (t.dominators n).IsChain (fun a b => t.idom? a = some b) ∧
      ∃ d, t.depth? n = some d ∧ d + 1 = (t.dominators n).length := by
  have hreach : t.isReachable n = true := (h.reachable n).2 hn
  have hfuel : place g r n < t.bound + 1 := by
    have := h.place_lt n hn
    rw [h.bound]
    omega
  obtain ⟨hmem, hnodup, hlast⟩ := h.dominators_go_spec _ n hn hfuel
  have hhead : (t.dominators n).head? = some n := by simp [dominators, hreach, dominators.go]
  refine ⟨by simpa [dominators, hreach] using hnodup, by simpa [dominators, hreach] using hmem,
    hhead, by simpa [dominators, hreach] using hlast,
    by simpa [dominators, hreach] using isChain_dominators_go t _ n, ?_⟩
  -- the walk starts with the node, and the depth counts the rest
  obtain ⟨l, hl⟩ := List.head?_eq_some_iff.1 hhead
  exact ⟨l.length, by simp [depth?, hreach, hl], by simp [hl]⟩

/-! ### The walk down -/

/-- With enough fuel, the walk down does not depend on how much. -/
theorem allDominated_go_congr : ∀ (f₁ f₂ c : Nat), g.Reaches r c → g.bound < f₁ + place g r c →
    g.bound < f₂ + place g r c → allDominated.go t f₁ c = allDominated.go t f₂ c
  | 0, _, c, hc, h₁, _ => absurd (h.place_lt c hc) (by omega)
  | _, 0, c, hc, _, h₂ => absurd (h.place_lt c hc) (by omega)
  | f₁ + 1, f₂ + 1, c, hc, h₁, h₂ => by
    rw [allDominated.go, allDominated.go]
    refine congrArg _ (List.flatMap_congr fun k hk => ?_)
    obtain ⟨hkr, -, hlt⟩ := h.idom_facts ((h.children c k).1 hk)
    exact allDominated_go_congr f₁ f₂ k hkr (by omega) (by omega)

/-- The walk down from a reachable node is the preorder of the tree below it: the node, then
    the walk down from each child in turn. -/
theorem allDominated_eq {n : Nat} (hn : g.Reaches r n) :
    t.allDominated n = n :: (t.children n).flatMap t.allDominated := by
  have hreach : ∀ c, g.Reaches r c → t.isReachable c = true := fun c hc => (h.reachable c).2 hc
  rw [allDominated, if_pos (hreach n hn), allDominated.go]
  refine congrArg _ (List.flatMap_congr fun k hk => ?_)
  obtain ⟨hkr, -, hlt⟩ := h.idom_facts ((h.children n k).1 hk)
  rw [allDominated, if_pos (hreach k hkr)]
  exact h.allDominated_go_congr t.bound (t.bound + 1) k hkr (by rw [h.bound]; omega)
    (by rw [h.bound]; omega)

variable (hs : ∀ c, (t.children c).Pairwise fun a b => place g r a < place g r b)
include hs

/-- The walk down from a reachable node `c`, with more fuel than the slots from the place of
    `c` on, lists each node `c` dominates once. The induction is on the fuel; the place grows
    at every step down. -/
theorem allDominated_go_spec : ∀ (fuel c : Nat), g.Reaches r c → g.bound < fuel + place g r c →
    (∀ u, u ∈ allDominated.go t fuel c ↔ g.Dominates r c u) ∧ (allDominated.go t fuel c).Nodup
  | 0, c, hc, hfuel => absurd (h.place_lt c hc) (by omega)
  | fuel + 1, c, hc, hfuel => by
    rw [allDominated.go]
    -- every child is reachable and placed after `c`, so the fuel left is enough for it
    have hkid : ∀ k ∈ t.children c, (∀ u, u ∈ allDominated.go t fuel k ↔ g.Dominates r k u) ∧
        (allDominated.go t fuel k).Nodup := fun k hk => by
      obtain ⟨hkr, -, hlt⟩ := h.idom_facts ((h.children c k).1 hk)
      exact allDominated_go_spec fuel k hkr (by omega)
    have hmem : ∀ u, u ∈ c :: (t.children c).flatMap (allDominated.go t fuel) ↔
        g.Dominates r c u := fun u => by
      rw [List.mem_cons, List.mem_flatMap, h.dominates_iff_down hc]
      refine or_congr Iff.rfl ⟨fun ⟨k, hk, hu⟩ => ?_, fun ⟨k, hk, hku⟩ => ?_⟩
      · exact ⟨k, (h.children c k).1 hk, ((hkid k hk).1 u).1 hu⟩
      · have hk' := (h.children c k).2 hk
        exact ⟨k, hk', ((hkid k hk').1 u).2 hku⟩
    refine ⟨hmem, List.nodup_cons.2 ⟨fun hc' => ?_, List.nodup_flatMap.2 ⟨fun k hk =>
      (hkid k hk).2, ?_⟩⟩⟩
    · -- `c` lies below none of its children, which it strictly dominates
      obtain ⟨k, hk, hck⟩ := List.mem_flatMap.1 hc'
      have hsd := ((h.idom c k).1 ((h.children c k).1 hk)).1
      exact h.not_sdom_of_sdom hsd ⟨Ne.symm hsd.1, ((hkid k hk).1 c).1 hck⟩
    · -- the subtrees of two children are apart
      refine ((hs c).imp fun hlt => hlt.ne).imp_of_mem fun {k₁ k₂} hk₁ hk₂ hne => ?_
      refine List.disjoint_left.2 fun {u} hu₁ hu₂ => hne ?_
      have := h.eq_of_dominates_common ((h.children c k₁).1 hk₁) ((h.children c k₂).1 hk₂)
        (((hkid k₁ hk₁).1 u).1 hu₁) (((hkid k₂ hk₂).1 u).1 hu₂)
      rw [this]

/-- The nodes a reachable node dominates, each once. -/
theorem allDominated_spec {n : Nat} (hn : g.Reaches r n) :
    (t.allDominated n).Nodup ∧ ∀ u, u ∈ t.allDominated n ↔ g.Dominates r n u := by
  have hreach : t.isReachable n = true := (h.reachable n).2 hn
  obtain ⟨hmem, hnodup⟩ := h.allDominated_go_spec hs (t.bound + 1) n hn (by rw [h.bound]; omega)
  exact ⟨by simpa [allDominated, hreach] using hnodup, by simpa [allDominated, hreach] using hmem⟩

end TreeOf

/-- A node reachable from the root is live, and has a key. -/
theorem isSome_key?_of_reaches [DecidableEq K] (hg : g.Built) (hr : g.root = some r) {x : Nat}
    (hx : g.Reaches r x) : (g.key? x).isSome := by
  have hex := hg.exact
  rw [isSome_key?]
  obtain ⟨p, hp⟩ := hx
  -- the successors of a node are live, so the end of a path from a live node is live
  have hlive : ∀ {a c p}, g.Path a c p → (g.vertex? a).isSome → (g.vertex? c).isSome := by
    intro a c p hp ha
    induction hp with
    | single => exact ha
    | cons hb _ ih => exact ih (hex.live_of_mem_succs hb)
  exact hlive hp (hex.root_live hr)

/-- The edges of the dominator tree out of the immediate dominators of `nodes`, between places
    in the search from `r`: for each node with an immediate dominator, one from the place of
    the immediate dominator to the place of the node. -/
def treeEdges (t : DominatorTree) (g : Digraph K) (r : Nat) (nodes : List Nat) : List (Nat × Nat) :=
  nodes.filterMap fun i => (t.idom? i).map fun d => (place g r d, place g r i)

/-- The edge of the first node comes first. -/
theorem treeEdges_cons (t : DominatorTree) (g : Digraph K) (r i : Nat) (l : List Nat) :
    treeEdges t g r (i :: l) =
      ((t.idom? i).map fun d => (place g r d, place g r i)).toList ++ treeEdges t g r l := by
  rw [treeEdges, List.filterMap_cons]
  cases t.idom? i <;> rfl

/-! ### The tree computed for a built graph -/

section Computed

variable [DecidableEq K] (hg : g.Built) (hr : g.root = some r) (ht : compute g = .ok t)
include hg hr ht

/-- The tree is built over the search from the root, whose order lists the reachable nodes,
    each once. -/
theorem order_facts :
    t.spanning = fromRoot g r ∧ t.root = r ∧
      (∀ x, x ∈ (fromRoot g r).order.toList ↔ g.Reaches r x) ∧
      (fromRoot g r).order.toList.Nodup := by
  have hc := hg.closed
  have hrb := hc.root_lt r hr
  obtain ⟨hsound, hroot, -⟩ := fromRoot_sound hc hrb
  obtain ⟨hspan, -⟩ := compute_fields hr ht
  refine ⟨hspan, by rw [DominatorTree.root, hspan, hroot], fun x => ?_, hsound.nodup⟩
  rw [← hsound.contains_iff, fromRoot_contains_iff hc hrb]

/-- The dfnum of a reachable node is its place in the search order. -/
theorem dfnum?_eq_place {x : Nat} (hx : g.Reaches r x) : t.spanning.dfnum? x = some (place g r x) := by
  obtain ⟨hspan, -, hmem, hnodup⟩ := order_facts hg hr ht
  have hrb := hg.closed.root_lt r hr
  have hnum := (fromRoot_walk hg.closed hrb).numbered ((numbered_start r g.bound).visit r none)
  rw [hspan]
  -- the search numbered the node, and the order holds it at its number
  obtain ⟨k, hk⟩ := Option.isSome_iff_exists.1 ((fromRoot_contains_iff hg.closed hrb).2 hx)
  have hkx := hnum x k hk
  rw [← Array.getElem?_toList, List.getElem?_eq_some_iff] at hkx
  obtain ⟨hklt, hkx⟩ := hkx
  rw [hk, place, ← hkx, hnodup.idxOf_getElem]

/-- The search order lists the reachable nodes by increasing place. -/
theorem pairwise_place_order :
    (fromRoot g r).order.toList.Pairwise fun a b => place g r a < place g r b := by
  obtain ⟨-, -, -, hnodup⟩ := order_facts hg hr ht
  rw [List.pairwise_iff_getElem]
  intro i j hi hj hij
  rw [place, place, hnodup.idxOf_getElem, hnodup.idxOf_getElem]
  exact hij

/-- The children of a slot are the nodes of the search it immediately dominates, in the order
    of the search. -/
theorem children_compute (c : Nat) :
    t.children c = (fromRoot g r).order.toList.filter fun u => t.idom? u = some c := by
  obtain ⟨-, hkids, -, -⟩ := compute_fields hr ht
  obtain ⟨h, -⟩ := treeOf_compute hg hr ht
  simp only [children, hkids, Array.getElem?_map, Array.getElem?_range]
  have hget : ∀ u, t.idoms.getD u none = t.idom? u := fun u => Array.getD_eq_getD_getElem? ..
  by_cases hc : c < g.bound
  · simp [hc, hget]
  · -- a slot past the end immediately dominates nothing
    simp only [hc, if_false, Option.map_none, Option.getD_none]
    refine (List.filter_eq_nil_iff.2 fun u _ hu => hc ?_).symm
    have himm := (h.idom c u).1 (by simpa using hu)
    exact h.lt_bound c himm.1.reaches_left

/-- The children of a node come by increasing place. -/
theorem pairwise_place_children (c : Nat) :
    (t.children c).Pairwise fun a b => place g r a < place g r b := by
  rw [children_compute hg hr ht]
  exact (pairwise_place_order hg hr ht).filter _

/-! ### The tree as a graph -/

/-- The keys of the search order, read at a place, are the keys of the nodes there. -/
theorem getElem?_keys (j : Nat) :
    ((fromRoot g r).order.toList.filterMap g.key?)[j]? =
      (fromRoot g r).order.toList[j]?.bind g.key? := by
  obtain ⟨-, -, hmem, -⟩ := order_facts hg hr ht
  exact getElem?_filterMap_of_isSome
    (fun x hx => isSome_key?_of_reaches hg hr ((hmem x).1 hx)) j

/-- In a graph whose slots hold the keys of the search order, the node with the key of a
    reachable node is at that node's place. -/
theorem find?_key_of_reaches {s : Digraph K}
    (hs : s.index = (ofKeys ((fromRoot g r).order.toList.filterMap g.key?)).index) {x : Nat}
    {k : K} (hx : g.Reaches r x) (hk : g.key? x = some k) : s.find? k = some (place g r x) := by
  obtain ⟨-, -, hmem, hnodup⟩ := order_facts hg hr ht
  -- distinct nodes have distinct keys, so the keys of the search order are distinct
  have hkeys : ((fromRoot g r).order.toList.filterMap g.key?).Nodup :=
    hnodup.filterMap fun _ _ _ ha ha' => hg.exact.key_unique ha ha'
  rw [find?_congr hs, find?_ofKeys hkeys, getElem?_keys hg hr ht, place,
    List.getElem?_idxOf ((hmem x).2 hx), Option.bind_some, hk]

/-- The graph of the keys of the search order has a node at the place of each reachable node. -/
theorem isSome_vertex?_place {x : Nat} (hx : g.Reaches r x) :
    ((ofKeys ((fromRoot g r).order.toList.filterMap g.key?)).vertex? (place g r x)).isSome := by
  obtain ⟨-, -, hmem, -⟩ := order_facts hg hr ht
  obtain ⟨k, hk⟩ := Option.isSome_iff_exists.1 (isSome_key?_of_reaches hg hr hx)
  rw [vertex?_ofKeys, getElem?_keys hg hr ht, place, List.getElem?_idxOf ((hmem x).2 hx)]
  simp [hk]

/-- The tree edges join nodes of the graph of the keys of the search order. -/
theorem treeEdges_live (l : List Nat) : ∀ e ∈ treeEdges t g r l,
    ((ofKeys ((fromRoot g r).order.toList.filterMap g.key?)).vertex? e.1).isSome ∧
      ((ofKeys ((fromRoot g r).order.toList.filterMap g.key?)).vertex? e.2).isSome := by
  intro e he
  obtain ⟨i, -, he⟩ := List.mem_filterMap.1 he
  obtain ⟨d, hd, rfl⟩ := Option.map_eq_some_iff.1 he
  obtain ⟨hir, hdr, -⟩ := (treeOf_compute hg hr ht).1.idom_facts hd
  exact ⟨isSome_vertex?_place hg hr ht hdr, isSome_vertex?_place hg hr ht hir⟩

/-- Linking tree edges leaves the keys of the search order where they are. -/
theorem key?_foldl_treeEdges (l : List Nat) (j : Nat) :
    ((treeEdges t g r l).foldl (fun s e => s.link e.1 e.2)
      (ofKeys ((fromRoot g r).order.toList.filterMap g.key?))).key? j =
    ((fromRoot g r).order.toList.filterMap g.key?)[j]? := by
  rw [(foldl_link_views _ _ (treeEdges_live hg hr ht l)).1, key?_ofKeys]

/-- The dominator tree as a graph: a node for each reachable node, in the order of the search
    and with its key, the edges of the tree in that order, and the root of the graph as root. -/
theorem asGraph_compute :
    t.asGraph g = .ok { ((treeEdges t g r (fromRoot g r).order.toList).foldl
        (fun s e => s.link e.1 e.2) (ofKeys ((fromRoot g r).order.toList.filterMap g.key?)))
      with root := some (place g r r) } := by
  obtain ⟨hspan, hroot, hmem, hnodup⟩ := order_facts hg hr ht
  obtain ⟨h, -⟩ := treeOf_compute hg hr ht
  have hkey : ∀ x, g.Reaches r x → ∃ k, g.key? x = some k := fun x hx =>
    Option.isSome_iff_exists.1 (isSome_key?_of_reaches hg hr hx)
  have hkeys : ∀ l, ((treeEdges t g r l).foldl (fun s e => s.link e.1 e.2)
      (ofKeys ((fromRoot g r).order.toList.filterMap g.key?))).index =
      (ofKeys ((fromRoot g r).order.toList.filterMap g.key?)).index := fun l =>
    foldl_keep (F := fun s (e : Nat × Nat) => s.link e.1 e.2) (fun s => s.index) (fun _ _ => rfl) _ _
  unfold asGraph
  dsimp only
  rw [hspan, forIn_eq_ok_of_prefix (fun pre => ofKeys (pre.filterMap g.key?)) ?empty ?nodes,
    ok_bind, forIn_eq_ok_of_prefix (fun pre => (treeEdges t g r pre).foldl
      (fun s e => s.link e.1 e.2) (ofKeys ((fromRoot g r).order.toList.filterMap g.key?)))
      ?nodesOnly ?edges]
  case empty => rfl
  case nodesOnly => rfl
  case nodes =>
    -- each node is added with its key, which no node before it has
    intro pre a post hsplit
    have ha : a ∈ (fromRoot g r).order.toList := by rw [hsplit]; simp
    obtain ⟨k, hk⟩ := hkey a ((hmem a).1 ha)
    have hfresh : k ∉ pre.filterMap g.key? := fun hk' => by
      obtain ⟨x, hx, hxk⟩ := List.mem_filterMap.1 hk'
      obtain rfl := hg.exact.key_unique hxk hk
      rw [hsplit] at hnodup
      exact List.disjoint_of_nodup_append hnodup hx List.mem_cons_self
    simp [hk, addNode_ofKeys hfresh, List.filterMap_append, bind, Except.bind, pure, Except.pure]
  case edges =>
    -- each edge joins the nodes with the keys of its ends, found at their places
    intro pre a post hsplit
    rcases hd : t.idom? a with _ | d
    · simp [treeEdges, List.filterMap_append, hd, pure, Except.pure]
    · obtain ⟨har, hdr, -⟩ := h.idom_facts hd
      obtain ⟨kd, hkd⟩ := hkey d hdr
      obtain ⟨ka, hka⟩ := hkey a har
      simp only [hkd, hka, ok_bind, Digraph.addEdge, Digraph.require,
        find?_key_of_reaches hg hr ht (hkeys pre) hdr hkd,
        find?_key_of_reaches hg hr ht (hkeys pre) har hka]
      simp [treeEdges, List.filterMap_append, hd, place, bind, Except.bind, pure, Except.pure]
  -- the root is found at its place
  obtain ⟨kr, hkr⟩ := hkey r ⟨[r], .single r⟩
  rw [ok_bind, hroot]
  simp only [hkr, ok_bind, Digraph.setRoot, Digraph.require,
    find?_key_of_reaches hg hr ht (hkeys _) ⟨[r], .single r⟩ hkr]
  rfl

/-- Among the edges of reachable nodes, those out of the place of `u` go to the places of the
    nodes `u` immediately dominates, in their order. -/
theorem treeEdges_from (u : Nat) {l : List Nat} (hl : ∀ i ∈ l, g.Reaches r i) :
    ((treeEdges t g r l).filter (·.1 = place g r u)).map Prod.snd =
      (l.filter fun i => t.idom? i = some u).map (place g r) := by
  obtain ⟨-, -, hmem, -⟩ := order_facts hg hr ht
  have h := (treeOf_compute hg hr ht).1
  induction l with
  | nil => rfl
  | cons i l ih =>
    rw [treeEdges_cons, List.filter_append, List.map_append, ih fun j hj => hl j (.tail _ hj)]
    rcases hd : t.idom? i with _ | d
    · simp [hd]
    · -- the edge from the immediate dominator of `i` leaves `u` exactly when that is `u`
      have hsame : place g r d = place g r u ↔ d = u :=
        List.idxOf_inj ((hmem d).2 (h.idom_facts hd).2.1)
      by_cases hdu : d = u <;> simp [hd, hdu, hsame]

/-- Among the edges of distinct reachable nodes, those into the place of `u` come from the
    place of its immediate dominator, once, when `u` is one of the nodes. -/
theorem treeEdges_into (u : Nat) {l : List Nat} (hnd : l.Nodup) (hl : ∀ i ∈ l, g.Reaches r i) :
    ((treeEdges t g r l).filter (·.2 = place g r u)).map Prod.fst =
      if u ∈ l then ((t.idom? u).map (place g r)).toList else [] := by
  obtain ⟨-, -, hmem, -⟩ := order_facts hg hr ht
  induction l with
  | nil => simp [treeEdges]
  | cons i l ih =>
    obtain ⟨hil, hnd⟩ := List.nodup_cons.1 hnd
    rw [treeEdges_cons, List.filter_append, List.map_append,
      ih hnd fun j hj => hl j (.tail _ hj)]
    by_cases hiu : i = u
    · -- the edge into `u` is the one of `u` itself, the only time `u` comes
      subst hiu
      cases t.idom? i <;> simp [hil]
    · -- the edge of `i` goes into the place of `i`, which is another
      have hne : place g r i ≠ place g r u :=
        fun hiu' => hiu ((List.idxOf_inj ((hmem i).2 (hl i List.mem_cons_self))).1 hiu')
      cases t.idom? i <;> simp [hne, Ne.symm hiu]

section Views

variable {a : Digraph K} (ha : t.asGraph g = .ok a)
include ha

/-- The exported graph is rooted at the place of the root. -/
theorem root_asGraph : a.root = some (place g r r) := by
  rw [asGraph_compute hg hr ht, Except.ok.injEq] at ha
  rw [← ha]

/-- The slots of the exported graph hold the keys of the search order. -/
theorem key?_asGraph (j : Nat) : a.key? j = (fromRoot g r).order.toList[j]?.bind g.key? := by
  rw [asGraph_compute hg hr ht, Except.ok.injEq] at ha
  subst ha
  rw [← getElem?_keys hg hr ht]
  exact key?_foldl_treeEdges hg hr ht _ j

/-- The only edge into the node of a reachable node comes from the node of its immediate
    dominator; the root has none. -/
theorem preds_asGraph {u : Nat} (hu : g.Reaches r u) :
    a.preds (place g r u) = ((t.idom? u).map (place g r)).toList := by
  obtain ⟨-, -, hmem, hnodup⟩ := order_facts hg hr ht
  rw [asGraph_compute hg hr ht, Except.ok.injEq] at ha
  subst ha
  have hviews := foldl_link_views _ _ (treeEdges_live hg hr ht (fromRoot g r).order.toList)
  rw [show ∀ s : Digraph K, ({ s with root := some (place g r r) } : Digraph K).preds =
    s.preds from fun _ => rfl, hviews.2.2.2.2, preds_ofKeys, List.nil_append,
    treeEdges_into hg hr ht u hnodup fun i hi => (hmem i).1 hi, if_pos ((hmem u).2 hu)]

/-- The edges out of the node of a reachable node go to the nodes of its children, in order. -/
theorem succs_asGraph {u : Nat} :
    a.succs (place g r u) = (t.children u).map (place g r) := by
  obtain ⟨-, -, hmem, -⟩ := order_facts hg hr ht
  rw [asGraph_compute hg hr ht, Except.ok.injEq] at ha
  subst ha
  have hviews := foldl_link_views _ _ (treeEdges_live hg hr ht (fromRoot g r).order.toList)
  rw [show ∀ s : Digraph K, ({ s with root := some (place g r r) } : Digraph K).succs =
    s.succs from fun _ => rfl, hviews.2.2.2.1, succs_ofKeys, List.nil_append,
    treeEdges_from hg hr ht u fun i hi => (hmem i).1 hi, children_compute hg hr ht]

end Views

end Computed

/-- The queries of the dominator tree of a graph built by the edits, with root `r`, agree with
    dominance. For a reachable node `n`: its children are the nodes it immediately dominates,
    by increasing dfnum; the walk down lists each node `n` dominates once, in preorder of the
    children; the walk up lists each node that dominates `n` once, from `n` to the root, each
    the immediate dominator of the one before, and the depth of `n` is their number less one.
    The exported graph holds the reachable nodes at their dfnums, with their keys, has the root
    of the graph as root, and has one edge into the node of each reachable node other than the
    root, from the node of its immediate dominator, and none into the root. -/
theorem queries_exact [DecidableEq K] (hg : g.Built) (hr : g.root = some r) :
    ∃ t, compute g = .ok t ∧
      (∀ n, g.Reaches r n →
        (∀ u, u ∈ t.children n ↔ t.idom? u = some n) ∧
        (t.children n).Pairwise (fun a b => t.spanning.dfnum? a < t.spanning.dfnum? b) ∧
        (t.allDominated n).Nodup ∧ (∀ u, u ∈ t.allDominated n ↔ t.dominates n u = true) ∧
        t.allDominated n = n :: (t.children n).flatMap t.allDominated ∧
        (t.dominators n).Nodup ∧ (∀ v, v ∈ t.dominators n ↔ t.dominates v n = true) ∧
        (t.dominators n).head? = some n ∧ (t.dominators n).getLast? = some r ∧
        (t.dominators n).IsChain (fun a b => t.idom? a = some b) ∧
        ∃ d, t.depth? n = some d ∧ d + 1 = (t.dominators n).length) ∧
      ∃ a, t.asGraph g = .ok a ∧ a.root = t.spanning.dfnum? r ∧ a.root.bind a.key? = g.key? r ∧
        (∀ j, a.key? j = t.spanning.order.toList[j]?.bind g.key?) ∧
        ∀ u, g.Reaches r u → ∃ j, t.spanning.dfnum? u = some j ∧
          a.preds j = ((t.idom? u).bind t.spanning.dfnum?).toList ∧
          a.succs j = (t.children u).filterMap t.spanning.dfnum? := by
  obtain ⟨t, ht, -⟩ := compute_eq_ok hr
  obtain ⟨h, -⟩ := treeOf_compute hg hr ht
  obtain ⟨hspan, -, hmem, -⟩ := order_facts hg hr ht
  have hnum := fun x (hx : g.Reaches r x) => dfnum?_eq_place hg hr ht hx
  have hroot : g.Reaches r r := ⟨[r], .single r⟩
  have hdom := fun v u => h.dominates v u
  refine ⟨t, ht, fun n hn => ?_, _, asGraph_compute hg hr ht, ?_⟩
  · -- the walks, from what the tree knows of dominance
    obtain ⟨hdn, hdmem, hhead, hlast, hchain, hdepth⟩ := h.dominators_spec hn
    obtain ⟨hanodup, hamem⟩ := h.allDominated_spec (pairwise_place_children hg hr ht) hn
    refine ⟨fun u => h.children n u, ?_, hanodup, fun u => by rw [hamem, hdom],
      h.allDominated_eq hn, hdn, fun v => by rw [hdmem, hdom], hhead, hlast, hchain, hdepth⟩
    -- children are reachable, so their dfnums are their places
    refine (pairwise_place_children hg hr ht n).imp_of_mem fun ha hb hab => ?_
    rw [hnum _ (h.idom_facts ((h.children n _).1 ha)).1, hnum _ (h.idom_facts ((h.children n _).1 hb)).1]
    exact Option.some_lt_some.2 hab
  · -- the exported graph, read at the dfnums of reachable nodes
    have ha := asGraph_compute hg hr ht
    have hkey := key?_asGraph hg hr ht ha
    refine ⟨by rw [root_asGraph hg hr ht ha, hnum r hroot], ?_, fun j => by rw [hkey, hspan],
      fun u hu => ⟨place g r u, hnum u hu, ?_, ?_⟩⟩
    · rw [root_asGraph hg hr ht ha, Option.bind_some, hkey, place,
        List.getElem?_idxOf ((hmem r).2 hroot), Option.bind_some]
    · rw [preds_asGraph hg hr ht ha hu]
      rcases hd : t.idom? u with _ | d
      · rfl
      · rw [Option.map_some, Option.bind_some, hnum d (h.idom_facts hd).2.1]
    · rw [succs_asGraph hg hr ht ha, eq_comm, List.filterMap_eq_map_iff_forall_eq_some]
      exact fun c hc => hnum c (h.idom_facts ((h.children u c).1 hc)).1

theorem queries_exact_diamond : diamond.Built ∧ diamond.root = some 0 ∧
    ∃ t, compute diamond = .ok t ∧
      (∀ n, diamond.Reaches 0 n →
        (∀ u, u ∈ t.children n ↔ t.idom? u = some n) ∧
        (t.children n).Pairwise (fun a b => t.spanning.dfnum? a < t.spanning.dfnum? b) ∧
        (t.allDominated n).Nodup ∧ (∀ u, u ∈ t.allDominated n ↔ t.dominates n u = true) ∧
        t.allDominated n = n :: (t.children n).flatMap t.allDominated ∧
        (t.dominators n).Nodup ∧ (∀ v, v ∈ t.dominators n ↔ t.dominates v n = true) ∧
        (t.dominators n).head? = some n ∧ (t.dominators n).getLast? = some 0 ∧
        (t.dominators n).IsChain (fun a b => t.idom? a = some b) ∧
        ∃ d, t.depth? n = some d ∧ d + 1 = (t.dominators n).length) ∧
      ∃ a, t.asGraph diamond = .ok a ∧ a.root = t.spanning.dfnum? 0 ∧
        a.root.bind a.key? = diamond.key? 0 ∧
        (∀ j, a.key? j = t.spanning.order.toList[j]?.bind diamond.key?) ∧
        ∀ u, diamond.Reaches 0 u → ∃ j, t.spanning.dfnum? u = some j ∧
          a.preds j = ((t.idom? u).bind t.spanning.dfnum?).toList ∧
          a.succs j = (t.children u).filterMap t.spanning.dfnum? :=
  ⟨diamond_built, rfl, queries_exact diamond_built rfl⟩

/-- In the diamond, the root is the immediate dominator of the branches and of the join, and
    its children come in the order of the search, which reaches the join through the first
    branch before it turns to the second. -/
example : ((compute diamond).toOption.map fun t =>
    (t.children 0, t.allDominated 0, t.dominators 3)) = some ([1, 3, 2], [0, 1, 3, 2], [3, 0]) := by
  decide +kernel

end DominatorTree

end Decompilation
