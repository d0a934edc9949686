import Decompilation.Proofs.Graph.Compression
import Decompilation.Proofs.Graph.Semidominators
import Decompilation.Proofs.Graph.Adjacency

/-!
# The Lengauer-Tarjan construction is exact

The construction handles the nodes of the search tree backwards, from the last numbered up to
the root's children, and then fills in the deferred immediate dominators forwards. Its
invariant, `Handled k`, describes the state once the nodes numbered `k` and after are handled:

* they are exactly the nodes linked in the forest, and each has its semidominator recorded
  (`IsSdom`);
* a bucket holds handled nodes that have the bucket's node as semidominator, each below a child
  of that node not handled yet;
* a handled node in no bucket has its immediate dominator settled (`Settled`): written, or
  deferred to a node numbered before it that has the same immediate dominator; nothing is
  written for the other nodes.

Handling the node numbered `k` keeps it (`Handled.visit`): the search over its predecessors
finds its semidominator (`semiSteps_sdom`), and each node of the parent's bucket is settled by
one of the two rules of `Semidominators` (`settle_spec`). The forward pass then resolves the
deferred nodes in increasing order (`resolves_spec`).

* `idomOf_compute`: on a graph built by the edits, with root `r`, the construction over the
  search from `r` writes for `u` the immediate dominator `d` exactly when `d` immediately
  dominates `u`.
-/

namespace Decompilation

namespace LengauerTarjan

open SpanningTree

variable {K : Type} {g : Digraph K} {t : SpanningTree} {st st' st₁ st₂ : LengauerTarjan}
  {r j k n p x y v s : Nat} {vs vs' : List Nat}

/-! ### Reading and writing single slots -/

theorem dfnum_eq_num (h : st.tree = t) (x : Nat) : st.dfnum x = t.num x := by
  subst h
  rfl

theorem semiDfnum_of_semiOf (h : st.semiOf x = some s) : st.semiDfnum x = st.dfnum s := by
  simp [semiDfnum, h]

@[simp]
theorem semiOf_link : (st.link p n).semiOf x = st.semiOf x := rfl

@[simp]
theorem bucketOf_link : (st.link p n).bucketOf x = st.bucketOf x := rfl

@[simp]
theorem idomOf_link : (st.link p n).idomOf x = st.idomOf x := rfl

@[simp]
theorem samedomOf_link : (st.link p n).samedomOf x = st.samedomOf x := rfl

@[simp]
theorem idomOf_assignSemi : (st.assignSemi n s).idomOf x = st.idomOf x := rfl

@[simp]
theorem samedomOf_assignSemi : (st.assignSemi n s).samedomOf x = st.samedomOf x := rfl

theorem semiOf_assignSemi_self (h : n < st.semi.size) : (st.assignSemi n s).semiOf n = some s := by
  simp only [assignSemi, semiOf, Array.getElem?_modify, if_true]
  simp [h]

theorem semiOf_assignSemi_of_ne (h : x ≠ n) : (st.assignSemi n s).semiOf x = st.semiOf x := by
  simp [assignSemi, semiOf, Array.getElem?_modify, Ne.symm h]

theorem bucketOf_assignSemi (h : s < st.bucket.size) :
    (st.assignSemi n s).bucketOf x = if x = s then st.bucketOf x ++ [n] else st.bucketOf x := by
  by_cases hx : x = s
  · subst hx
    simp only [assignSemi, bucketOf, Array.getElem?_modify, if_true]
    simp [h]
  · simp [assignSemi, bucketOf, Array.getElem?_modify, Ne.symm hx, hx]

/-- Emptying the bucket of `p`. -/
theorem bucketOf_clear {b : Array (List Nat)} (hb : b = st.bucket.modify p fun _ => []) :
    ({ st with bucket := b } : LengauerTarjan).bucketOf x =
      if x = p then [] else st.bucketOf x := by
  subst hb
  by_cases hx : x = p
  · subst hx
    simp only [bucketOf, Array.getElem?_modify, if_true]
    cases st.bucket[x]? <;> rfl
  · simp [bucketOf, Array.getElem?_modify, Ne.symm hx, hx]

theorem idomOf_write_self {d : Option Nat} (h : x < st.idom.size) :
    ({ st with idom := st.idom.modify x fun _ => d } : LengauerTarjan).idomOf x = d := by
  simp only [idomOf, Array.getElem?_modify, if_true]
  simp [h]

theorem idomOf_write_of_ne {d : Option Nat} (h : y ≠ x) :
    ({ st with idom := st.idom.modify x fun _ => d } : LengauerTarjan).idomOf y = st.idomOf y := by
  simp [idomOf, Array.getElem?_modify, Ne.symm h]

theorem samedomOf_write_self {d : Option Nat} (h : x < st.samedom.size) :
    ({ st with samedom := st.samedom.modify x fun _ => d } : LengauerTarjan).samedomOf x = d := by
  simp only [samedomOf, Array.getElem?_modify, if_true]
  simp [h]

theorem samedomOf_write_of_ne {d : Option Nat} (h : y ≠ x) :
    ({ st with samedom := st.samedom.modify x fun _ => d } : LengauerTarjan).samedomOf y =
      st.samedomOf y := by
  simp [samedomOf, Array.getElem?_modify, Ne.symm h]

/-- Every per-slot array of the state has `b` slots. -/
structure Sized (b : Nat) (st : LengauerTarjan) : Prop where
  semi : st.semi.size = b
  ancestor : st.ancestor.size = b
  samedom : st.samedom.size = b
  idom : st.idom.size = b
  bucket : st.bucket.size = b

/-! ### Compressing links and writing dominators -/

/-- `st'` is `st` with links compressed and dominators written for the nodes `vs` at most: the
    tree, the semidominators and the buckets are as they were, the same nodes are linked, the
    forest and the sizes are kept, and every other node keeps its deferred and immediate
    dominators. -/
structure Rewrites (vs : List Nat) (st st' : LengauerTarjan) : Prop where
  tree : st'.tree = st.tree
  semi : st'.semi = st.semi
  bucket : st'.bucket = st.bucket
  sized : ∀ b, Sized b st → Sized b st'
  linked : ∀ x, (st'.ancestorOf x).isSome = (st.ancestorOf x).isSome
  forest : st'.Forest
  frame : ∀ x, x ∉ vs → st'.idomOf x = st.idomOf x ∧ st'.samedomOf x = st.samedomOf x

namespace Rewrites

theorem refl (hf : st.Forest) : Rewrites vs st st :=
  ⟨rfl, rfl, rfl, fun _ h => h, fun _ => rfl, hf, fun _ _ => ⟨rfl, rfl⟩⟩

theorem trans (h₁ : Rewrites vs st st₁) (h₂ : Rewrites vs' st₁ st₂) :
    Rewrites (vs ++ vs') st st₂ where
  tree := h₂.tree.trans h₁.tree
  semi := h₂.semi.trans h₁.semi
  bucket := h₂.bucket.trans h₁.bucket
  sized b h := h₂.sized b (h₁.sized b h)
  linked x := (h₂.linked x).trans (h₁.linked x)
  forest := h₂.forest
  frame x hx := by
    obtain ⟨h₁i, h₁s⟩ := h₁.frame x fun h => hx (List.mem_append_left _ h)
    obtain ⟨h₂i, h₂s⟩ := h₂.frame x fun h => hx (List.mem_append_right _ h)
    exact ⟨h₂i.trans h₁i, h₂s.trans h₁s⟩

theorem mono (h : Rewrites vs st st') (hsub : ∀ x ∈ vs, x ∈ vs') : Rewrites vs' st st' :=
  { h with frame := fun x hx => h.frame x fun h => hx (hsub x h) }

theorem semiOf (h : Rewrites vs st st') (x : Nat) : st'.semiOf x = st.semiOf x := by
  simp [LengauerTarjan.semiOf, h.semi]

theorem dfnum (h : Rewrites vs st st') (x : Nat) : st'.dfnum x = st.dfnum x := by
  simp [LengauerTarjan.dfnum, h.tree]

theorem semiDfnum (h : Rewrites vs st st') (x : Nat) : st'.semiDfnum x = st.semiDfnum x := by
  simp only [LengauerTarjan.semiDfnum, h.semiOf, h.dfnum]

theorem bucketOf (h : Rewrites vs st st') (x : Nat) : st'.bucketOf x = st.bucketOf x := by
  simp [LengauerTarjan.bucketOf, h.bucket]

end Rewrites

/-- The walk up the forest only compresses links. -/
theorem rewrites_lowestSemi (hf : st.Forest) (v : Nat) : Rewrites [] st (st.lowestSemi v).2 := by
  have hc := lowestSemi_compresses hf v
  obtain ⟨htree, hsemi, hsame, hidom, hbucket, hsize⟩ := hc.keeps
  refine ⟨htree, hsemi, hbucket, fun b h => ?_, hc.isSome_ancestorOf hf, hc.forest hf,
    fun x _ => by simp [idomOf, samedomOf, hidom, hsame]⟩
  exact ⟨hsemi ▸ h.semi, hsize ▸ h.ancestor, hsame ▸ h.samedom, hidom ▸ h.idom,
    hbucket ▸ h.bucket⟩

/-! ### What the construction keeps -/

variable (g) in
/-- What the walks read once the nodes numbered `k` and after are handled, over the tree `t`:
    the forest links exactly those nodes, and each has its semidominator recorded. -/
structure Linked (t : SpanningTree) (k : Nat) (st : LengauerTarjan) : Prop where
  tree : st.tree = t
  sized : Sized g.bound st
  forest : st.Forest
  linked : ∀ x, (st.ancestorOf x).isSome = true ↔ t.contains x = true ∧ k ≤ t.num x
  semi : ∀ x, t.contains x = true → k ≤ t.num x → ∃ s, st.semiOf x = some s ∧ IsSdom g t x s

/-- Compressing links and writing dominators keeps what the walks read. -/
theorem Linked.rewrite (h : Linked g t k st) (hw : Rewrites vs st st') : Linked g t k st' where
  tree := hw.tree.trans h.tree
  sized := hw.sized _ h.sized
  forest := hw.forest
  linked x := by rw [hw.linked x]; exact h.linked x
  semi x hx hk := by
    rw [hw.semiOf]
    exact h.semi x hx hk

/-- On a state whose forest links the nodes numbered `k` and after, the walk from such a node
    `v` returns a node above `v`, numbered `k` or after, whose semidominator is numbered no later
    than that of any such node: the forest path from `v` passes exactly the nodes above `v`
    numbered `k` or after, as the forest's root is not linked. -/
theorem lowestSemi_spec (hs : Shaped g r t) (h : Linked g t k st) (hv : t.contains v = true)
    (hkv : k ≤ t.num v) :
    t.Below (st.lowestSemi v).1 v ∧ k ≤ t.num (st.lowestSemi v).1 ∧
      ∀ u, t.Below u v → k ≤ t.num u → st.semiDfnum (st.lowestSemi v).1 ≤ st.semiDfnum u := by
  obtain ⟨root, xs, hseg, hlink, hroot, hmem, hle⟩ :=
    lowestSemi_least h.forest ((h.linked v).2 ⟨hv, hkv⟩)
  rw [h.tree] at hseg
  refine ⟨hseg.below_of_mem hmem, ((h.linked _).1 (hlink _ hmem)).2, fun u hu hku => ?_⟩
  rcases hseg.mem_or_below hu with hu | hu
  · exact hle u hu
  · -- the forest's root is not linked, so nothing above it is numbered `k` or after
    have hrc := (hseg.below_top.num_le hs.parentsFirst hv).1
    have hrk : ¬k ≤ t.num root := fun hk => by
      have := (h.linked root).2 ⟨hrc, hk⟩
      simp [hroot] at this
    have := (hu.num_le hs.parentsFirst hrc).2
    omega

/-! ### The search for the semidominator -/

variable (g) in
/-- The candidate `c` for the semidominator of `n` is no worse than what the predecessor `v`
    offers: `v` itself when it is numbered no later than `n`, and otherwise the semidominator
    of any node above `v` numbered after `n`. -/
structure Beats (t : SpanningTree) (n c v : Nat) : Prop where
  of_le : t.num v ≤ t.num n → t.num c ≤ t.num v
  of_below : ∀ u s, t.Below u v → t.num n < t.num u → IsSdom g t u s → t.num c ≤ t.num s

theorem Beats.mono {c c' : Nat} (h : Beats g t n c v) (hle : t.num c' ≤ t.num c) :
    Beats g t n c' v :=
  ⟨fun hv => hle.trans (h.of_le hv), fun u s hu hnu hs => hle.trans (h.of_below u s hu hnu hs)⟩

section Search

variable (hs : Shaped g r t) (h : Linked g t (k + 1) st) (hnk : t.num n = k)
include hs h hnk

/-- What a predecessor `v` of `n` offers is a node that semi-reaches `n`, and beats what `v`
    offers: `v` itself, or the semidominator of the node the walk from `v` returns. -/
theorem candidate_spec (hrw : Rewrites [] st st₁) (hv : t.contains v = true)
    (hvn : n ∈ g.succs v) :
    Rewrites [] st (st₁.candidate n v).2 ∧ t.contains (st₁.candidate n v).1 = true ∧
      Above g t (t.num n) (st₁.candidate n v).1 n ∧ Beats g t n (st₁.candidate n v).1 v := by
  have h₁ := h.rewrite hrw
  unfold candidate
  rw [dfnum_eq_num h₁.tree, dfnum_eq_num h₁.tree]
  split_ifs with hle
  · refine ⟨hrw, hv, .edge hvn, ⟨fun _ => le_rfl, fun u _ hu hnu _ => ?_⟩⟩
    have := (hu.num_le hs.parentsFirst hv).2
    omega
  · -- `v` is handled: its walk returns a handled node `y` above it
    have hw := rewrites_lowestSemi h₁.forest v
    obtain ⟨hyv, hky, hleast⟩ := lowestSemi_spec hs h₁ hv (by omega)
    rcases hl : st₁.lowestSemi v with ⟨y, st₂⟩
    rw [hl] at hw hyv hky hleast
    have hyc := (hyv.num_le hs.parentsFirst hv).1
    obtain ⟨sy, hsy, hsdy⟩ := h₁.semi y hyc hky
    have hsy₂ : st₂.semiOf y = some sy := (hw.semiOf y).trans hsy
    simp only [hsy₂, Option.getD_some]
    refine ⟨hrw.trans hw, hsdy.contains,
      hs.above_of_forest hvn hv (by omega) hyv (by omega) hsdy.above,
      ⟨fun hle' => absurd hle' hle, fun u s' hu hnu hsd' => ?_⟩⟩
    -- the walk's answer has the least semidominator among the handled nodes above `v`
    obtain ⟨su, hsu, hsdu⟩ := h₁.semi u ((hu.num_le hs.parentsFirst hv).1) (by omega)
    obtain rfl := hs.sdom_unique hsdu hsd'
    have := hleast u hu (by omega)
    rwa [semiDfnum_of_semiOf hsy, semiDfnum_of_semiOf hsu, dfnum_eq_num h₁.tree,
      dfnum_eq_num h₁.tree] at this

/-- Weighing one predecessor keeps a candidate that semi-reaches `n`, never a worse one, and
    one that beats what the predecessor offers. -/
theorem semiStep_spec {acc : Nat × LengauerTarjan} (hrw : Rewrites [] st acc.2)
    (hc : t.contains acc.1 = true) (habove : Above g t (t.num n) acc.1 n)
    (hvn : n ∈ g.succs v) :
    Rewrites [] st (semiStep n acc v).2 ∧ t.contains (semiStep n acc v).1 = true ∧
      Above g t (t.num n) (semiStep n acc v).1 n ∧ t.num (semiStep n acc v).1 ≤ t.num acc.1 ∧
      (t.contains v = true → Beats g t n (semiStep n acc v).1 v) := by
  have h₁ := h.rewrite hrw
  unfold semiStep
  rw [h₁.tree]
  by_cases hv : t.contains v = true
  · rw [if_pos hv]
    obtain ⟨hrw', hcc, hca, hbeats⟩ := candidate_spec hs h hnk hrw hv hvn
    rcases hcand : acc.2.candidate n v with ⟨c, st₂⟩
    rw [hcand] at hrw' hcc hca hbeats
    have h₂ := h.rewrite hrw'
    simp only [dfnum_eq_num h₂.tree]
    split_ifs with hlt
    · exact ⟨hrw', hcc, hca, hlt.le, fun _ => hbeats⟩
    · exact ⟨hrw', hc, habove, le_rfl, fun _ => hbeats.mono (not_lt.1 hlt)⟩
  · rw [if_neg hv]
    exact ⟨hrw, hc, habove, le_rfl, fun h => absurd h hv⟩

/-- Weighing the predecessors in turn keeps a candidate that semi-reaches `n` and beats what
    each of them offers. -/
theorem semiSteps_spec (L : List Nat) : ∀ (acc : Nat × LengauerTarjan),
    Rewrites [] st acc.2 → t.contains acc.1 = true → Above g t (t.num n) acc.1 n →
    (∀ v ∈ L, n ∈ g.succs v) →
    Rewrites [] st (L.foldl (semiStep n) acc).2 ∧ t.contains (L.foldl (semiStep n) acc).1 = true ∧
      Above g t (t.num n) (L.foldl (semiStep n) acc).1 n ∧
      t.num (L.foldl (semiStep n) acc).1 ≤ t.num acc.1 ∧
      ∀ v ∈ L, t.contains v = true → Beats g t n (L.foldl (semiStep n) acc).1 v := by
  induction L with
  | nil => exact fun acc hrw hc habove _ => ⟨hrw, hc, habove, le_rfl, by simp⟩
  | cons v L ih =>
    intro acc hrw hc habove hL
    obtain ⟨hrw₁, hc₁, ha₁, hle₁, hb₁⟩ :=
      semiStep_spec hs h hnk hrw hc habove (hL v List.mem_cons_self)
    obtain ⟨hrw₂, hc₂, ha₂, hle₂, hb₂⟩ := ih _ hrw₁ hc₁ ha₁ fun w hw => hL w (.tail _ hw)
    refine ⟨hrw₂, hc₂, ha₂, hle₂.trans hle₁, fun w hw hwc => ?_⟩
    rcases List.mem_cons.1 hw with rfl | hw
    · exact (hb₁ hwc).mono hle₂
    · exact hb₂ w hw hwc

/-- The search over the predecessors of `n`, started from its parent, finds its semidominator
    and only compresses links. Every node that semi-reaches `n` does so by an edge, and is a
    predecessor, or through a handled node above a predecessor, whose semidominator it is
    numbered no earlier than; either way the search's answer is numbered no later. -/
theorem semiSteps_sdom (hpreds : ∀ v, v ∈ g.preds n ↔ n ∈ g.succs v)
    (hp : t.parent? n = some p) :
    Rewrites [] st ((g.preds n).foldl (semiStep n) (p, st)).2 ∧
      IsSdom g t n ((g.preds n).foldl (semiStep n) (p, st)).1 := by
  obtain ⟨hrw, hc, habove, -, hbeats⟩ := semiSteps_spec hs h hnk (g.preds n) (p, st)
    (Rewrites.refl h.forest) (num_lt_of_parent? hs.parentsFirst hp).1
    (.edge (hs.parent_edge n p hp)) fun v hv => (hpreds v).1 hv
  refine ⟨hrw, ⟨hc, habove, fun v hv hav => ?_⟩⟩
  rcases hs.exists_candidate hav with hvn | ⟨w, u, hnw, hwc, hnw', huw, hnu, hau⟩
  · have hb := hbeats v ((hpreds v).2 hvn) hv
    by_cases hvn' : t.num v ≤ t.num n
    · exact hb.of_le hvn'
    · -- numbered after `n`, `v` is handled, and its semidominator is numbered before it
      have hvr : v ≠ r := fun hvr => by
        subst hvr
        rw [hs.num_root] at hvn'
        omega
      obtain ⟨sv, -, hsv⟩ := h.semi v hv (by omega)
      exact (hb.of_below v sv .refl (by omega) hsv).trans (hs.sdom_below hv hvr hsv).2.le
  · obtain ⟨su, -, hsu⟩ := h.semi u ((huw.num_le hs.parentsFirst hwc).1) (by omega)
    exact ((hbeats w ((hpreds w).2 hnw) hwc).of_below u su huw hnu hsu).trans
      (hsu.least v hv hau)

end Search

/-! ### Settling a bucket -/

variable (g) in
/-- The immediate dominator of `x` is settled in `st`, over the tree `t`: written, with nothing
    deferred, or deferred to a node `y` of the tree numbered after the root and before `x`,
    whose immediate dominator is that of `x`. -/
inductive Settled (r : Nat) (t : SpanningTree) (st : LengauerTarjan) (x : Nat) : Prop
  | written {d : Nat} : st.samedomOf x = none → st.idomOf x = some d →
      g.ImmediatelyDominates r d x → Settled r t st x
  | deferred {y : Nat} : st.samedomOf x = some y → t.contains y = true → 0 < t.num y →
      t.num y < t.num x → (∀ d, g.ImmediatelyDominates r d y → g.ImmediatelyDominates r d x) →
      Settled r t st x

/-- A node whose deferred and immediate dominators stay as they were stays settled. -/
theorem Settled.congr (h : Settled g r t st x) (hs : st'.samedomOf x = st.samedomOf x)
    (hi : st'.idomOf x = st.idomOf x) : Settled g r t st' x := by
  cases h with
  | written hs₀ hi₀ hd => exact .written (hs.trans hs₀) (hi.trans hi₀) hd
  | deferred hs₀ hyc hpos hlt himp => exact .deferred (hs.trans hs₀) hyc hpos hlt himp

theorem Settled.rewrite (h : Settled g r t st x) (hw : Rewrites vs st st') (hx : x ∉ vs) :
    Settled g r t st' x :=
  h.congr (hw.frame x hx).2 (hw.frame x hx).1

/-- Writing an immediate dominator for `x` keeps what was deferred for it. -/
theorem rewrites_write_idom (hf : st.Forest) {d : Option Nat} :
    Rewrites [x] st { st with idom := st.idom.modify x fun _ => d } where
  tree := rfl
  semi := rfl
  bucket := rfl
  sized _ h := { h with idom := by simp [h.idom] }
  linked _ := rfl
  forest := hf.record _ _ _
  frame y hy := ⟨idomOf_write_of_ne (by simpa using hy), rfl⟩

/-- Deferring the immediate dominator of `x` keeps what was written for it. -/
theorem rewrites_write_samedom (hf : st.Forest) {d : Option Nat} :
    Rewrites [x] st { st with samedom := st.samedom.modify x fun _ => d } where
  tree := rfl
  semi := rfl
  bucket := rfl
  sized _ h := { h with samedom := by simp [h.samedom] }
  linked _ := rfl
  forest := hf.record _ _ _
  frame y hy := ⟨rfl, samedomOf_write_of_ne (by simpa using hy)⟩

/-- Writing the immediate dominator of a node with nothing deferred, or with a settled
    deferral, settles it. -/
theorem Settled.write_idom {d : Nat} (hd : g.ImmediatelyDominates r d x) (hx : x < st.idom.size)
    (hfresh : st.samedomOf x = none ∨ Settled g r t st x) :
    Settled g r t { st with idom := st.idom.modify x fun _ => some d } x := by
  by_cases hsd : st.samedomOf x = none
  · exact .written hsd (idomOf_write_self hx) hd
  · cases hfresh.resolve_left hsd with
    | written hs₀ => exact absurd hs₀ hsd
    | deferred hs₀ hyc hpos hlt himp => exact .deferred hs₀ hyc hpos hlt himp

section Settle

variable (hs : Shaped g r t) (h : Linked g t k st) (hk : 0 < k) (hp : t.parent? n = some p)
  (hnk : t.num n = k)
include hs h hk hp hnk

/-- Settling a node `v` of the bucket of `p`, the parent of the node `n` just handled and
    linked: `v` has semidominator `p` and lies below a child of `p` numbered no later than `n`,
    which can only be `n`. So the walk from `v` passes exactly the nodes strictly below `p` above
    `v`, and returns one `y` of least semidominator. When `y` has the semidominator of `v`, the
    first rule makes `p` the immediate dominator of `v`; otherwise the second rule makes it that
    of `y`. -/
theorem settle_spec {c : Nat} (hv : st.semiOf v = some p) (hvc : t.contains v = true)
    (hkv : k ≤ t.num v) (hc : t.parent? c = some p) (hcv : t.Below c v) (hck : t.num c ≤ k)
    (hfresh : st.samedomOf v = none ∨ Settled g r t st v) :
    Rewrites [v] st (settle p st v) ∧ Settled g r t (settle p st v) v := by
  have hw := rewrites_lowestSemi h.forest v
  obtain ⟨hyv, hky, hleast⟩ := lowestSemi_spec hs h hvc hkv
  have hsizes := h.sized
  have hvb := hs.lt_bound hvc
  have hfresh₂ : (st.lowestSemi v).2.samedomOf v = none ∨ Settled g r t (st.lowestSemi v).2 v := by
    rcases hfresh with hnone | hset
    · exact .inl (((hw.frame v (List.not_mem_nil)).2).trans hnone)
    · exact .inr (hset.rewrite hw List.not_mem_nil)
  have hidom_size : v < (st.lowestSemi v).2.idom.size := by
    rw [(hw.sized _ hsizes).idom]
    exact hvb
  have hsame_size : v < (st.lowestSemi v).2.samedom.size := by
    rw [(hw.sized _ hsizes).samedom]
    exact hvb
  unfold settle
  rcases hl : st.lowestSemi v with ⟨y, st₂⟩
  rw [hl] at hw hyv hky hleast hfresh₂ hidom_size hsame_size
  dsimp only at hw hyv hky hleast hfresh₂ hidom_size hsame_size ⊢
  have hf₂ := hw.forest
  simp only [hw.semiOf]
  -- the child of `p` above `v` is `n`, so the walk from `v` ranges over the nodes strictly
  -- below `p` above `v`
  obtain rfl : c = n := hs.eq_of_siblings hc hp hcv hvc (by omega) (by omega)
  obtain ⟨hpc, hpn⟩ := num_lt_of_parent? hs.parentsFirst hp
  have hrange : ∀ u, t.Below p u → u ≠ p → t.Below u v → k ≤ t.num u := fun u hpu hup huv => by
    have huc := (huv.num_le hs.parentsFirst hvc).1
    by_contra hlt
    -- numbered before `n`, `u` would lie above `n`, so above its parent `p`
    have hun := hs.below_of_le huv hcv hvc (by omega)
    have hu := hun.of_parent? (fun h => by rw [h] at hlt; omega) hp
    have h₁ := (hu.num_le hs.parentsFirst hpc).2
    have h₂ := (hpu.num_le hs.parentsFirst huc).2
    exact hup (hs.eq_of_num_eq huc hpc (le_antisymm h₁ h₂))
  have hyc := (hyv.num_le hs.parentsFirst hvc).1
  have hpy : t.Below p y := (Below.parent hp .refl).trans (hs.below_of_le hcv hyv hvc (by omega))
  have hyp : y ≠ p := fun h => by rw [h] at hky; omega
  have hvr : v ≠ r := fun h => by rw [h, hs.num_root] at hkv; omega
  obtain ⟨sv, hsv, hsdv⟩ := h.semi v hvc hkv
  obtain rfl : sv = p := Option.some.inj (hsv.symm.trans hv)
  obtain ⟨sy, hsy, hsdy⟩ := h.semi y hyc hky
  -- no node of that range is semi-reached from a node numbered before the semidominator of `y`
  have hbound : ∀ z x, t.Below sv z → z ≠ sv → t.Below z v → t.contains x = true →
      Above g t (t.num z) x z → t.num sy ≤ t.num x := fun z x hpz hzp hzv hxc habove => by
    have hkz := hrange z hpz hzp hzv
    obtain ⟨sz, hsz, hsdz⟩ := h.semi z ((hzv.num_le hs.parentsFirst hvc).1) hkz
    have := hleast z hzv hkz
    rw [semiDfnum_of_semiOf hsy, semiDfnum_of_semiOf hsz, dfnum_eq_num h.tree,
      dfnum_eq_num h.tree] at this
    exact this.trans (hsdz.least x hxc habove)
  rw [hsy, hv]
  split_ifs with heq
  · -- the first rule: `y` has the semidominator of `v`
    obtain rfl : sy = sv := Option.some.inj heq
    exact ⟨hw.trans (rewrites_write_idom hf₂),
      Settled.write_idom (hs.immediatelyDominates_sdom hvc hvr hsdv hbound) hidom_size hfresh₂⟩
  · -- the second rule: the semidominator of `y` is numbered before that of `v`
    have hle := hleast v .refl hkv
    rw [semiDfnum_of_semiOf hsy, semiDfnum_of_semiOf hv, dfnum_eq_num h.tree,
      dfnum_eq_num h.tree] at hle
    have hlt : t.num sy < t.num sv := lt_of_le_of_ne hle fun h =>
      heq (congrArg some (hs.eq_of_num_eq hsdy.contains hpc h))
    have hyv' : y ≠ v := fun h => heq (by rw [h] at hsy; exact hsy.symm.trans hv)
    exact ⟨hw.trans (rewrites_write_samedom hf₂),
      .deferred (samedomOf_write_self hsame_size) hyc (by omega)
        (hyv.num_lt hs.parentsFirst hvc hyv')
        fun d hd => hs.immediatelyDominates_of_lower hvc hvr hsdv hpy hyp hyv hsdy hlt hbound hd⟩

omit h in
/-- Settling the nodes of a bucket in turn settles each of them, and writes for them only. -/
theorem settles_spec (L : List Nat) : ∀ st', Linked g t k st' →
    (∀ v ∈ L, st'.semiOf v = some p ∧ t.contains v = true ∧ k ≤ t.num v ∧
      ∃ c, t.parent? c = some p ∧ t.Below c v ∧ t.num c ≤ k) →
    (∀ v ∈ L, st'.samedomOf v = none ∨ Settled g r t st' v) →
    Rewrites L st' (L.foldl (settle p) st') ∧
      ∀ v ∈ L, Settled g r t (L.foldl (settle p) st') v := by
  induction L with
  | nil => exact fun st' h' _ _ => ⟨Rewrites.refl h'.forest, by simp⟩
  | cons v L ih =>
    intro st' h' hL hfresh
    obtain ⟨hv, hvc, hkv, c, hc, hcv, hck⟩ := hL v List.mem_cons_self
    obtain ⟨hw₁, hset₁⟩ :=
      settle_spec hs h' hk hp hnk hv hvc hkv hc hcv hck (hfresh v List.mem_cons_self)
    -- the nodes after `v` keep their semidominators, and are fresh or settled as before
    have hL' : ∀ w ∈ L, (settle p st' v).semiOf w = some p ∧ t.contains w = true ∧
        k ≤ t.num w ∧ ∃ c, t.parent? c = some p ∧ t.Below c w ∧ t.num c ≤ k := fun w hw => by
      rw [hw₁.semiOf]
      exact hL w (.tail _ hw)
    have hfresh' : ∀ w ∈ L, (settle p st' v).samedomOf w = none ∨
        Settled g r t (settle p st' v) w := fun w hw => by
      by_cases hwv : w = v
      · subst hwv
        exact .inr hset₁
      · have hwv' : w ∉ [v] := by simpa using hwv
        rcases hfresh w (.tail _ hw) with hnone | hset
        · exact .inl (((hw₁.frame w hwv').2).trans hnone)
        · exact .inr (hset.rewrite hw₁ hwv')
    obtain ⟨hw₂, hset₂⟩ := ih _ (h'.rewrite hw₁) hL' hfresh'
    refine ⟨hw₁.trans hw₂, fun w hw => ?_⟩
    by_cases hwL : w ∈ L
    · exact hset₂ w hwL
    · obtain rfl : w = v := by simpa [hwL] using hw
      exact hset₁.rewrite hw₂ hwL

end Settle

/-! ### Handling a node -/

variable (g) in
/-- What the construction keeps once it has handled the nodes numbered `k` and after, over the
    tree `t` of the search from `r`: besides what the walks read, a bucket holds handled nodes
    that have the bucket's node as semidominator, each below a child of that node not handled
    yet; a handled node in no bucket has its immediate dominator settled; and nothing is written
    for a node not handled or still in a bucket. -/
structure Handled (r : Nat) (t : SpanningTree) (k : Nat) (st : LengauerTarjan) : Prop
    extends Linked g t k st where
  bucket : ∀ p x, x ∈ st.bucketOf p → st.semiOf x = some p ∧ t.contains x = true ∧
    k ≤ t.num x ∧ ∃ c, t.parent? c = some p ∧ t.Below c x ∧ t.num c < k
  settled : ∀ x, t.contains x = true → k ≤ t.num x → (∀ p, x ∉ st.bucketOf p) →
    Settled g r t st x
  fresh : ∀ x, (t.contains x = true → k ≤ t.num x → ∃ p, x ∈ st.bucketOf p) →
    st.idomOf x = none ∧ st.samedomOf x = none

/-- Before any node is handled, nothing is linked, recorded or written. -/
theorem handled_new (hs : Shaped g r t) (hlt : ∀ w i, t.dfnum? w = some i → i < g.bound) :
    Handled g r t t.order.size (new t g.bound) := by
  have hbig : ∀ x, t.contains x = true → ¬t.order.size ≤ t.num x := fun x hx h =>
    absurd (num_lt_size hs.ordered.numbered hx) (not_lt.2 h)
  have hbucket : ∀ p, (new t g.bound).bucketOf p = [] := fun p => by
    simp only [new, bucketOf, Array.getElem?_replicate]
    split <;> rfl
  refine ⟨⟨rfl, ⟨by simp [new], by simp [new], by simp [new], by simp [new], by simp [new]⟩,
    forest_new hs.parentsFirst hlt, fun x => ?_, fun x hx hk => absurd hk (hbig x hx)⟩,
    fun p x hx => by simp [hbucket] at hx, fun x hx hk => absurd hk (hbig x hx),
    fun x _ => ?_⟩
  · have hnone : (new t g.bound).ancestorOf x = none := by
      simp only [new, ancestorOf, Array.getElem?_replicate]
      split <;> rfl
    simp only [hnone, Option.isSome_none, Bool.false_eq_true, false_iff, not_and]
    exact hbig x
  · constructor
    · simp only [new, idomOf, Array.getElem?_replicate]
      split <;> rfl
    · simp only [new, samedomOf, Array.getElem?_replicate]
      split <;> rfl

/-- Handling the node `n` numbered `k` keeps the invariant: its semidominator is found and
    recorded, it is linked to its parent `p`, and the bucket of `p` is settled and emptied. The
    nodes left in the other buckets lie below children of their semidominators numbered before
    `n`, and so does `n` when its semidominator is not `p`. -/
theorem Handled.visit (hs : Shaped g r t) (hpreds : ∀ v w, v ∈ g.preds w ↔ w ∈ g.succs v)
    (hst : Handled g r t (k + 1) st) (hk : 0 < k) (hn : t.contains n = true)
    (hnk : t.num n = k) : Handled g r t k (st.visit g n) := by
  have hnr : n ≠ r := fun h => by rw [h, hs.num_root] at hnk; omega
  obtain ⟨p, hp⟩ := hs.exists_parent? hn hnr
  obtain ⟨hpc, hpn⟩ := num_lt_of_parent? hs.parentsFirst hp
  have hL := hst.toLinked
  have hsizes := hL.sized
  -- the node numbered `k` is the only reached node of that number
  have hnum : ∀ x, t.contains x = true → t.num x = k → x = n := fun x hx h =>
    hs.eq_of_num_eq hx hn (h.trans hnk.symm)
  obtain ⟨hw₁, hsd⟩ := semiSteps_sdom hs hL hnk (hpreds · n) hp
  rcases hacc : (g.preds n).foldl (semiStep n) (p, st) with ⟨s, st₁⟩
  rw [hacc] at hw₁ hsd
  dsimp only at hw₁ hsd
  have hL₁ := hL.rewrite hw₁
  have hnb := hs.lt_bound hn
  have hsb := hs.lt_bound hsd.contains
  have hn₁ : st₁.ancestorOf n = none := by
    have := (hL₁.linked n).not.2 (by omega)
    simpa using this
  -- the semidominator recorded and `n` linked
  set st₂ := (st₁.assignSemi n s).link p n with hst₂
  have hsemi₂ : ∀ x, st₂.semiOf x = if x = n then some s else st.semiOf x := fun x => by
    by_cases hxn : x = n
    · rw [hxn, if_pos rfl, semiOf_link,
        semiOf_assignSemi_self (by rw [hL₁.sized.semi]; exact hnb)]
    · rw [if_neg hxn, semiOf_link, semiOf_assignSemi_of_ne hxn, hw₁.semiOf]
  have hlinked₂ : ∀ x, (st₂.ancestorOf x).isSome = true ↔ t.contains x = true ∧ k ≤ t.num x :=
    fun x => by
      by_cases hxn : x = n
      · rw [hxn, ancestorOf_link_self, if_pos (by simp [assignSemi, hL₁.sized.ancestor, hnb])]
        simp [hn, hnk]
      · rw [ancestorOf_link_of_ne hxn]
        change (st₁.ancestorOf x).isSome = true ↔ _
        rw [hL₁.linked x]
        exact ⟨fun h => ⟨h.1, by omega⟩, fun h => ⟨h.1, lt_of_le_of_ne h.2
          fun he => hxn (hnum x h.1 he.symm)⟩⟩
  have hL₂ : Linked g t k st₂ :=
    { tree := hL₁.tree
      sized := ⟨by simp [st₂, LengauerTarjan.link, assignSemi, hL₁.sized.semi],
        by simp [st₂, LengauerTarjan.link, assignSemi, hL₁.sized.ancestor],
        by simp [st₂, LengauerTarjan.link, assignSemi, hL₁.sized.samedom],
        by simp [st₂, LengauerTarjan.link, assignSemi, hL₁.sized.idom],
        by simp [st₂, LengauerTarjan.link, assignSemi, hL₁.sized.bucket]⟩
      forest := (hL₁.forest.assignSemi hn₁).link (by rw [tree_assignSemi, hL₁.tree]; exact hp)
      linked := hlinked₂
      semi := fun x hx hkx => by
        rw [hsemi₂]
        by_cases hxn : x = n
        · rw [if_pos hxn, hxn]
          exact ⟨s, rfl, hsd⟩
        · rw [if_neg hxn]
          exact hL.semi x hx (lt_of_le_of_ne hkx fun he => hxn (hnum x hx he.symm)) }
  -- the bucket of `p` emptied, and its nodes settled
  set st₃ : LengauerTarjan := { st₂ with bucket := st₂.bucket.modify p fun _ => [] } with hst₃
  have hL₃ : Linked g t k st₃ :=
    { hL₂ with
      sized := { hL₂.sized with bucket := by simp [st₃, hL₂.sized.bucket] }
      forest := hL₂.forest.record _ _ _ }
  have hbucket₂ : ∀ q, st₂.bucketOf q = if q = s then st.bucketOf q ++ [n] else st.bucketOf q :=
    fun q => by
      rw [bucketOf_link, bucketOf_assignSemi (by rw [hL₁.sized.bucket]; exact hsb),
        hw₁.bucketOf]
  set pending := st₂.bucketOf p with hpending
  have hmem_pending : ∀ x, x ∈ pending ↔ x ∈ st.bucketOf p ∨ (p = s ∧ x = n) := fun x => by
    rw [hpending, hbucket₂]
    split_ifs with hps <;> simp [hps]
  -- a node in a bucket before is handled, so it is not `n`
  have hbucket_ne : ∀ q x, x ∈ st.bucketOf q → x ≠ n := fun q x hx hxn => by
    have := (hst.bucket q x hx).2.2.1
    rw [hxn] at this
    omega
  have hpend : ∀ v ∈ pending, st₃.semiOf v = some p ∧ t.contains v = true ∧ k ≤ t.num v ∧
      ∃ c, t.parent? c = some p ∧ t.Below c v ∧ t.num c ≤ k := fun v hv => by
    change st₂.semiOf v = some p ∧ _
    rw [hsemi₂]
    rcases (hmem_pending v).1 hv with hv | ⟨rfl, rfl⟩
    · obtain ⟨hsv, hvc, hkv, c, hc, hcv, hck⟩ := hst.bucket p v hv
      rw [if_neg (hbucket_ne p v hv)]
      exact ⟨hsv, hvc, by omega, c, hc, hcv, by omega⟩
    · exact ⟨if_pos rfl, hn, hnk.ge, v, hp, .refl, hnk.le⟩
  have hfresh : ∀ v ∈ pending, st₃.samedomOf v = none ∨ Settled g r t st₃ v := fun v hv => by
    refine .inl ?_
    change st₁.samedomOf v = none
    rw [(hw₁.frame v List.not_mem_nil).2]
    refine (hst.fresh v fun hvc hkv => ?_).2
    rcases (hmem_pending v).1 hv with hv | ⟨-, rfl⟩
    · exact ⟨p, hv⟩
    · omega
  obtain ⟨hw₅, hset₅⟩ := settles_spec hs hk hp hnk pending st₃ hL₃ hpend hfresh
  have hp' : st.tree.parent? n = some p := by rw [hL.tree]; exact hp
  simp only [LengauerTarjan.visit, hp', hacc]
  change Handled g r t k (pending.foldl (settle p) st₃)
  set st₅ := pending.foldl (settle p) st₃
  -- the buckets after: emptied at `p`, and `n` added at `s`
  have hbucket₅ : ∀ q x, x ∈ st₅.bucketOf q ↔ q ≠ p ∧ (x ∈ st.bucketOf q ∨ (q = s ∧ x = n)) :=
    fun q x => by
      rw [hw₅.bucketOf, bucketOf_clear rfl, hbucket₂]
      by_cases hqp : q = p
      · simp [hqp]
      · by_cases hqs : q = s <;> simp [hqp, hqs]
  have hframe : ∀ x, x ∉ pending → st₅.idomOf x = st.idomOf x ∧ st₅.samedomOf x = st.samedomOf x :=
    fun x hx => by
      rw [(hw₅.frame x hx).1, (hw₅.frame x hx).2]
      exact hw₁.frame x List.not_mem_nil
  refine ⟨hL₃.rewrite hw₅, fun q x hx => ?_, fun x hx hkx hnot => ?_, fun x hx => ?_⟩
  · -- the buckets keep nodes below children of their semidominators not handled yet
    rw [hw₅.semiOf]
    change st₂.semiOf x = some q ∧ _
    rw [hsemi₂]
    obtain ⟨hqp, hx | ⟨rfl, rfl⟩⟩ := (hbucket₅ q x).1 hx
    · obtain ⟨hsx, hxc, hkx, c, hc, hcx, hck⟩ := hst.bucket q x hx
      refine ⟨by rw [if_neg (hbucket_ne q x hx)]; exact hsx, hxc, by omega, c, hc, hcx, ?_⟩
      -- `c` is not `n`, whose parent is `p`
      refine lt_of_le_of_ne (by omega) fun hck' => hqp ?_
      rw [hnum c (contains_of_parent? hs.parentsFirst hc) hck'] at hc
      exact Option.some.inj (hc.symm.trans hp)
    · refine ⟨if_pos rfl, hn, hnk.ge, ?_⟩
      obtain ⟨c, hc, hcn⟩ := (hs.sdom_below hn hnr hsd).1.exists_child
        fun h => by have := (hs.sdom_below hn hnr hsd).2; rw [h] at this; omega
      refine ⟨c, hc, hcn, ?_⟩
      have hcn' : c ≠ x := fun h => hqp (Option.some.inj (hc.symm.trans (h ▸ hp)))
      rw [← hnk]
      exact hcn.num_lt hs.parentsFirst hn hcn'
  · -- a handled node in no bucket was settled now or before
    by_cases hxp : x ∈ pending
    · exact hset₅ x hxp
    · have hxn : x ≠ n := fun h => by
        subst h
        by_cases hps : p = s
        · exact hxp ((hmem_pending x).2 (.inr ⟨hps, rfl⟩))
        · exact hnot s ((hbucket₅ s x).2 ⟨Ne.symm hps, .inr ⟨rfl, rfl⟩⟩)
      have hnot' : ∀ q, x ∉ st.bucketOf q := fun q hq => by
        by_cases hqp : q = p
        · subst hqp
          exact hxp ((hmem_pending x).2 (.inl hq))
        · exact hnot q ((hbucket₅ q x).2 ⟨hqp, .inl hq⟩)
      exact (hst.settled x hx (lt_of_le_of_ne hkx fun he => hxn (hnum x hx he.symm)) hnot').congr
        (hframe x hxp).2 (hframe x hxp).1
  · -- a node not handled or still in a bucket has nothing written
    have hxp : x ∉ pending := fun hxp => by
      obtain ⟨hsx, hxc, hkx, -⟩ := hpend x hxp
      obtain ⟨q, hq₅⟩ := hx hxc hkx
      obtain ⟨hqp, hq | ⟨rfl, rfl⟩⟩ := (hbucket₅ q x).1 hq₅
      · rcases (hmem_pending x).1 hxp with hxp | ⟨-, rfl⟩
        · exact hqp (Option.some.inj ((hst.bucket q x hq).1.symm.trans (hst.bucket p x hxp).1))
        · exact hbucket_ne q x hq rfl
      · rcases (hmem_pending x).1 hxp with hxp | ⟨hps, -⟩
        · exact hbucket_ne p x hxp rfl
        · exact hqp hps.symm
    rw [(hframe x hxp).1, (hframe x hxp).2]
    refine hst.fresh x fun hxc hkx => ?_
    obtain ⟨q, hq⟩ := hx hxc (by omega)
    obtain ⟨-, hq | ⟨-, rfl⟩⟩ := (hbucket₅ q x).1 hq
    · exact ⟨q, hq⟩
    · omega

/-- Handling the nodes of the search order from place `k` on, last first, keeps the invariant
    from the start: each step handles the node numbered one less. -/
theorem handled_visits (hs : Shaped g r t) (hpreds : ∀ v w, v ∈ g.preds w ↔ w ∈ g.succs v)
    (hlt : ∀ w i, t.dfnum? w = some i → i < g.bound)
    (horder : ∀ i (hi : i < t.order.size), t.contains t.order[i] = true ∧ t.num t.order[i] = i)
    (m : Nat) : ∀ k, k + m = t.order.size → 0 < k →
      Handled g r t k ((t.order.toList.drop k).reverse.foldl (visit g) (new t g.bound)) := by
  induction m with
  | zero =>
    intro k hk _
    rw [Nat.add_zero] at hk
    subst hk
    rw [List.drop_eq_nil_of_le (by simp)]
    exact handled_new hs hlt
  | succ m ih =>
    intro k hk hk0
    have hkl : k < t.order.toList.length := by simp; omega
    rw [List.drop_eq_getElem_cons hkl, List.reverse_cons, List.foldl_append, List.foldl_cons,
      List.foldl_nil, Array.getElem_toList]
    obtain ⟨hc, hnum⟩ := horder k (by simpa using hkl)
    exact (ih (k + 1) (by omega) (by omega)).visit hs hpreds hk0 hc hnum

/-- Once every node but the root is handled, no bucket holds anything: a node in a bucket would
    lie below a child numbered before `1`, that is below a child that is the root. -/
theorem Handled.bucketOf_eq_nil (hs : Shaped g r t) (h : Handled g r t 1 st) (p : Nat) :
    st.bucketOf p = [] := by
  refine List.eq_nil_iff_forall_not_mem.2 fun x hx => ?_
  obtain ⟨-, -, -, c, hc, -, hc1⟩ := h.bucket p x hx
  have hcr : c = r := hs.eq_of_num_eq (contains_of_parent? hs.parentsFirst hc) hs.contains_root
    (by rw [hs.num_root]; omega)
  rw [hcr, hs.parent_root] at hc
  cases hc

/-! ### Resolving the deferred dominators -/

variable (g) in
/-- What the forward pass keeps once it has resolved the nodes numbered below `j`: those, but
    the root, have their immediate dominators written; the others, but the root, are settled as
    before; nothing is written for the root and the nodes not reached. -/
structure Resolved (r : Nat) (t : SpanningTree) (j : Nat) (st : LengauerTarjan) : Prop where
  size : st.idom.size = g.bound
  done : ∀ x, t.contains x = true → 0 < t.num x → t.num x < j →
    ∃ d, st.idomOf x = some d ∧ g.ImmediatelyDominates r d x
  settled : ∀ x, t.contains x = true → 0 < t.num x → j ≤ t.num x → Settled g r t st x
  unreached : ∀ x, (t.contains x = true → t.num x = 0) → st.idomOf x = none

/-- After the backward pass every node but the root is settled. -/
theorem Handled.resolved (hs : Shaped g r t) (h : Handled g r t 1 st) : Resolved g r t 1 st where
  size := h.sized.idom
  done _ _ hpos hlt := absurd hlt (by omega)
  settled x hx hpos _ := h.settled x hx hpos fun p hp => by simp [h.bucketOf_eq_nil hs p] at hp
  unreached x hx := (h.fresh x fun hxc h1 => absurd (hx hxc) (by omega)).1

/-- Resolving the node numbered `j` writes its immediate dominator: it was written already, or
    deferred to a node numbered before, whose immediate dominator is written and is that of the
    node. -/
theorem Resolved.resolve (hs : Shaped g r t) (h : Resolved g r t j st) (hx : t.contains x = true)
    (hj : 0 < j) (hxj : t.num x = j) : Resolved g r t (j + 1) (st.resolve x) := by
  have hxb := hs.lt_bound hx
  cases h.settled x hx (by omega) hxj.ge with
  | written hs₀ hi₀ hd =>
    rw [LengauerTarjan.resolve, hs₀]
    refine ⟨h.size, fun y hy hpos hlt => ?_, fun y hy hpos hle => h.settled y hy hpos (by omega),
      h.unreached⟩
    by_cases hyx : y = x
    · exact ⟨_, hyx ▸ hi₀, hyx ▸ hd⟩
    · exact h.done y hy hpos (lt_of_le_of_ne (Nat.le_of_lt_succ hlt)
        fun he => hyx (hs.eq_of_num_eq hy hx (he.trans hxj.symm)))
  | @deferred y hs₀ hyc hpos hlt himp =>
    rw [LengauerTarjan.resolve, hs₀]
    obtain ⟨d, hdy, hd⟩ := h.done y hyc hpos (by omega)
    refine ⟨by simp [h.size], fun z hz hzpos hzlt => ?_, fun z hz hzpos hle => ?_,
      fun z hz => ?_⟩
    · by_cases hzx : z = x
      · subst hzx
        exact ⟨d, by rw [idomOf_write_self (by rw [h.size]; exact hxb), hdy], himp d hd⟩
      · rw [idomOf_write_of_ne hzx]
        exact h.done z hz hzpos (lt_of_le_of_ne (Nat.le_of_lt_succ hzlt)
          fun he => hzx (hs.eq_of_num_eq hz hx (he.trans hxj.symm)))
    · have hzx : z ≠ x := fun he => by rw [he] at hle; omega
      exact (h.settled z hz hzpos (by omega)).congr rfl (idomOf_write_of_ne hzx)
    · have hzx : z ≠ x := fun he => by rw [he] at hz; have := hz hx; omega
      rw [idomOf_write_of_ne hzx]
      exact h.unreached z hz

/-- Resolving the nodes of the search order from place `j` on, in order. -/
theorem resolved_resolves (hs : Shaped g r t)
    (horder : ∀ i (hi : i < t.order.size), t.contains t.order[i] = true ∧ t.num t.order[i] = i)
    (m : Nat) : ∀ j st, j + m = t.order.size → 0 < j → Resolved g r t j st →
      Resolved g r t t.order.size ((t.order.toList.drop j).foldl resolve st) := by
  induction m with
  | zero =>
    intro j st hj _ h
    rw [Nat.add_zero] at hj
    subst hj
    rw [List.drop_eq_nil_of_le (by simp)]
    exact h
  | succ m ih =>
    intro j st hj hj0 h
    have hjl : j < t.order.toList.length := by simp; omega
    rw [List.drop_eq_getElem_cons hjl, List.foldl_cons, Array.getElem_toList]
    obtain ⟨hc, hnum⟩ := horder j (by simpa using hjl)
    exact ih (j + 1) _ (by omega) (by omega) (h.resolve hs hc hj0 hnum)

/-- The search from the root of a closed graph lists each node it reaches at its dfnum. -/
theorem fromRoot_getElem_order (hg : g.Closed) (hrb : r < g.bound) (i : Nat)
    (hi : i < (fromRoot g r).order.size) :
    (fromRoot g r).contains (fromRoot g r).order[i] = true ∧
      (fromRoot g r).num (fromRoot g r).order[i] = i := by
  obtain ⟨hsound, -⟩ := fromRoot_sound hg hrb
  have hnum := (fromRoot_walk hg hrb).numbered ((numbered_start r g.bound).visit r none)
  have hx : (fromRoot g r).contains (fromRoot g r).order[i] = true :=
    (hsound.contains_iff _).2 (Array.getElem_mem_toList hi)
  obtain ⟨k, hk⟩ := Option.isSome_iff_exists.1 hx
  have hkx := hnum _ k hk
  rw [← Array.getElem?_toList, List.getElem?_eq_some_iff] at hkx
  obtain ⟨hklt, hkx⟩ := hkx
  rw [← Array.getElem_toList hi] at hkx
  refine ⟨hx, ?_⟩
  rw [num_of_dfnum? hk]
  exact (hsound.nodup.getElem_inj_iff).1 hkx

/-- The whole construction over the search from the root of a closed graph, whose predecessor
    lists are its successor lists read backwards, resolves every node: it handles all of them
    but the root, last numbered first, then resolves them in order. -/
theorem resolved_compute (hg : g.Closed) (hpreds : ∀ v w, v ∈ g.preds w ↔ w ∈ g.succs v)
    (hrb : r < g.bound) :
    Resolved g r (fromRoot g r) (fromRoot g r).order.size
      ((new (fromRoot g r) g.bound).compute g) := by
  have hs := fromRoot_shaped hg hrb
  have horder := fromRoot_getElem_order hg hrb
  have hsize : 0 < (fromRoot g r).order.size := by
    have := num_lt_size hs.ordered.numbered hs.contains_root
    omega
  have hloop := handled_visits hs hpreds (fromRoot_ordered hg r).2 horder
    ((fromRoot g r).order.size - 1) 1 (by omega) one_pos
  exact resolved_resolves hs horder ((fromRoot g r).order.size - 1) 1 _ (by omega) one_pos
    (hloop.resolved hs)

/-- The search tree of a graph with root `r` is the search from `r`. -/
theorem eq_fromRoot_of_ofGraph (hr : g.root = some r) (ht : SpanningTree.ofGraph g = .ok t) :
    t = fromRoot g r := by
  simp only [SpanningTree.ofGraph, hr, Except.ok.injEq] at ht
  exact ht.symm

section Exact

variable [DecidableEq K] (hg : g.Built) (hr : g.root = some r)
  (ht : SpanningTree.ofGraph g = .ok t)
include hg hr ht

/-- The construction over the search tree of a graph built by the edits, with root `r`, keeps
    a slot per slot of the graph, and writes an immediate dominator for every node that `r`
    reaches but `r`. -/
theorem idomOf_compute_of_reaches :
    ((new t g.bound).compute g).idom.size = g.bound ∧
      ∀ u, g.Reaches r u → u ≠ r → ∃ d, ((new t g.bound).compute g).idomOf u = some d := by
  have hrb := hg.closed.root_lt r hr
  obtain rfl := eq_fromRoot_of_ofGraph hr ht
  have hs := fromRoot_shaped hg.closed hrb
  have hres := resolved_compute hg.closed (fun _ _ => hg.exact.mem_preds_iff_mem_succs) hrb
  refine ⟨hres.size, fun u hu hur => ?_⟩
  have huc := hs.contains_of_reaches hu
  obtain ⟨d, hd, -⟩ :=
    hres.done u huc (hs.num_pos huc hur) (num_lt_size hs.ordered.numbered huc)
  exact ⟨d, hd⟩

/-- The construction over the search tree of a graph built by the edits, with root `r`, writes
    for `u` the node `d` exactly when `d` immediately dominates `u`; so it writes nothing for
    `r` and for the nodes `r` does not reach. -/
theorem idomOf_compute (d u : Nat) :
    ((new t g.bound).compute g).idomOf u = some d ↔ g.ImmediatelyDominates r d u := by
  have hrb := hg.closed.root_lt r hr
  obtain rfl := eq_fromRoot_of_ofGraph hr ht
  have hs := fromRoot_shaped hg.closed hrb
  have hres := resolved_compute hg.closed (fun _ _ => hg.exact.mem_preds_iff_mem_succs) hrb
  constructor
  · intro hd
    by_cases hu : (fromRoot g r).contains u = true ∧ 0 < (fromRoot g r).num u
    · obtain ⟨d', hd', hid⟩ := hres.done u hu.1 hu.2 (num_lt_size hs.ordered.numbered hu.1)
      rw [hd'] at hd
      cases hd
      exact hid
    · rw [hres.unreached u fun hx => by by_contra h; exact hu ⟨hx, by omega⟩] at hd
      cases hd
  · intro hid
    have hu := hs.contains_of_reaches hid.1.reaches
    have hur : u ≠ r := fun h => by
      subst h
      exact hid.1.1 (Digraph.dominates_root_iff.1 hid.1.2)
    obtain ⟨d', hd', hid'⟩ :=
      hres.done u hu (hs.num_pos hu hur) (num_lt_size hs.ordered.numbered hu)
    rw [hd', hs.immediatelyDominates_unique hid' hid]

end Exact

end LengauerTarjan

end Decompilation
