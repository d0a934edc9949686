import Mathlib.Tactic.ByContra
import Decompilation.Graph.Basic

/-!
# Paths and dominance

A path of a graph lists the nodes it passes, from its source to its target, each one reached
along an edge from the one before: an entry of the successor list of a live node. A node `v`
*dominates* a node `u`, for a root `r`, when `u` is `v`, or `u` can be reached from `r` and
every path from `r` to `u` passes through `v`. This is the notion the dominator tree is
computed for, stated here over paths only.

* `Digraph.Path`, `Digraph.Reaches`: paths, and the nodes they reach;
* `Digraph.Dominates`, `StrictlyDominates`, `ImmediatelyDominates`: dominance, and the
  immediate dominator as the strict dominator that every other strict dominator dominates;
* `Dominates.trans`: dominance is transitive;
* `StrictlyDominates.total`: the strict dominators of a node are ordered by dominance.
-/

namespace Decompilation

namespace Digraph

variable {K : Type} (g : Digraph K)

/-- `g.Path a b p`: the list `p` is a path of `g` from `a` to `b`, both ends included, each
    node after the first reached along an edge from the one before it. -/
inductive Path : Nat → Nat → List Nat → Prop
  | single (a : Nat) : Path a a [a]
  | cons {a b c : Nat} {p : List Nat} : b ∈ g.succs a → Path b c p → Path a c (a :: p)

/-- Some path of `g` leads from `a` to `b`. -/
def Reaches (a b : Nat) : Prop := ∃ p, g.Path a b p

/-- With root `r`, `v` dominates `u`: `u` is `v`, or `u` is reachable from `r` and every path
    from `r` to `u` passes through `v`. -/
def Dominates (r v u : Nat) : Prop :=
  u = v ∨ (g.Reaches r u ∧ ∀ p, g.Path r u p → v ∈ p)

/-- With root `r`, `v` dominates `u` and is not `u`. -/
def StrictlyDominates (r v u : Nat) : Prop := v ≠ u ∧ g.Dominates r v u

/-- With root `r`, `d` is the immediate dominator of `u`: a strict dominator of `u` that every
    other strict dominator of `u` dominates. -/
def ImmediatelyDominates (r d u : Nat) : Prop :=
  g.StrictlyDominates r d u ∧ ∀ w, g.StrictlyDominates r w u → w ≠ d → g.Dominates r w d

variable {g}

namespace Path

variable {a b c x : Nat} {p q : List Nat}

/-- A path passes through its source. -/
theorem source_mem (h : g.Path a b p) : a ∈ p := by
  cases h <;> simp

/-- A path passes through its target. -/
theorem target_mem (h : g.Path a b p) : b ∈ p := by
  induction h with
  | single => simp
  | cons _ _ ih => exact List.mem_cons_of_mem _ ih

/-- Two paths meeting at `b` make one. -/
theorem append (h₁ : g.Path a b p) (h₂ : g.Path b c q) : g.Path a c (p ++ q.tail) := by
  induction h₁ with
  | single =>
    cases h₂ with
    | single => exact .single _
    | cons hbc hq => exact .cons hbc hq
  | cons hab _ ih => exact .cons hab (ih h₂)

/-- A path extended by one edge at its end. -/
theorem snoc (h : g.Path a b p) (hc : c ∈ g.succs b) : g.Path a c (p ++ [c]) :=
  h.append (.cons hc (.single c))

/-- The part of a path up to one of its nodes `x` is a path to `x`; it passes only through
    nodes of the whole path. -/
theorem exists_upto (h : g.Path a b p) (hx : x ∈ p) :
    ∃ q, g.Path a x q ∧ ∀ y ∈ q, y ∈ p := by
  induction h with
  | single a =>
    obtain rfl : x = a := by simpa using hx
    exact ⟨[x], .single x, fun y hy => hy⟩
  | @cons a b c p hab _ ih =>
    rcases List.mem_cons.1 hx with rfl | hx
    · exact ⟨[x], .single x, fun y hy => by simp_all⟩
    · obtain ⟨q, hq, hsub⟩ := ih hx
      exact ⟨a :: q, .cons hab hq, by grind⟩

/-- The part of a path from the last node it passes that satisfies `S`: a path from a node
    satisfying `S` on which no later node does, through nodes of the whole path. -/
theorem exists_last_suffix (S : Nat → Prop) (h : g.Path a b p) (hS : ∃ z ∈ p, S z) :
    ∃ y q, S y ∧ g.Path y b q ∧ (∀ z ∈ q.tail, ¬S z) ∧ ∀ z ∈ q, z ∈ p := by
  induction h with
  | single a =>
    obtain ⟨z, hz, hSz⟩ := hS
    obtain rfl : z = a := by simpa using hz
    exact ⟨z, [z], hSz, .single z, by simp, fun _ h => h⟩
  | @cons a b c p hab hp ih =>
    by_cases hlater : ∃ z ∈ p, S z
    · obtain ⟨y, q, hy, hq, hlast, hsub⟩ := ih hlater
      exact ⟨y, q, hy, hq, hlast, fun z hz => .tail _ (hsub z hz)⟩
    · -- no node after `a` satisfies `S`, so `a` does and the whole path is the suffix
      obtain ⟨z, hz, hSz⟩ := hS
      obtain rfl : z = a := by grind
      exact ⟨z, z :: p, hSz, .cons hab hp, by simpa using hlater, fun _ h => h⟩

end Path

section Dominance

variable {r v u w : Nat}

theorem Path.reaches {a b : Nat} {p : List Nat} (h : g.Path a b p) : g.Reaches a b := ⟨p, h⟩

/-- A node on a path from `r` is reachable from `r`. -/
theorem Path.reaches_of_mem {b x : Nat} {p : List Nat} (h : g.Path r b p) (hx : x ∈ p) :
    g.Reaches r x := by
  obtain ⟨q, hq, -⟩ := h.exists_upto hx
  exact hq.reaches

/-- Every node dominates itself. -/
theorem Dominates.refl (r u : Nat) : g.Dominates r u u := .inl rfl

/-- The root is dominated by itself only: the one-node path to it passes nothing else. -/
theorem dominates_root_iff {r v : Nat} : g.Dominates r v r ↔ v = r := by
  constructor
  · rintro (rfl | ⟨-, hall⟩)
    · rfl
    · simpa using hall [r] (.single r)
  · rintro rfl
    exact .refl _ _

/-- The root strictly dominates every other node reachable from it. -/
theorem StrictlyDominates.root (hu : g.Reaches r u) (hne : u ≠ r) :
    g.StrictlyDominates r r u :=
  ⟨Ne.symm hne, .inr ⟨hu, fun _ hp => hp.source_mem⟩⟩

/-- A strict dominator of `u` lies on every path from the root to `u`. -/
theorem StrictlyDominates.mem (h : g.StrictlyDominates r v u) {p : List Nat}
    (hp : g.Path r u p) : v ∈ p := by
  rcases h with ⟨hne, rfl | ⟨_, hall⟩⟩
  · exact absurd rfl hne
  · exact hall p hp

/-- Only a reachable node has strict dominators. -/
theorem StrictlyDominates.reaches (h : g.StrictlyDominates r v u) : g.Reaches r u := by
  rcases h with ⟨hne, rfl | ⟨hu, _⟩⟩
  · exact absurd rfl hne
  · exact hu

/-- A strict dominator of a reachable node is reachable. -/
theorem StrictlyDominates.reaches_left (h : g.StrictlyDominates r v u) : g.Reaches r v := by
  obtain ⟨p, hp⟩ := h.reaches
  exact hp.reaches_of_mem (h.mem hp)

/-- For a node `u` reachable from the root and `v ≠ u`, `v` dominates `u` exactly when no
    path from the root to `u` avoids `v`. -/
theorem dominates_iff_not_avoids (hvu : v ≠ u) (hu : g.Reaches r u) :
    g.Dominates r v u ↔ ¬∃ p, g.Path r u p ∧ v ∉ p := by
  constructor
  · rintro (rfl | ⟨_, hall⟩) ⟨p, hp, hv⟩
    · exact hvu rfl
    · exact hv (hall p hp)
  · intro h
    exact .inr ⟨hu, fun p hp => Classical.byContradiction fun hv => h ⟨p, hp, hv⟩⟩

/-- A strict dominator `v` of `u` dominates every node `w` reachable from the root from which
    some path to `u` meets `v` at most at its start: a path to `w` that missed `v` would go on
    to `u`. -/
theorem StrictlyDominates.dominates_of_path (h : g.StrictlyDominates r v u) (hw : g.Reaches r w)
    {q : List Nat} (hq : g.Path w u q) (hv : ∀ c ∈ q.tail, c ≠ v) : g.Dominates r v w := by
  refine .inr ⟨hw, fun p hp => ?_⟩
  rcases List.mem_append.1 (h.mem (hp.append hq)) with h | h
  · exact h
  · exact absurd rfl (hv v h)

/-- Dominance is transitive. -/
theorem Dominates.trans (hvw : g.Dominates r v w) (hwu : g.Dominates r w u) :
    g.Dominates r v u := by
  rcases hwu with rfl | ⟨hu, hallw⟩
  · exact hvw
  rcases hvw with rfl | ⟨_, hallv⟩
  · exact .inr ⟨hu, hallw⟩
  · -- the part of a path to `u` up to `w` is a path to `w`, so it passes through `v`
    refine .inr ⟨hu, fun p hp => ?_⟩
    obtain ⟨q, hq, hsub⟩ := hp.exists_upto (hallw p hp)
    exact hsub v (hallv q hq)

/-- The strict dominators of a node are ordered by dominance: of two of them, one dominates
    the other. A path to `u` passes both; from the last of the two it passes, it avoids the
    other, and a path to the last one that avoids the other would make a path to `u` avoiding
    it. -/
theorem StrictlyDominates.total (hv : g.StrictlyDominates r v u)
    (hw : g.StrictlyDominates r w u) : g.Dominates r v w ∨ g.Dominates r w v := by
  by_contra hboth
  push Not at hboth
  obtain ⟨hvw, hwv⟩ := hboth
  obtain ⟨P, hP⟩ := hv.reaches
  have hvne : w ≠ v := fun h => hvw (h ▸ .refl r w)
  -- a path to `w` avoiding `v`, and a path to `v` avoiding `w`
  obtain ⟨pw, hpw, hvpw⟩ : ∃ p, g.Path r w p ∧ v ∉ p := by
    by_contra h
    exact hvw ((dominates_iff_not_avoids (Ne.symm hvne) (hw.reaches_left)).2 h)
  obtain ⟨pv, hpv, hwpv⟩ : ∃ p, g.Path r v p ∧ w ∉ p := by
    by_contra h
    exact hwv ((dominates_iff_not_avoids hvne (hv.reaches_left)).2 h)
  obtain ⟨y, q, hy, hq, hlast, -⟩ :=
    hP.exists_last_suffix (fun z => z = v ∨ z = w) ⟨v, hv.mem hP, .inl rfl⟩
  rcases hy with rfl | rfl
  · -- from `v` on, the path to `u` avoids `w`, and so does the path to `v` put before it
    rcases List.mem_append.1 (hw.mem (hpv.append hq)) with h | h
    · exact hwpv h
    · exact hlast w h (.inr rfl)
  · rcases List.mem_append.1 (hv.mem (hpw.append hq)) with h | h
    · exact hvpw h
    · exact hlast v h (.inl rfl)

end Dominance

end Digraph

end Decompilation
