import Mathlib
import Decompilation.Proofs.Simplify.Keeps
import Decompilation.Proofs.Ir.Traversal

/-!
# Effects a tree always evaluates

Evaluating an expression tree evaluates every node of it but the arms of its conditionals: a
conditional evaluates its condition and then one of its two arms. The calls and inline assembly
a tree evaluates whatever its values are are its *exposed* nodes (`ExprShape.Exposed`).

A rule's replacement keeps the effects of the tree it replaces (`Procedure.Covers`); over a tree
whose nodes list as many operands as their kinds fix (`ExprShape.Laid`), this means that every
exposed node lies in the tree of one of the parts, and the trees of the parts are disjoint
subtrees below the replaced root (`Procedure.Covers.shapes`).

* `ExprShape.Exposed.sub`: a node exposed in a tree is exposed in each subtree holding it;
* `Ctx.exposed_fill`: a context filled with a new subtree exposes what it exposed around the old
  one, when the new one exposes what the old one did;
* `Procedure.Covers.shapes`: the parts of a replacement, as subtrees of the replaced tree.
-/

namespace Decompilation

namespace ExprKind

/-- The number of operands an expression of kind `k` lists, where the kind fixes it: none for
    a register, a literal or inline assembly, one for a unary operation, two for a binary
    operation or an assignment, three for a conditional. A phi and a call take any number. -/
def arity? : ExprKind → Option Nat
  | .reg .. | .val .. | .asm _ => some 0
  | .unary _ => some 1
  | .binary _ | .assign => some 2
  | .tcond => some 3
  | .phi | .call => none

/-- Whether the operand in place `i` of an expression of kind `k` is an arm of a conditional,
    evaluated only when the condition selects it. -/
def arm (k : ExprKind) (i : Nat) : Bool := k == .tcond && (i == 1 || i == 2)

end ExprKind

theorem ExprNode.arity?_of_isVal {x : ExprNode} (h : x.isVal = true) : x.kind.arity? = some 0 := by
  unfold isVal at h
  split at h <;> simp_all [ExprKind.arity?]

theorem ExprNode.hasEffect_of_isVal {x : ExprNode} (h : x.isVal = true) : x.hasEffect = false := by
  unfold isVal at h
  unfold hasEffect
  split at h <;> simp_all

namespace Procedure

variable {p : Procedure}

/-- Below a node without operands lies only the node itself. -/
theorem Below.eq_of_operands_eq_nil {c x : ExprId} (h : p.Below c x)
    (hc : (p.node c).operands = []) : x = c := by
  induction h with
  | refl => rfl
  | operand _ ho ih =>
    subst ih
    simp [hc] at ho

end Procedure

namespace ExprShape

variable {p p' : Procedure}

/-- Every node of the tree lists as many operands as its kind fixes. -/
def Laid (p : Procedure) (t : ExprShape) : Prop :=
  ∀ x ∈ t.ids, ∀ n, (p.node x).kind.arity? = some n → (p.node x).operands.length = n

theorem Laid.sub {t u : ExprShape} (h : t.Laid p) (hu : u ∈ t.subs) : u.Laid p :=
  fun x hx => h x (ids_subset_of_mem_subs hu hx)

/-- The trees below the root of a held tree whose kind fixes `n` operands are `n`. -/
theorem Laid.length {e : ExprId} {ts : List ExprShape} (h : (node e ts).Laid p)
    (hs : (node e ts).Spans p) {n : Nat} (hn : (p.node e).kind.arity? = some n) :
    ts.length = n := by
  have := h e (by simp) n hn
  rwa [(spans_node_iff.1 hs).2.1, List.length_map] at this

/-- Two trees below the root of a tree with distinct nodes that share a node are one. -/
theorem eq_of_mem_ids {e x : ExprId} {ts : List ExprShape} {t t' : ExprShape}
    (hnd : (node e ts).ids.Nodup) (ht : t ∈ ts) (ht' : t' ∈ ts) (hx : x ∈ t.ids)
    (hx' : x ∈ t'.ids) : t = t' := by
  by_contra hne
  have : Std.Symm fun a b : ExprShape => List.Disjoint a.ids b.ids := ⟨fun _ _ h => h.symm⟩
  exact (nodup_ids_node.1 hnd).2.1.forall ht ht' hne hx hx'

/-- A subtree below an operand of the root is not the whole tree. -/
theorem ne_of_mem_subs_child {e : ExprId} {ts : List ExprShape} {t u : ExprShape}
    (hnd : (node e ts).ids.Nodup) (ht : t ∈ ts) (hu : u ∈ t.subs) : u ≠ node e ts := fun h =>
  root_ne_of_child hnd ht hu (by rw [h, root_node])

/-- `x` is a call or inline assembly of the tree `t` outside the arms of its conditionals: an
    evaluation of the tree evaluates it, whatever the conditions. -/
inductive Exposed (p : Procedure) : ExprShape → ExprId → Prop
  | root {e : ExprId} {ts : List ExprShape} : (p.node e).hasEffect = true →
      Exposed p (.node e ts) e
  | operand {e x : ExprId} {ts : List ExprShape} {t : ExprShape} {i : Nat} : ts[i]? = some t →
      (p.node e).kind.arm i = false → Exposed p t x → Exposed p (.node e ts) x

namespace Exposed

theorem mem {t : ExprShape} {x : ExprId} (h : t.Exposed p x) : x ∈ t.ids := by
  induction h with
  | root => simp
  | operand hti _ _ ih => exact mem_ids_node_of_mem (List.mem_of_getElem? hti) ih

theorem hasEffect {t : ExprShape} {x : ExprId} (h : t.Exposed p x) :
    (p.node x).hasEffect = true := by
  induction h with
  | root he => exact he
  | operand _ _ _ ih => exact ih

/-- An exposed node of a held tree lies below its root. -/
theorem toBelow {t : ExprShape} {x : ExprId} (h : t.Exposed p x) (ht : t.Spans p) :
    p.Below t.root x := by
  induction h with
  | root => exact .refl
  | @operand e x ts t i hti _ _ ih =>
    obtain ⟨-, hops, -, hbelow⟩ := spans_node_iff.1 ht
    have ho : t.root ∈ (p.node e).operands := by
      rw [hops]
      exact List.mem_map_of_mem (List.mem_of_getElem? hti)
    exact (Procedure.Below.operand .refl ho).trans (ih (hbelow t (List.mem_of_getElem? hti)))

/-- Exposure reads only the kinds of the nodes of the tree. -/
theorem frame {t : ExprShape} {x : ExprId} (h : t.Exposed p x)
    (hk : ∀ y ∈ t.ids, (p'.node y).kind = (p.node y).kind) : t.Exposed p' x := by
  induction h with
  | root he =>
    refine .root ?_
    rw [ExprNode.hasEffect_eq_of_kind (hk _ (by simp))]
    exact he
  | @operand e x ts t i hti harm _ ih =>
    refine .operand hti ?_ (ih fun y hy => hk y (mem_ids_node_of_mem (List.mem_of_getElem? hti) hy))
    rw [hk e (by simp)]
    exact harm

/-- A node exposed in a tree with distinct nodes is exposed in every subtree that holds it. -/
theorem sub {t u : ExprShape} {x : ExprId} (h : t.Exposed p x) (hnd : t.ids.Nodup)
    (hu : u ∈ t.subs) (hx : x ∈ u.ids) : u.Exposed p x := by
  induction h with
  | @root e ts he =>
    rcases mem_subs_node.1 hu with rfl | ⟨t, ht, hut⟩
    · exact .root he
    · exact absurd (ids_subset_of_mem_subs hut hx) ((nodup_ids_node.1 hnd).2.2 t ht)
  | @operand e x ts t i hti harm hxt ih =>
    rcases mem_subs_node.1 hu with rfl | ⟨t', ht', hut⟩
    · exact .operand hti harm hxt
    · -- the operand tree holding `x` is the one the exposure goes through
      obtain rfl : t' = t := eq_of_mem_ids hnd ht' (List.mem_of_getElem? hti)
        (ids_subset_of_mem_subs hut hx) hxt.mem
      exact ih ((nodup_ids_node.1 hnd).1 t' ht') hut hx

end Exposed


/-- `x` lies in the arm in place `i` of the conditional `y` of the tree `t`: an evaluation of
    the tree evaluates it only when the condition of `y` selects that arm. -/
def InArm (p : Procedure) (t : ExprShape) (y : ExprId) (i : Nat) (x : ExprId) : Prop :=
  ∃ ts u, node y ts ∈ t.subs ∧ ts[i]? = some u ∧ (p.node y).kind.arm i = true ∧ x ∈ u.ids

namespace InArm

variable {t T : ExprShape} {y x : ExprId} {i : Nat}

theorem mem (h : t.InArm p y i x) : y ∈ t.ids ∧ x ∈ t.ids := by
  obtain ⟨ts, u, hsub, hu, -, hx⟩ := h
  exact ⟨ids_subset_of_mem_subs hsub (root_mem_ids _),
    ids_subset_of_mem_subs hsub (mem_ids_node_of_mem (List.mem_of_getElem? hu) hx)⟩

/-- A conditional of a subtree around a node is one of the whole tree. -/
theorem mono (h : t.InArm p y i x) (ht : t ∈ T.subs) : T.InArm p y i x := by
  obtain ⟨ts, u, hsub, hu, harm, hx⟩ := h
  exact ⟨ts, u, mem_subs_trans hsub ht, hu, harm, hx⟩

/-- Lying in an arm reads only the kind of the conditional. -/
theorem frame (h : t.InArm p y i x) (hk : (p'.node y).kind = (p.node y).kind) :
    t.InArm p' y i x := by
  obtain ⟨ts, u, hsub, hu, harm, hx⟩ := h
  exact ⟨ts, u, hsub, hu, hk ▸ harm, hx⟩

end InArm

/-- A node of a tree is its root or a node of the tree in some place below the root. -/
theorem eq_or_mem_child {e x : ExprId} {ts : List ExprShape} (hx : x ∈ (node e ts).ids) :
    x = e ∨ ∃ (j : Nat) (t : ExprShape), ts[j]? = some t ∧ x ∈ t.ids := by
  rw [ids_node, List.mem_append, List.mem_flatMap, List.mem_singleton] at hx
  rcases hx with ⟨t, ht, hxt⟩ | rfl
  · obtain ⟨j, hj⟩ := List.mem_iff_getElem?.1 ht
    exact .inr ⟨j, t, hj, hxt⟩
  · exact .inl rfl

/-- A node exposed in a tree whose root is no call nor inline assembly is exposed in the tree in
    some place of the root outside its arms. -/
theorem Exposed.child {e x : ExprId} {ts : List ExprShape} (h : (node e ts).Exposed p x)
    (he : (p.node e).hasEffect = false) :
    ∃ (i : Nat) (t : ExprShape), ts[i]? = some t ∧ (p.node e).kind.arm i = false ∧
      t.Exposed p x := by
  cases h with
  | root he' =>
    rw [he] at he'
    cases he'
  | operand hti harm hxt => exact ⟨_, _, hti, harm, hxt⟩

/-- A call or inline assembly of a tree whose root is neither lies in the tree in some place of
    the root. -/
theorem mem_child_of_hasEffect {e x : ExprId} {ts : List ExprShape} (hx : x ∈ (node e ts).ids)
    (hxe : (p.node x).hasEffect = true) (he : (p.node e).hasEffect = false) :
    ∃ (j : Nat) (t : ExprShape), ts[j]? = some t ∧ x ∈ t.ids := by
  rcases eq_or_mem_child hx with rfl | h
  · rw [he] at hxe
    cases hxe
  · exact h

end ExprShape

namespace Procedure

open ExprShape

variable {p : Procedure}

/-- The condition of the conditional `y` is a literal that leaves aside the arm in place `i`:
    the arm in place 1 when the literal is zero, the one in place 2 otherwise. -/
def LeavesAside (p : Procedure) (y : ExprId) (i : Nat) : Prop :=
  ∃ c v s, (p.node y).operands[0]? = some c ∧ (p.node c).literal? = some (v, s) ∧
    i = if v != 0 then 2 else 1

/-- What the parts `ks` of a replacement with subtrees `sub` account for in the tree `U`: every
    node the tree exposes lies in a part's tree, and so does every other call or inline
    assembly of the tree, unless it lies in the arm of a conditional that its literal condition
    leaves aside, a conditional in no part's tree. -/
def Accounts (p : Procedure) (U : ExprShape) (ks : List ExprId) (sub : ExprId → ExprShape) :
    Prop :=
  (∀ x, U.Exposed p x → ∃ k ∈ ks, x ∈ (sub k).ids) ∧
    ∀ x ∈ U.ids, (p.node x).hasEffect = true → (∃ k ∈ ks, x ∈ (sub k).ids) ∨
      ∃ y i, U.InArm p y i x ∧ p.LeavesAside y i ∧ ∀ k ∈ ks, y ∉ (sub k).ids

/-- A tree without calls and inline assembly needs no part. -/
theorem accounts_of_pure {U : ExprShape} (h : ∀ x ∈ U.ids, (p.node x).hasEffect = false)
    (sub : ExprId → ExprShape) : p.Accounts U [] sub := by
  refine ⟨fun x hx => ?_, fun x hx he => ?_⟩
  · have := h x hx.mem
    rw [hx.hasEffect] at this
    cases this
  · rw [h x hx] at he
    cases he

/-- The parts `ks` of a replacement that keeps the effects of the tree at `c`, over a held tree
    whose nodes list the operands their kinds fix: each part has its subtree, the subtrees
    share no node, none is the whole tree unless the tree is kept whole, and the parts account
    for the calls of the tree: all of them but those in the arm a literal condition leaves
    aside. -/
theorem Covers.shapes {b : Bool} {c : ExprId} {ks : List ExprId} (h : p.Covers b c ks) :
    ∀ {U : ExprShape}, p.Holds U → U.root = c → U.Laid p →
      ∃ sub : ExprId → ExprShape,
        (∀ k ∈ ks, sub k ∈ U.subs ∧ (sub k).root = k ∧ (b = false → sub k ≠ U)) ∧
        ks.Pairwise (fun a b => List.Disjoint (sub a).ids (sub b).ids) ∧ p.Accounts U ks sub := by
  induction h with
  | part c =>
    intro U _ hr _
    exact ⟨fun _ => U, by simp [hr, self_mem_subs], List.pairwise_singleton _ _,
      fun x hx => ⟨c, List.mem_singleton_self c, hx.mem⟩,
      fun x hx _ => .inl ⟨c, List.mem_singleton_self c, hx⟩⟩
  | pure hc =>
    intro U hU hr _
    exact ⟨fun _ => U, by simp, List.Pairwise.nil, accounts_of_pure (fun x hx =>
      isPure_iff.1 hc x (hr ▸ hU.spans.below_of_mem hx)) _⟩
  | @literal _ c hc =>
    -- a literal lists no operand, and is no effect
    intro U hU hr hlay
    have hops : (p.node c).operands = [] := List.eq_nil_of_length_eq_zero
      (hlay c (hr ▸ U.root_mem_ids) 0 (ExprNode.arity?_of_isVal hc))
    refine ⟨fun _ => U, by simp, List.Pairwise.nil, accounts_of_pure (fun x hx => ?_) _⟩
    obtain rfl := (hr ▸ hU.spans.below_of_mem hx).eq_of_operands_eq_nil hops
    exact ExprNode.hasEffect_of_isVal hc
  | @unary _ c a ks op hk ha _ ih =>
    intro U hU hr hlay
    obtain ⟨e, ts⟩ := U
    obtain rfl : e = c := hr
    obtain ⟨A, hA, rfl⟩ := hU.spans.child ha
    have hAm := List.mem_of_getElem? hA
    have hAsub : A ∈ (ExprShape.node e ts).subs := mem_subs_of_child hAm (self_mem_subs A)
    obtain ⟨sub, hsub, hpw, hcov, heff⟩ := ih (hU.sub hAsub) rfl (hlay.sub hAsub)
    have hlen : ts.length = 1 := hlay.length hU.spans (by simp [hk, ExprKind.arity?])
    have hpure : (p.node e).hasEffect = false := by simp [ExprNode.hasEffect, hk]
    refine ⟨sub, fun k hk' => ?_, hpw, fun x hx => ?_, fun x hx he => ?_⟩
    · obtain ⟨hks, hkr, -⟩ := hsub k hk'
      exact ⟨mem_subs_trans hks hAsub, hkr, fun _ => ne_of_mem_subs_child hU.nodup hAm hks⟩
    · -- the only operand is the one the parts come from
      obtain ⟨i, t, hti, -, hxt⟩ := hx.child hpure
      obtain ⟨hi, -⟩ := List.getElem?_eq_some_iff.1 hti
      obtain rfl : i = 0 := by omega
      rw [hA] at hti
      cases hti
      exact hcov x hxt
    · obtain ⟨j, t, htj, hxt⟩ := mem_child_of_hasEffect hx he hpure
      obtain ⟨hj, -⟩ := List.getElem?_eq_some_iff.1 htj
      obtain rfl : j = 0 := by omega
      rw [hA] at htj
      cases htj
      rcases heff x hxt he with hpart | ⟨y, i, hin, hla, hnot⟩
      · exact .inl hpart
      · exact .inr ⟨y, i, hin.mono hAsub, hla, hnot⟩
  | @binary _ c l r kl kr op hk hl hr' _ _ ihl ihr =>
    intro U hU hr hlay
    obtain ⟨e, ts⟩ := U
    obtain rfl : e = c := hr
    obtain ⟨L, hL, rfl⟩ := hU.spans.child hl
    obtain ⟨R, hR, rfl⟩ := hU.spans.child hr'
    obtain ⟨rest, rfl⟩ := eq_cons_cons hL hR
    have hlen : (L :: R :: rest).length = 2 := hlay.length hU.spans (by simp [hk, ExprKind.arity?])
    obtain rfl : rest = [] := List.eq_nil_of_length_eq_zero (by simpa using hlen)
    have hLsub : L ∈ (ExprShape.node e [L, R]).subs := mem_subs_of_child (by simp) (self_mem_subs L)
    have hRsub : R ∈ (ExprShape.node e [L, R]).subs := mem_subs_of_child (by simp) (self_mem_subs R)
    have hLR : List.Disjoint L.ids R.ids :=
      (List.pairwise_cons.1 (nodup_ids_node.1 hU.nodup).2.1).1 R (by simp)
    obtain ⟨subL, hsubL, hpwL, hcovL, heffL⟩ := ihl (hU.sub hLsub) rfl (hlay.sub hLsub)
    obtain ⟨subR, hsubR, hpwR, hcovR, heffR⟩ := ihr (hU.sub hRsub) rfl (hlay.sub hRsub)
    -- the parts from the two sides lie in disjoint trees
    have hinL : ∀ k ∈ kl, (subL k).ids ⊆ L.ids := fun k hk' =>
      ids_subset_of_mem_subs (hsubL k hk').1
    have hinR : ∀ k ∈ kr, (subR k).ids ⊆ R.ids := fun k hk' =>
      ids_subset_of_mem_subs (hsubR k hk').1
    have hnot : ∀ k ∈ kr, k ∉ kl := fun k hkr hkl => by
      have hkL := (subL k).root_mem_ids
      have hkR := (subR k).root_mem_ids
      rw [(hsubL k hkl).2.1] at hkL
      rw [(hsubR k hkr).2.1] at hkR
      exact hLR (hinL k hkl hkL) (hinR k hkr hkR)
    have hpure : (p.node e).hasEffect = false := by simp [ExprNode.hasEffect, hk]
    refine ⟨fun k => if k ∈ kl then subL k else subR k, fun k hk' => ?_, ?_, fun x hx => ?_,
      fun x hx he => ?_⟩
    · rcases List.mem_append.1 hk' with hk' | hk'
      · obtain ⟨hks, hkr, -⟩ := hsubL k hk'
        simp only [hk', if_true]
        exact ⟨mem_subs_trans hks hLsub, hkr,
          fun _ => ne_of_mem_subs_child hU.nodup (by simp) hks⟩
      · obtain ⟨hks, hkr, -⟩ := hsubR k hk'
        simp only [hnot k hk', if_false]
        exact ⟨mem_subs_trans hks hRsub, hkr,
          fun _ => ne_of_mem_subs_child hU.nodup (by simp) hks⟩
    · refine List.pairwise_append.2 ⟨?_, ?_, fun a ha b hb => ?_⟩
      · exact hpwL.imp_of_mem fun {a b} ha hb h => by simpa [ha, hb] using h
      · exact hpwR.imp_of_mem fun {a b} ha hb h => by simpa [hnot a ha, hnot b hb] using h
      · simp only [ha, hnot b hb, if_true, if_false]
        exact fun y hya hyb => hLR (hinL a ha hya) (hinR b hb hyb)
    · obtain ⟨i, t, hti, -, hxt⟩ := hx.child hpure
      obtain ⟨hi, -⟩ := List.getElem?_eq_some_iff.1 hti
      obtain rfl | rfl : i = 0 ∨ i = 1 := by simp at hi; omega
      · cases hti
        obtain ⟨k, hk', hxk⟩ := hcovL x hxt
        exact ⟨k, List.mem_append_left _ hk', by simpa [hk'] using hxk⟩
      · cases hti
        obtain ⟨k, hk', hxk⟩ := hcovR x hxt
        exact ⟨k, List.mem_append_right _ hk', by simpa [hnot k hk'] using hxk⟩
    · obtain ⟨j, t, htj, hxt⟩ := mem_child_of_hasEffect hx he hpure
      obtain ⟨hj, -⟩ := List.getElem?_eq_some_iff.1 htj
      obtain rfl | rfl : j = 0 ∨ j = 1 := by simp at hj; omega
      · -- a call on the left: kept by a left part, or in an arm on the left
        cases htj
        rcases heffL x hxt he with ⟨k, hk', hxk⟩ | ⟨y, i, hin, hla, hnotL⟩
        · exact .inl ⟨k, List.mem_append_left _ hk', by simpa [hk'] using hxk⟩
        · refine .inr ⟨y, i, hin.mono hLsub, hla, fun k hk' hyk => ?_⟩
          by_cases hkl : k ∈ kl
          · simp only [hkl, if_true] at hyk
            exact hnotL k hkl hyk
          · simp only [hkl, if_false] at hyk
            exact hLR hin.mem.1 (hinR k ((List.mem_append.1 hk').resolve_left hkl) hyk)
      · cases htj
        rcases heffR x hxt he with ⟨k, hk', hxk⟩ | ⟨y, i, hin, hla, hnotR⟩
        · exact .inl ⟨k, List.mem_append_right _ hk', by simpa [hnot k hk'] using hxk⟩
        · refine .inr ⟨y, i, hin.mono hRsub, hla, fun k hk' hyk => ?_⟩
          by_cases hkl : k ∈ kl
          · simp only [hkl, if_true] at hyk
            exact hLR (hinL k hkl hyk) hin.mem.1
          · simp only [hkl, if_false] at hyk
            exact hnotR k ((List.mem_append.1 hk').resolve_left hkl) hyk
  | @arm _ c cond k v s i hk hc hlit hi hki =>
    intro U hU hr hlay
    obtain ⟨e, ts⟩ := U
    obtain rfl : e = c := hr
    obtain ⟨K, hK, rfl⟩ := hU.spans.child hki
    obtain ⟨T, hT, rfl⟩ := hU.spans.child hc
    have hKm := List.mem_of_getElem? hK
    have hKsub : K ∈ (ExprShape.node e ts).subs := mem_subs_of_child hKm (self_mem_subs K)
    have hlen : ts.length = 3 := hlay.length hU.spans (by simp [hk, ExprKind.arity?])
    have hval := ExprNode.isVal_of_literal? hlit
    -- the condition is a literal without operands: its tree is the literal alone, no effect
    have hTsub : T ∈ (ExprShape.node e ts).subs := mem_subs_of_child (List.mem_of_getElem? hT)
      (self_mem_subs T)
    have hcond : ∀ x ∈ T.ids, (p.node x).hasEffect = false := fun x hx => by
      have hops : (p.node T.root).operands = [] := List.eq_nil_of_length_eq_zero
        (hlay T.root (ids_subset_of_mem_subs hTsub T.root_mem_ids) 0
          (ExprNode.arity?_of_isVal hval))
      obtain rfl := ((hU.sub hTsub).spans.below_of_mem hx).eq_of_operands_eq_nil hops
      exact ExprNode.hasEffect_of_isVal hval
    have hpure : (p.node e).hasEffect = false := by simp [ExprNode.hasEffect, hk]
    refine ⟨fun _ => K, fun k' hk' => ?_, List.pairwise_singleton _ _, fun x hx => ?_,
      fun x hx he => ?_⟩
    · obtain rfl := List.mem_singleton.1 hk'
      exact ⟨hKsub, rfl, fun _ => ne_of_mem_subs_child hU.nodup hKm (self_mem_subs K)⟩
    · -- outside its arms a conditional exposes its condition, a literal
      obtain ⟨j, t, htj, harm, hxt⟩ := hx.child hpure
      obtain ⟨hj, -⟩ := List.getElem?_eq_some_iff.1 htj
      obtain rfl : j = 0 := by
        simp only [ExprKind.arm, hk, beq_self_eq_true, Bool.true_and, Bool.or_eq_false_iff,
          beq_eq_false_iff_ne] at harm
        omega
      rw [hT] at htj
      cases htj
      have := hcond x hxt.mem
      rw [hxt.hasEffect] at this
      cases this
    · -- a call of the conditional lies in the arm kept, or in the other one, left aside
      obtain ⟨j, t, htj, hxt⟩ := mem_child_of_hasEffect hx he hpure
      obtain ⟨hj, -⟩ := List.getElem?_eq_some_iff.1 htj
      by_cases hj0 : j = 0
      · subst hj0
        rw [hT] at htj
        cases htj
        rw [hcond x hxt] at he
        cases he
      by_cases hji : j = i
      · subst hji
        rw [hK] at htj
        cases htj
        exact .inl ⟨K.root, List.mem_singleton_self _, hxt⟩
      refine .inr ⟨e, j, ⟨ts, t, self_mem_subs _, htj, ?_, hxt⟩, ⟨T.root, v, s, hc, hlit, ?_⟩,
        fun k' _ hek => (nodup_ids_node.1 hU.nodup).2.2 K hKm hek⟩
      · simp only [ExprKind.arm, hk, beq_self_eq_true, Bool.true_and, Bool.or_eq_true,
          beq_iff_eq]
        omega
      · split_ifs at hi ⊢ <;> omega

end Procedure

namespace Ctx

variable {p p' : Procedure}

/-- The tree in place `i` below a node of a context: one beside the path, the same whatever
    fills the context, or the one on the path. -/
theorem getElem?_append_cons {l r : List ExprShape} {a b u : ExprShape} {i : Nat}
    (h : (l ++ a :: r)[i]? = some u) :
    (u ∈ l ++ r ∧ (l ++ b :: r)[i]? = some u) ∨ (i = l.length ∧ u = a) := by
  rcases lt_trichotomy i l.length with hi | rfl | hi
  · rw [List.getElem?_append_left hi] at h
    exact .inl ⟨List.mem_append_left _ (List.mem_of_getElem? h),
      by rw [List.getElem?_append_left hi]; exact h⟩
  · simp only [List.getElem?_append_right (Nat.le_refl _), Nat.sub_self, List.getElem?_cons_zero,
      Option.some.injEq] at h
    exact .inr ⟨rfl, h.symm⟩
  · obtain ⟨j, rfl⟩ : ∃ j, i = l.length + (j + 1) := ⟨i - l.length - 1, by omega⟩
    simp only [List.getElem?_append_right (by omega : l.length ≤ l.length + (j + 1)),
      Nat.add_sub_cancel_left, List.getElem?_cons_succ] at h ⊢
    exact .inl ⟨List.mem_append_right _ (List.mem_of_getElem? h), h⟩

/-- A context filled with `W` in `p'` exposes what it exposed filled with `N` in `p`, when its
    nodes keep their kinds and `W` exposes what `N` did. -/
theorem exposed_fill {C : Ctx} {N W : ExprShape}
    (hk : ∀ y ∈ C.ids, (p'.node y).kind = (p.node y).kind)
    (hNW : ∀ x, N.Exposed p x → W.Exposed p' x) {x : ExprId} (h : (C.fill N).Exposed p x) :
    (C.fill W).Exposed p' x := by
  induction C generalizing x with
  | hole => exact hNW x h
  | node e l c r ih =>
    have hke : (p'.node e).kind = (p.node e).kind := hk e (by simp [ids])
    have hkc : ∀ y ∈ c.ids, (p'.node y).kind = (p.node y).kind := fun y hy =>
      hk y (mem_ids_node.2 (.inr (.inl hy)))
    have hkt : ∀ t ∈ l ++ r, ∀ y ∈ t.ids, (p'.node y).kind = (p.node y).kind := fun t ht y hy =>
      hk y (mem_ids_node.2 (.inl ⟨t, ht, hy⟩))
    cases h with
    | root he => exact .root (by rw [ExprNode.hasEffect_eq_of_kind hke]; exact he)
    | @operand _ _ _ t i hti harm hxt =>
      have harm' : (p'.node e).kind.arm i = false := by rw [hke]; exact harm
      -- the operand in place `i` lies beside the path or on it
      rcases getElem?_append_cons (b := c.fill W) hti with ⟨hside, hti'⟩ | ⟨hi, rfl⟩
      · exact .operand hti' harm' (hxt.frame (hkt t hside))
      · refine .operand ?_ harm' (ih hkc hxt)
        rw [hi, List.getElem?_append_right (Nat.le_refl _), Nat.sub_self]
        rfl

end Ctx

end Decompilation
