import Mathlib
import Decompilation.Proofs.Simplify.Purity
import Decompilation.Proofs.Simplify.Lowers

/-!
# What a rule keeps

A rule replaces an expression by a tree built over some of the expressions below it, its
*parts*, and the rest of the tree below the replaced expression is deleted. `Procedure.Covers`
says how the parts account for the calls and the inline assembly of that tree: each part keeps
its whole tree; a tree the rule found pure, or a literal, holds none; a unary or binary
operation keeps what its operands keep; and a conditional whose condition is a literal holds
none outside its arms, whichever arm the rule keeps. A replacement that keeps effects so
copies nothing either, so the nodes kept are the nodes that were there.

Every rule keeps effects in this sense (`Rule.KeepsEffects`): each guard that lets a rule drop
an operand says that the operand is a literal or is pure, or that it is equal to a pure tree
(`x - x`, `x ^ x`, and the comparisons `converged` merges).

* `Procedure.Covers`: how the parts of a replacement keep the effects of a tree;
* `Rule.arith_keepsEffects`, …, `Rule.fold_keepsEffects`: each rule keeps effects;
* `firstReplacement_keepsEffects`: so does the replacement the rules give.
-/

namespace Decompilation

namespace ExprNode

theorem operandAt_eq_ok {x : ExprNode} {i : Nat} {o : ExprId} :
    x.operandAt i = .ok o ↔ x.operands[i]? = some o := by
  unfold operandAt
  split <;> simp_all

theorem isVal_of_literal? {x : ExprNode} {vs : UInt64 × Nat} (h : x.literal? = some vs) :
    x.isVal = true := by
  unfold literal? at h
  unfold isVal
  split at h <;> simp_all

end ExprNode

namespace Procedure

variable {p : Procedure}

/-- `Covers p whole c ks`: the calls and inline assembly of the tree at `c` lie in the trees of
    `ks`, and a replacement that keeps those trees whole loses none. Only a `whole` tree may
    be kept as it is, so that a replacement never keeps the expression it replaces. -/
inductive Covers (p : Procedure) : Bool → ExprId → List ExprId → Prop
  /-- The tree is kept whole. -/
  | part (c : ExprId) : Covers p true c [c]
  /-- A pure tree holds no effect. -/
  | pure {b : Bool} {c : ExprId} : p.isPure c = true → Covers p b c []
  /-- Neither does a literal. -/
  | literal {b : Bool} {c : ExprId} : (p.node c).isVal = true → Covers p b c []
  /-- A unary operation keeps what its operand keeps. -/
  | unary {b : Bool} {c a : ExprId} {ks : List ExprId} {op : UnaryOp} :
      (p.node c).kind = .unary op → (p.node c).operands[0]? = some a → Covers p true a ks →
      Covers p b c ks
  /-- A binary operation keeps what its operands keep. -/
  | binary {b : Bool} {c l r : ExprId} {kl kr : List ExprId} {op : BinaryOp} :
      (p.node c).kind = .binary op → (p.node c).operands[0]? = some l →
      (p.node c).operands[1]? = some r → Covers p true l kl → Covers p true r kr →
      Covers p b c (kl ++ kr)
  /-- A conditional on a literal keeps the arm the literal selects; what it holds outside its
      arms is the literal. -/
  | arm {b : Bool} {c cond k : ExprId} {v : UInt64} {s i : Nat} : (p.node c).kind = .tcond →
      (p.node c).operands[0]? = some cond → (p.node cond).literal? = some (v, s) →
      i = (if v != 0 then 1 else 2) → (p.node c).operands[i]? = some k → Covers p b c [k]

/-! ### Readings of the tree -/

theorem binaryParts?_eq_some {e : ExprId} {op : BinaryOp} {l r : ExprId}
    (h : p.binaryParts? e = .ok (some (op, l, r))) :
    (p.node e).kind = .binary op ∧ (p.node e).operands[0]? = some l ∧
      (p.node e).operands[1]? = some r := by
  simp only [binaryParts?] at h
  cases hop : (p.node e).binaryOp? with
  | none => simp [hop] at h
  | some op' =>
    simp only [hop, bind_eq_ok, pure_eq_ok, ExprNode.operandAt_eq_ok] at h
    obtain ⟨l', hl, r', hr, heq⟩ := h
    simp only [Option.some.injEq, Prod.mk.injEq] at heq
    obtain ⟨rfl, rfl, rfl⟩ := heq
    exact ⟨ExprNode.kind_of_binaryOp? hop, hl, hr⟩

theorem unaryParts?_eq_some {e : ExprId} {op : UnaryOp} {a : ExprId}
    (h : p.unaryParts? e = .ok (some (op, a))) :
    (p.node e).kind = .unary op ∧ (p.node e).operands[0]? = some a := by
  simp only [unaryParts?] at h
  cases hop : (p.node e).unaryOp? with
  | none => simp [hop] at h
  | some op' =>
    simp only [hop, bind_eq_ok, pure_eq_ok, ExprNode.operandAt_eq_ok] at h
    obtain ⟨a', ha, heq⟩ := h
    simp only [Option.some.injEq, Prod.mk.injEq] at heq
    obtain ⟨rfl, rfl⟩ := heq
    exact ⟨ExprNode.kind_of_unaryOp? hop, ha⟩

theorem isVal_of_isLiteral {c : ExprId} {v : UInt64} (h : p.isLiteral c v = true) :
    (p.node c).isVal = true := by
  unfold isLiteral at h
  split at h
  · exact ExprNode.isVal_of_literal? ‹_›
  · cases h

theorem isVal_of_isAllOnes {c : ExprId} (h : p.isAllOnes c = true) : (p.node c).isVal = true := by
  unfold isAllOnes at h
  split at h
  · exact ExprNode.isVal_of_literal? ‹_›
  · cases h

theorem zeroAtWidthOf_eq_ok {c : ExprId} {o : Option Replacement}
    (h : Rule.zeroAtWidthOf p c = .ok o) : ∃ s, o = some (.val 0 s) := by
  simp only [Rule.zeroAtWidthOf, bind_eq_ok, pure_eq_ok] at h
  obtain ⟨s, -, rfl⟩ := h
  exact ⟨s, rfl⟩

variable {b : Bool} {e l r : ExprId} {op : BinaryOp}

/-- A binary operation that keeps its left operand and drops its right one. -/
theorem Covers.left (hk : (p.node e).kind = .binary op) (hl : (p.node e).operands[0]? = some l)
    (hr : (p.node e).operands[1]? = some r) (h : p.Covers true r []) : p.Covers b e [l] :=
  .binary hk hl hr (.part l) h

/-- A binary operation that keeps its right operand and drops its left one. -/
theorem Covers.right (hk : (p.node e).kind = .binary op) (hl : (p.node e).operands[0]? = some l)
    (hr : (p.node e).operands[1]? = some r) (h : p.Covers true l []) : p.Covers b e [r] :=
  .binary hk hl hr h (.part r)

end Procedure

/-- A rule keeps the effects of every expression it replaces in the parts of the replacement,
    which copies nothing. -/
def Rule.KeepsEffects (r : Rule) : Prop :=
  ∀ s p e w, r s p e = .ok (some w) → p.Covers false e w.parts ∧ w.copies = false

open Procedure

/-! ### The rules

Each rule is followed through its `do` block; at each replacement it gives, the guard that let
it fire says why what it drops holds no effect. -/

theorem Rule.arith_keepsEffects : Rule.arith.KeepsEffects := by
  intro s p e w h
  simp only [Rule.arith, bind_eq_ok] at h
  obtain ⟨_ | ⟨op, l, r⟩, hb, h⟩ := h
  · simp at h
  obtain ⟨hk, hl, hr⟩ := binaryParts?_eq_some hb
  simp only [Bool.and_eq_true, Bool.or_eq_true, beq_iff_eq] at h
  split_ifs at h with h₁ h₂ h₃ h₄ h₅ h₆ h₇
  · obtain rfl := Option.some.inj (pure_eq_ok.1 h)
    exact ⟨.left hk hl hr (.literal (isVal_of_isLiteral h₁.2)), rfl⟩
  · obtain rfl := Option.some.inj (pure_eq_ok.1 h)
    exact ⟨.right hk hl hr (.literal (isVal_of_isLiteral h₂.2)), rfl⟩
  · obtain rfl := Option.some.inj (pure_eq_ok.1 h)
    exact ⟨.left hk hl hr (.literal (isVal_of_isLiteral h₃.2)), rfl⟩
  · obtain rfl := Option.some.inj (pure_eq_ok.1 h)
    exact ⟨.right hk hl hr (.literal (isVal_of_isLiteral h₄.2)), rfl⟩
  · obtain ⟨_, hw⟩ := zeroAtWidthOf_eq_ok h
    obtain rfl := Option.some.inj hw.symm
    exact ⟨.binary hk hl hr (.pure h₅.2) (.literal (isVal_of_isLiteral h₅.1.2)), rfl⟩
  · obtain ⟨_, hw⟩ := zeroAtWidthOf_eq_ok h
    obtain rfl := Option.some.inj hw.symm
    exact ⟨.binary hk hl hr (.literal (isVal_of_isLiteral h₆.1.2)) (.pure h₆.2), rfl⟩
  · obtain ⟨_, hw⟩ := zeroAtWidthOf_eq_ok h
    obtain rfl := Option.some.inj hw.symm
    exact ⟨.binary hk hl hr (.pure h₇.2) (.pure (isPure_of_equals h₇.2 h₇.1.2)), rfl⟩
  · simp at h

theorem Rule.sign_keepsEffects : Rule.sign.KeepsEffects := by
  intro s p e w h
  simp only [Rule.sign, bind_eq_ok] at h
  obtain ⟨_ | ⟨op, l, r⟩, hb, h⟩ := h
  · simp at h
  obtain ⟨hk, hl, hr⟩ := binaryParts?_eq_some hb
  dsimp only at h
  split at h
  · simp only [bind_eq_ok] at h
    obtain ⟨u, hu, h⟩ := h
    split at h
    · obtain ⟨hkr, hy⟩ := unaryParts?_eq_some hu
      cases pure_eq_ok.1 h
      exact ⟨.binary hk hl hr (.part l) (.unary hkr hy (.part _)), rfl⟩
    · -- a literal on the right turned around
      have h := pure_eq_ok.1 h
      split at h
      · next _ _ _ hlit =>
        have hw : w.parts = [l] ∧ w.copies = false := by
          split at h
          · split_ifs at h <;> cases h <;> exact ⟨rfl, rfl⟩
          · cases h
        rw [hw.1]
        exact ⟨.left hk hl hr (.literal (ExprNode.isVal_of_literal? hlit)), hw.2⟩
      · cases h
  · simp at h

theorem Rule.cancel_keepsEffects : Rule.cancel.KeepsEffects := by
  intro s p e w h
  simp only [Rule.cancel, bind_eq_ok] at h
  obtain ⟨_ | ⟨outer, inner⟩, hu, h⟩ := h
  · simp at h
  obtain ⟨hk, hi⟩ := unaryParts?_eq_some hu
  dsimp only at h
  rw [bind_eq_ok] at h
  obtain ⟨_ | ⟨innerOp, x⟩, hu', h⟩ := h
  · simp at h
  obtain ⟨hk', hx⟩ := unaryParts?_eq_some hu'
  -- the four cancelling pairs all keep the operand of the inner operation
  have hw : w = .keep x := by
    dsimp only at h
    split at h <;> simp_all
  subst hw
  exact ⟨.unary hk hi (.unary hk' hx (.part x)), rfl⟩

theorem Rule.shiftMask_keeps {p : Procedure} {e l r : ExprId} {op : BinaryOp}
    (hk : (p.node e).kind = .binary op) (hl : (p.node e).operands[0]? = some l)
    (hr : (p.node e).operands[1]? = some r) {w : Replacement}
    (h : Rule.shiftMask p l r = .ok (some w)) : p.Covers false e w.parts ∧ w.copies = false := by
  simp only [Rule.shiftMask, bind_eq_ok] at h
  obtain ⟨o, hb, h⟩ := h
  split at h
  · next x c shift _ hr' =>
    obtain ⟨hkl, hx, hc⟩ := binaryParts?_eq_some hb
    split_ifs at h with hcond
    · simp only [bind_eq_ok, pure_eq_ok] at h
      obtain ⟨_, -, hw⟩ := h
      cases hw
      -- the shift amount is a literal, dropped with the outer literal
      have hc' : (p.node c).isVal = true := by
        cases hlit : p.literal? c with
        | none => simp [hlit] at hcond
        | some vs => exact ExprNode.isVal_of_literal? hlit
      exact ⟨.binary hk hl hr (.binary hkl hx hc (.part x) (.literal hc'))
        (.literal (ExprNode.isVal_of_literal? hr')), rfl⟩
    · simp at h
  · simp at h

theorem Rule.bitwise_keepsEffects : Rule.bitwise.KeepsEffects := by
  intro s p e w h
  simp only [Rule.bitwise, bind_eq_ok] at h
  obtain ⟨_ | ⟨op, l, r⟩, hb, h⟩ := h
  · simp at h
  obtain ⟨hk, hl, hr⟩ := binaryParts?_eq_some hb
  dsimp only at h
  split at h
  · -- exclusive or
    simp only [Bool.and_eq_true] at h
    split_ifs at h with h₁ h₂ h₃ h₄
    · cases pure_eq_ok.1 h
      exact ⟨.left hk hl hr (.literal (isVal_of_isLiteral h₁)), rfl⟩
    · cases pure_eq_ok.1 h
      exact ⟨.right hk hl hr (.literal (isVal_of_isLiteral h₂)), rfl⟩
    · obtain ⟨_, hw⟩ := zeroAtWidthOf_eq_ok h
      cases hw
      exact ⟨.binary hk hl hr (.pure h₃.2) (.pure (isPure_of_equals h₃.2 h₃.1)), rfl⟩
    · cases pure_eq_ok.1 h
      exact ⟨.left hk hl hr (.literal (isVal_of_isAllOnes h₄)), rfl⟩
    · simp at h
  · -- or
    have h := pure_eq_ok.1 h
    simp only [Bool.and_eq_true] at h
    split_ifs at h with h₁ h₂ h₃ h₄ <;> cases h
    · exact ⟨.left hk hl hr (.literal (isVal_of_isLiteral h₁)), rfl⟩
    · exact ⟨.right hk hl hr (.literal (isVal_of_isLiteral h₂)), rfl⟩
    · exact ⟨.left hk hl hr (.pure h₃.2), rfl⟩
    · exact ⟨.right hk hl hr (.pure h₄.2), rfl⟩
  · -- and
    have h := pure_eq_ok.1 h
    simp only [Bool.and_eq_true] at h
    split_ifs at h with h₁ h₂ h₃ h₄ h₅ <;> cases h
    · exact ⟨.right hk hl hr (.pure h₁.2), rfl⟩
    · exact ⟨.left hk hl hr (.pure h₂.2), rfl⟩
    · exact ⟨.left hk hl hr (.pure h₃.2), rfl⟩
    · exact ⟨.left hk hl hr (.literal (isVal_of_isAllOnes h₄)), rfl⟩
    · exact ⟨.right hk hl hr (.literal (isVal_of_isAllOnes h₅)), rfl⟩
  · -- shift left
    split_ifs at h with h₁
    · cases pure_eq_ok.1 h
      exact ⟨.left hk hl hr (.literal (isVal_of_isLiteral h₁)), rfl⟩
    · exact Rule.shiftMask_keeps hk hl hr h
  · -- shift right
    have h := pure_eq_ok.1 h
    split_ifs at h with h₁
    cases h
    exact ⟨.left hk hl hr (.literal (isVal_of_isLiteral h₁)), rfl⟩
  · simp at h

theorem Rule.equality_keepsEffects : Rule.equality.KeepsEffects := by
  intro s p e w h
  simp only [Rule.equality, bind_eq_ok] at h
  obtain ⟨_ | ⟨op, l, r⟩, hb, h⟩ := h
  · simp at h
  obtain ⟨hk, hl, hr⟩ := binaryParts?_eq_some hb
  dsimp only at h
  split at h
  · rw [bind_eq_ok] at h
    obtain ⟨_ | ⟨inner, x, y⟩, hb', h⟩ := h
    · simp at h
    obtain ⟨hkl, hx, hy⟩ := binaryParts?_eq_some hb'
    dsimp only at h
    split at h
    · split at h
      · -- two literals combined into one
        next _ _ _ _ hy' hr' =>
        simp only [bind_eq_ok, pure_eq_ok] at h
        obtain ⟨_, -, hw⟩ := h
        cases hw
        exact ⟨.binary hk hl hr (.binary hkl hx hy (.part x)
          (.literal (ExprNode.isVal_of_literal? hy')))
          (.literal (ExprNode.isVal_of_literal? hr')), rfl⟩
      · -- a difference compared with zero
        split at h
        · next h₁ =>
          cases pure_eq_ok.1 h
          have hd := Covers.binary (b := false) hk hl hr (.binary hkl hx hy (.part x) (.part y))
            (.literal (isVal_of_isLiteral h₁))
          split <;> exact ⟨by simpa [Replacement.parts] using hd, rfl⟩
        · simp at h
    · simp at h
  · simp at h

theorem Rule.negate_keepsEffects : Rule.negate.KeepsEffects := by
  intro s p e w h
  simp only [Rule.negate, bind_eq_ok] at h
  obtain ⟨u, hu, h⟩ := h
  split at h
  · next inner =>
    obtain ⟨hk, hi⟩ := unaryParts?_eq_some hu
    rw [bind_eq_ok] at h
    obtain ⟨u', hu', h⟩ := h
    split at h
    · -- a double negation keeps the operand of the inner one
      next x =>
      obtain ⟨hk', hx⟩ := unaryParts?_eq_some hu'
      cases pure_eq_ok.1 h
      exact ⟨.unary hk hi (.unary hk' hx (.part x)), rfl⟩
    · rw [bind_eq_ok] at h
      obtain ⟨_ | ⟨op, a, b⟩, hb, h⟩ := h
      · simp at h
      obtain ⟨hk', ha, hb'⟩ := binaryParts?_eq_some hb
      have hd := Covers.unary (b := false) hk hi (.binary hk' ha hb' (.part a) (.part b))
      -- every rewrite of a negated operation keeps both of its operands
      have hw : w.parts = [a, b] ∧ w.copies = false := by
        have h := pure_eq_ok.1 h
        split at h <;> first
          | (cases h; exact ⟨rfl, rfl⟩)
          | (obtain ⟨_, -, rfl⟩ := Option.map_eq_some_iff.1 h; exact ⟨rfl, rfl⟩)
      rw [hw.1]
      exact ⟨hd, hw.2⟩
  · simp at h

theorem Rule.converged_keepsEffects : Rule.converged.KeepsEffects := by
  intro s p e w h
  simp only [Rule.converged, bind_eq_ok] at h
  obtain ⟨u, hu, h⟩ := h
  split at h
  · next l r =>
    obtain ⟨hk, hl, hr⟩ := binaryParts?_eq_some hu
    simp only [bind_eq_ok, pure_eq_ok] at h
    obtain ⟨left, hleft, right, hright, h⟩ := h
    split at h
    · next op0 x0 y0 op1 x1 y1 =>
      obtain ⟨hkl, hx0, hy0⟩ := binaryParts?_eq_some hleft
      obtain ⟨hkr, hx1, hy1⟩ := binaryParts?_eq_some hright
      simp only [Bool.or_eq_true, Bool.not_eq_true'] at h
      split_ifs at h with hguard
      obtain ⟨_, -, rfl⟩ := Option.map_eq_some_iff.1 h
      simp only [not_or, Bool.not_eq_false] at hguard
      obtain ⟨⟨hex, hey⟩, hpure⟩ := hguard
      -- the right comparison has the operands of the left one, which are pure
      have hx1p := isPure_of_equals (isPure_of_operand hpure (List.mem_of_getElem? hx0)) hex
      have hy1p := isPure_of_equals (isPure_of_operand hpure (List.mem_of_getElem? hy0)) hey
      have hd := Covers.binary (b := false) hk hl hr (.binary hkl hx0 hy0 (.part x0) (.part y0))
        (.binary hkr hx1 hy1 (.pure hx1p) (.pure hy1p))
      exact ⟨by simpa [Replacement.parts] using hd, rfl⟩
    · simp at h
  · simp at h

theorem Rule.reassociate_keepsEffects : Rule.reassociate.KeepsEffects := by
  intro s p e w h
  simp only [Rule.reassociate, bind_eq_ok] at h
  obtain ⟨_ | ⟨outer, inner, r⟩, hb, h⟩ := h
  · simp at h
  obtain ⟨hk, hi, hr⟩ := binaryParts?_eq_some hb
  dsimp only at h
  split at h
  · simp at h
  next c2 s2 hr' =>
  rw [bind_eq_ok] at h
  obtain ⟨_ | ⟨innerOp, x, y⟩, hb', h⟩ := h
  · simp at h
  obtain ⟨hk', hx, hy⟩ := binaryParts?_eq_some hb'
  dsimp only at h
  split at h
  · simp at h
  next c1 s1 hy' =>
  have hd := Covers.binary (b := false) hk hi hr (.binary hk' hx hy (.part x)
    (.literal (ExprNode.isVal_of_literal? hy'))) (.literal (ExprNode.isVal_of_literal? hr'))
  -- both forms of the re-association keep `x` beside a new literal
  have hw : w.parts = [x] ∧ w.copies = false := by
    split_ifs at h
    · simp at h
    all_goals
      simp only [bind_eq_ok, pure_eq_ok] at h
      obtain ⟨_, -, h⟩ := h
    · cases h
      exact ⟨rfl, rfl⟩
    · cases h
      exact ⟨rfl, rfl⟩
    · cases h
      exact ⟨rfl, rfl⟩
    · cases h
      exact ⟨rfl, rfl⟩
    · obtain ⟨_, -, rfl⟩ := Option.map_eq_some_iff.1 h
      exact ⟨rfl, rfl⟩
    · cases h
  rw [hw.1]
  exact ⟨hd, hw.2⟩

theorem Rule.fold_keepsEffects : Rule.fold.KeepsEffects := by
  intro s p e w h
  simp only [Rule.fold] at h
  split at h
  · next op hk =>
    simp only [bind_eq_ok, ExprNode.operandAt_eq_ok] at h
    obtain ⟨l, hl, r, hr, h⟩ := h
    split at h
    · next hl' hr' =>
      simp only [bind_eq_ok, pure_eq_ok] at h
      obtain ⟨_, -, _, -, h⟩ := h
      obtain ⟨_, -, rfl⟩ := Option.map_eq_some_iff.1 h
      exact ⟨.binary hk hl hr (.literal (ExprNode.isVal_of_literal? hl'))
        (.literal (ExprNode.isVal_of_literal? hr')), rfl⟩
    · simp at h
  · next op hk =>
    simp only [bind_eq_ok, ExprNode.operandAt_eq_ok] at h
    obtain ⟨a, ha, h⟩ := h
    split at h
    · next ha' =>
      obtain ⟨_, -, rfl⟩ := Option.map_eq_some_iff.1 (pure_eq_ok.1 h)
      exact ⟨.unary hk ha (.literal (ExprNode.isVal_of_literal? ha')), rfl⟩
    · simp at h
  · next hk =>
    simp only [bind_eq_ok, ExprNode.operandAt_eq_ok] at h
    obtain ⟨c, hc, h⟩ := h
    split at h
    · next hc' =>
      simp only [bind_eq_ok, pure_eq_ok, ExprNode.operandAt_eq_ok] at h
      obtain ⟨k, hk', hw⟩ := h
      cases hw
      exact ⟨.arm hk hc hc' rfl hk', rfl⟩
    · simp at h
  · simp at h


/-! ### The first rule that applies -/

theorem rules_keepEffects : ∀ r ∈ rules, r.KeepsEffects := by
  intro r hr
  simp only [rules, List.mem_cons, List.not_mem_nil, or_false] at hr
  rcases hr with rfl | rfl | rfl | rfl | rfl | rfl | rfl | rfl | rfl
  exacts [Rule.arith_keepsEffects, Rule.sign_keepsEffects, Rule.cancel_keepsEffects,
    Rule.bitwise_keepsEffects, Rule.equality_keepsEffects, Rule.negate_keepsEffects,
    Rule.converged_keepsEffects, Rule.reassociate_keepsEffects, Rule.fold_keepsEffects]

theorem firstReplacement_go_keepsEffects {signed : Bool} {p : Procedure} {e : ExprId}
    {w : Replacement} :
    ∀ rs : List Rule, (∀ r ∈ rs, r.KeepsEffects) →
      firstReplacement.go signed p e rs = .ok (some w) →
      p.Covers false e w.parts ∧ w.copies = false
  | [], _, h => by simp [firstReplacement.go] at h
  | r :: rs, hrs, h => by
    simp only [firstReplacement.go, bind_eq_ok] at h
    obtain ⟨o, ho, h⟩ := h
    cases o with
    | some w' =>
      cases pure_eq_ok.1 h
      exact hrs r List.mem_cons_self signed p e _ ho
    | none =>
      exact firstReplacement_go_keepsEffects rs
        (fun r' hr' => hrs r' (List.mem_cons_of_mem _ hr')) h

/-- The replacement the rules give keeps the effects of the expression it replaces, and copies
    nothing. -/
theorem firstReplacement_keepsEffects {signed : Bool} {p : Procedure} {e : ExprId}
    {w : Replacement} (h : firstReplacement signed p e = .ok (some w)) :
    p.Covers false e w.parts ∧ w.copies = false :=
  firstReplacement_go_keepsEffects rules rules_keepEffects h

end Decompilation
