import Mathlib
import Decompilation.Simplify.Rules
import Decompilation.Proofs.DefUse.Edits

/-!
# What a replacement moves

A rule looks through unary, binary and conditional expressions and describes a replacement in
terms of the operands it found there. So every expression a replacement moves or copies is an
operand of an expression that is no assignment, and no definition position: a replacement
never takes a definition position out of its place.

* `Replacement.parts`: the existing expressions a replacement moves or copies;
* `Procedure.Operand`: an operand of an expression other than an assignment;
* `firstReplacement_parts`: every part of the replacement the rules give is such an operand.

The rules are followed through their `do` blocks by `mvcgen`, with one specification for each
reading of the tree they make.
-/

open Std.Do

set_option mvcgen.warning false

namespace Decompilation

/-- The existing expressions a replacement moves or copies, left to right. -/
def Replacement.parts : Replacement → List ExprId
  | .keep e | .copy e => [e]
  | .val _ _ => []
  | .unary _ a => a.parts
  | .binary _ l r => l.parts ++ r.parts

theorem ExprNode.kind_of_binaryOp? {x : ExprNode} {op : BinaryOp} (h : x.binaryOp? = some op) :
    x.kind = .binary op := by
  unfold ExprNode.binaryOp? at h
  split at h <;> simp_all

theorem ExprNode.kind_of_unaryOp? {x : ExprNode} {op : UnaryOp} (h : x.unaryOp? = some op) :
    x.kind = .unary op := by
  unfold ExprNode.unaryOp? at h
  split at h <;> simp_all

namespace Procedure

variable {p : Procedure}

/-- `e` is an operand of an expression that is no assignment. -/
def Operand (p : Procedure) (e : ExprId) : Prop :=
  ∃ q, (p.node q).kind ≠ .assign ∧ e ∈ (p.node q).operands

/-- An operand of an expression other than an assignment may be listed by a statement. -/
theorem DefsPlaced.listable_of_Operand {l : Option ExprId} (h : p.DefsPlaced l) {e : ExprId}
    (he : p.Operand e) : p.Listable e := by
  obtain ⟨q, hk, hmem⟩ := he
  cases hq : p.expr? q with
  | none => simp [node_of_expr?_eq_none p hq] at hmem
  | some y =>
    rw [node_of_expr? p hq] at hk hmem
    exact h.listable_of_operand hq hk hmem

/-! ### Readings of the tree -/

theorem operandAt_spec (x : ExprNode) (i : Nat) :
    ⦃⌜True⌝⦄ x.operandAt i ⦃⇓? o => ⌜o ∈ x.operands⌝⦄ := by
  unfold ExprNode.operandAt
  split
  · next o ho => mvcgen; exact List.mem_of_getElem? ho
  · mvcgen

theorem binaryParts?_spec (p : Procedure) (e : ExprId) :
    ⦃⌜True⌝⦄ p.binaryParts? e
    ⦃⇓? r => ⌜∀ op l r', r = some (op, l, r') → p.Operand l ∧ p.Operand r'⌝⦄ := by
  mvcgen [binaryParts?, operandAt_spec]
  · rename_i x op hop l hl r hr
    have hk : x.kind ≠ .assign := by simp [ExprNode.kind_of_binaryOp? hop]
    rintro _ _ _ ⟨⟩
    exact ⟨⟨e, hk, hl⟩, ⟨e, hk, hr⟩⟩
  · simp

theorem unaryParts?_spec (p : Procedure) (e : ExprId) :
    ⦃⌜True⌝⦄ p.unaryParts? e ⦃⇓? r => ⌜∀ op a, r = some (op, a) → p.Operand a⌝⦄ := by
  mvcgen [unaryParts?, operandAt_spec]
  · rename_i x op hop a ha
    have hk : x.kind ≠ .assign := by simp [ExprNode.kind_of_unaryOp? hop]
    rintro _ _ ⟨⟩
    exact ⟨e, hk, ha⟩
  · simp

/-- A computation that may fail answers something. -/
theorem except_triple_true {α : Type} (x : Except Error α) : ⦃⌜True⌝⦄ x ⦃⇓? _ => ⌜True⌝⦄ := by
  cases x <;> mvcgen

theorem widthOf_spec (p : Procedure) (e : ExprId) : ⦃⌜True⌝⦄ p.widthOf e ⦃⇓? _ => ⌜True⌝⦄ :=
  except_triple_true _

theorem combineWidth_spec (a b : Nat) : ⦃⌜True⌝⦄ combineWidth a b ⦃⇓? _ => ⌜True⌝⦄ :=
  except_triple_true _

theorem foldBinary_spec (op : BinaryOp) (a b : UInt64) (size : Nat) (signed : Bool) :
    ⦃⌜True⌝⦄ foldBinary op a b size signed ⦃⇓? _ => ⌜True⌝⦄ :=
  except_triple_true _

end Procedure

/-! ### The rules -/

/-- A rule takes the parts of its replacements from operands of expressions other than
    assignments. -/
def Rule.TakesOperands (r : Rule) : Prop :=
  ∀ s p e, ⦃⌜True⌝⦄ r s p e ⦃⇓? o => ⌜∀ w, o = some w → ∀ x ∈ w.parts, p.Operand x⌝⦄

open Procedure

-- Each rule is followed through its `do` block; what is left at each replacement is that its
-- parts are among the operands the readings of the tree found.

theorem Rule.arith_takesOperands : Rule.arith.TakesOperands := by
  intro s p e
  mvcgen [Rule.arith, binaryParts?_spec, Rule.zeroAtWidthOf, widthOf_spec]
  all_goals simp_all [Replacement.parts]

theorem Rule.sign_takesOperands : Rule.sign.TakesOperands := by
  intro s p e
  mvcgen [Rule.sign, binaryParts?_spec, unaryParts?_spec]
  all_goals (repeat' split) <;> simp_all +zetaDelta [Replacement.parts]

theorem Rule.cancel_takesOperands : Rule.cancel.TakesOperands := by
  intro s p e
  mvcgen [Rule.cancel, unaryParts?_spec]
  all_goals simp_all [Replacement.parts]

theorem Rule.bitwise_takesOperands : Rule.bitwise.TakesOperands := by
  intro s p e
  mvcgen [Rule.bitwise, binaryParts?_spec, Rule.zeroAtWidthOf, widthOf_spec, Rule.shiftMask]
  all_goals (repeat' split) <;> simp_all +zetaDelta [Replacement.parts]

theorem Rule.equality_takesOperands : Rule.equality.TakesOperands := by
  intro s p e
  mvcgen [Rule.equality, binaryParts?_spec, combineWidth_spec]
  all_goals simp_all +zetaDelta [Replacement.parts]
  -- the right operand of `x == y` or `x == -y`
  split <;> simp_all [Replacement.parts]

theorem Rule.negate_takesOperands : Rule.negate.TakesOperands := by
  intro s p e
  mvcgen [Rule.negate, binaryParts?_spec, unaryParts?_spec]
  all_goals (repeat' split) <;> simp_all +zetaDelta [Replacement.parts]

theorem Rule.converged_takesOperands : Rule.converged.TakesOperands := by
  intro s p e
  mvcgen [Rule.converged, binaryParts?_spec]
  all_goals (repeat' split) <;> simp_all +zetaDelta [Replacement.parts]

theorem Rule.reassociate_takesOperands : Rule.reassociate.TakesOperands := by
  intro s p e
  mvcgen [Rule.reassociate, binaryParts?_spec, combineWidth_spec]
  all_goals simp_all +zetaDelta [Replacement.parts]

theorem Rule.fold_takesOperands : Rule.fold.TakesOperands := by
  intro s p e
  mvcgen [Rule.fold, operandAt_spec, combineWidth_spec, foldBinary_spec]
  all_goals intro w hw
  -- a folded literal moves nothing; the arm a conditional selects is one of its operands
  all_goals first
    | (obtain ⟨_, -, rfl⟩ := Option.map_eq_some_iff.1 hw; simp [Replacement.parts])
    | (cases hw <;> exact fun x hx => ⟨e, by simp_all +zetaDelta,
        by simp_all +zetaDelta [Replacement.parts]⟩)

/-! ### The first rule that applies -/

/-- Every rule takes the parts of its replacements from operands. -/
theorem rules_takeOperands : ∀ r ∈ rules, r.TakesOperands := by
  intro r hr
  simp only [rules, List.mem_cons, List.not_mem_nil, or_false] at hr
  rcases hr with rfl | rfl | rfl | rfl | rfl | rfl | rfl | rfl | rfl
  exacts [Rule.arith_takesOperands, Rule.sign_takesOperands, Rule.cancel_takesOperands,
    Rule.bitwise_takesOperands, Rule.equality_takesOperands, Rule.negate_takesOperands,
    Rule.converged_takesOperands, Rule.reassociate_takesOperands, Rule.fold_takesOperands]

theorem firstReplacement_go_spec (signed : Bool) (p : Procedure) (e : ExprId) :
    ∀ rs : List Rule, (∀ r ∈ rs, r.TakesOperands) →
      ⦃⌜True⌝⦄ firstReplacement.go signed p e rs
      ⦃⇓? o => ⌜∀ w, o = some w → ∀ x ∈ w.parts, p.Operand x⌝⦄
  | [], _ => by
    -- no rule is left: the answer is a plain `none`
    show ⦃⌜True⌝⦄ (pure none : Except Error (Option Replacement)) ⦃_⦄
    mvcgen
    simp
  | r :: rs, h => by
    have hr := h r List.mem_cons_self signed p e
    have hrs := firstReplacement_go_spec signed p e rs fun r' hr' => h r' (List.mem_cons_of_mem _ hr')
    mvcgen [firstReplacement.go, hr, hrs]

/-- An answer of a computation that may fail satisfies what a triple promises of it. -/
theorem ok_of_triple {α : Type} {x : Except Error α} {Q : α → Prop}
    (h : ⦃⌜True⌝⦄ x ⦃⇓? a => ⌜Q a⌝⦄) {a : α} (hx : x = .ok a) : Q a := by
  subst hx
  have hwp := h trivial
  rw [show (Except.ok a : Except Error α) = pure a from rfl, WP.pure] at hwp
  simpa using hwp

/-- The replacement the rules give moves or copies only operands of expressions other than
    assignments. -/
theorem firstReplacement_parts {signed : Bool} {p : Procedure} {e : ExprId} {w : Replacement}
    (h : firstReplacement signed p e = .ok (some w)) : ∀ x ∈ w.parts, p.Operand x :=
  ok_of_triple (firstReplacement_go_spec signed p e rules rules_takeOperands) h w rfl

end Decompilation
