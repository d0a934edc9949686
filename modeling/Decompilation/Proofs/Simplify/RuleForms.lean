import Mathlib
import Decompilation.Proofs.Simplify.Keeps

/-!
# Every rule gives a lowering replacement

`Procedure.Lowers` lists the forms of replacement that build a tree below the one they replace.
Here each rule is followed through its `do` block, as for the effects it keeps, and every
replacement it gives is found to have one of those forms: an operand or an operand's operand
kept, a literal, or a new operation over parts found one or two levels down. The only rule that
keeps the weight, sign normalization of a literal, writes a literal that it does not turn around
again (`ExprKind.negativeLiteral_turned`).

* `Rule.arith_lowering`, …, `Rule.fold_lowering`: each rule gives a lowering replacement;
* `firstReplacement_of_rules`: what every rule's replacement satisfies, the first one's does;
* `firstReplacement_lowers`: so the replacement the rules give lowers the tree;
* `firstReplacement_eq_error`: and the rules fail only with their own errors (`Error.OfRules`): a
  lost operand, literals of different widths, a signed division by zero.
-/

namespace Decompilation

/-! ### Literals that sign normalization turns around -/

theorem signBit?_eq_some {s : Nat} {bit : UInt64} (h : Rule.signBit? s = some bit) :
    1 ≤ s ∧ s ≤ 64 ∧ bit.toNat = 2 ^ (s - 1) := by
  unfold Rule.signBit? at h
  split at h
  · next hs =>
    cases h
    refine ⟨hs.1, hs.2, ?_⟩
    simp only [Nat.pow_eq]
    exact Nat.mod_eq_of_lt (Nat.pow_lt_pow_right (by norm_num) (by omega))
  · cases h

theorem toNat_widthMask {s : Nat} (h1 : 1 ≤ s) (h64 : s ≤ 64) :
    (widthMask s).toNat = 2 ^ s - 1 := by
  unfold widthMask effectiveWidth
  have hs : (if s = 0 ∨ 64 ≤ s then 64 else s) = s := by split <;> omega
  rw [hs]
  simp only [Nat.pow_eq]
  exact Nat.mod_eq_of_lt (by
    have : 2 ^ s ≤ 2 ^ 64 := Nat.pow_le_pow_right (by norm_num) h64
    have : 0 < 2 ^ s := Nat.two_pow_pos s
    omega)

/-- Below `2 ^ (n + 1)`, bit `n` is set exactly from `2 ^ n` on. -/
theorem and_two_pow_ne_zero_iff {x n : Nat} (hx : x < 2 ^ (n + 1)) :
    x &&& 2 ^ n ≠ 0 ↔ 2 ^ n ≤ x := by
  rw [Nat.and_two_pow, Nat.testBit_eq_decide_div_mod_eq]
  have hp : 0 < 2 ^ n := Nat.two_pow_pos n
  have hlt : x / 2 ^ n < 2 := Nat.div_lt_of_lt_mul (by rw [Nat.pow_succ] at hx; linarith)
  constructor
  · intro h
    by_contra hlt'
    have : x / 2 ^ n = 0 := Nat.div_eq_of_lt (by omega)
    simp [this] at h
  · intro h
    have : 1 ≤ x / 2 ^ n := (Nat.le_div_iff_mul_le hp).2 (by omega)
    have h1 : x / 2 ^ n % 2 = 1 := by omega
    simp [h1]

/-- The negation of a word whose low `s` bits `a` are not all clear has low bits `2 ^ s - a`. -/
theorem toNat_neg_mod {v : UInt64} {s : Nat} (h64 : s ≤ 64) (ha : 0 < v.toNat % 2 ^ s) :
    (0 - v).toNat % 2 ^ s = 2 ^ s - v.toNat % 2 ^ s := by
  set P := 2 ^ s
  obtain ⟨Q, hQ⟩ : P ∣ 2 ^ 64 := Nat.pow_dvd_pow 2 h64
  have hP : 0 < P := Nat.two_pow_pos s
  have hv := Nat.div_add_mod v.toNat P
  set q := v.toNat / P
  set a := v.toNat % P
  have haP : a < P := Nat.mod_lt _ hP
  have hvlt : v.toNat < 2 ^ 64 := v.toNat_lt
  have hq : q < Q := by
    by_contra h
    have : P * Q ≤ P * q := Nat.mul_le_mul_left P (by omega)
    omega
  -- `2 ^ 64 - v` is `P * (Q - q - 1) + (P - a)`, with `0 < P - a ≤ P`
  have hsplit : P * (Q - q - 1) + P * q + P = P * Q := by
    rw [← Nat.mul_add, ← Nat.mul_succ]
    congr 1
    omega
  have hneg : (0 - v).toNat = P * (Q - q - 1) + (P - a) := by
    rw [UInt64.toNat_sub, UInt64.toNat_zero, hQ, Nat.mod_eq_of_lt (by omega)]
    omega
  rw [hneg, Nat.mul_add_mod, Nat.mod_eq_of_lt (by omega)]

/-- The literal sign normalization writes for one it turns around is not turned around again:
    at most the sign bit is left set. -/
theorem ExprKind.negativeLiteral_turned {v bit : UInt64} {s : Nat}
    (hb : Rule.signBit? s = some bit) (hv : v &&& bit ≠ 0) :
    (ExprKind.val (((0 - v) &&& widthMask s) &&& widthMask s) s).negativeLiteral = false := by
  obtain ⟨h1, h64, hbit⟩ := signBit?_eq_some hb
  obtain ⟨n, rfl⟩ : ∃ n, s = n + 1 := ⟨s - 1, by omega⟩
  simp only [Nat.add_sub_cancel] at hbit
  have hmask := toNat_widthMask h1 h64
  have hP : 0 < 2 ^ (n + 1) := Nat.two_pow_pos _
  have hpow : 2 ^ (n + 1) = 2 * 2 ^ n := by rw [Nat.pow_succ, Nat.mul_comm]
  -- the low bits `a` of `v` have their top bit set
  set a := v.toNat % 2 ^ (n + 1) with ha_def
  have ha : 2 ^ n ≤ a := by
    rw [← and_two_pow_ne_zero_iff (Nat.mod_lt _ hP), Nat.and_two_pow, Nat.testBit_mod_two_pow,
      decide_eq_true (Nat.lt_succ_self n), Bool.true_and, ← Nat.and_two_pow]
    intro h
    apply hv
    apply UInt64.toNat_inj.1
    rw [UInt64.toNat_and, hbit, h, UInt64.toNat_zero]
  -- so the low bits of `0 - v` are `2 ^ (n + 1) - a`, at most the top bit
  set u := ((0 - v) &&& widthMask (n + 1)) &&& widthMask (n + 1) with hu_def
  have hu : u.toNat = 2 ^ (n + 1) - a := by
    rw [hu_def, UInt64.toNat_and, UInt64.toNat_and, hmask, Nat.and_two_pow_sub_one_eq_mod,
      Nat.and_two_pow_sub_one_eq_mod, Nat.mod_mod, toNat_neg_mod h64 (by omega)]
  simp only [ExprKind.negativeLiteral, hb]
  rcases Nat.lt_or_eq_of_le (show u.toNat ≤ 2 ^ n by omega) with hlt | heq
  · have hand : u &&& bit = 0 := by
      apply UInt64.toNat_inj.1
      rw [UInt64.toNat_and, hbit, UInt64.toNat_zero]
      by_contra hne
      exact absurd ((and_two_pow_ne_zero_iff (by omega)).1 hne) (by omega)
    simp [hand]
  · have hub : u = bit := UInt64.toNat_inj.1 (heq.trans hbit.symm)
    simp [hub]

namespace Procedure

variable {p : Procedure}

theorem kind_of_literal? {e : ExprId} {v : UInt64} {s : Nat} (h : p.literal? e = some (v, s)) :
    (p.node e).kind = .val v s := by
  simp only [literal?, ExprNode.literal?] at h
  split at h <;> simp_all

end Procedure

/-- A rule lowers every tree it fires on: each replacement it gives has one of the forms of
    `Procedure.Lowers`. -/
def Rule.Lowering (r : Rule) : Prop :=
  ∀ s p e w, r s p e = .ok (some w) → p.Lowers e w

open Procedure

/-! ### The rules -/

theorem Rule.arith_lowering : Rule.arith.Lowering := by
  intro s p e w h
  simp only [Rule.arith, bind_eq_ok] at h
  obtain ⟨_ | ⟨op, l, r⟩, hb, h⟩ := h
  · simp at h
  obtain ⟨-, hl, hr⟩ := binaryParts?_eq_some hb
  dsimp only at h
  -- an identity keeps an operand; a product with zero and a difference with itself are zero
  split_ifs at h
  · cases pure_eq_ok.1 h
    exact .operand hl
  · cases pure_eq_ok.1 h
    exact .operand hr
  · cases pure_eq_ok.1 h
    exact .operand hl
  · cases pure_eq_ok.1 h
    exact .operand hr
  all_goals first
    | (obtain ⟨_, hw⟩ := zeroAtWidthOf_eq_ok h
       cases hw
       exact .literal hl)
    | simp at h

theorem Rule.sign_lowering : Rule.sign.Lowering := by
  intro s p e w h
  simp only [Rule.sign, bind_eq_ok] at h
  obtain ⟨_ | ⟨op, l, r⟩, hb, h⟩ := h
  · simp at h
  obtain ⟨hk, hl, hr⟩ := binaryParts?_eq_some hb
  dsimp only at h
  split at h
  · next hop =>
    have hop : op = .add ∨ op = .sub := by simpa using hop
    simp only [bind_eq_ok] at h
    obtain ⟨u, hu, h⟩ := h
    split at h
    · -- a negation on the right: its operand is kept
      obtain ⟨-, hy⟩ := unaryParts?_eq_some hu
      cases pure_eq_ok.1 h
      exact .hoist hk hl hr hy
    · -- a literal on the right turned around
      have h := pure_eq_ok.1 h
      split at h
      · next v sz hlit =>
        split at h
        · next bit hbit =>
          split_ifs at h with hneg <;> cases h
          -- the literal was turned around, whichever way the operation flips
          all_goals
            simp only [Bool.and_eq_true, bne_iff_ne, ne_eq] at hneg
            have hr' : (p.node r).kind.negativeLiteral = true := by
              simp [kind_of_literal? hlit, ExprKind.negativeLiteral, hbit, hneg.1, hneg.2]
            exact .flipLiteral hk hop hl hr hr' (ExprKind.negativeLiteral_turned hbit hneg.1)
        · cases h
      · cases h
  · simp at h

theorem Rule.cancel_lowering : Rule.cancel.Lowering := by
  intro s p e w h
  simp only [Rule.cancel, bind_eq_ok] at h
  obtain ⟨_ | ⟨outer, inner⟩, hu, h⟩ := h
  · simp at h
  obtain ⟨-, hi⟩ := unaryParts?_eq_some hu
  dsimp only at h
  rw [bind_eq_ok] at h
  obtain ⟨_ | ⟨innerOp, x⟩, hu', h⟩ := h
  · simp at h
  obtain ⟨-, hx⟩ := unaryParts?_eq_some hu'
  have hw : w = .keep x := by
    dsimp only at h
    split at h <;> simp_all
  subst hw
  exact .grand hi hx

/-- A left shift undoing a right shift keeps the shifted value beside a mask. -/
theorem Rule.shiftMask_lowers {p : Procedure} {e l r : ExprId}
    (hl : (p.node e).operands[0]? = some l) {w : Replacement}
    (h : Rule.shiftMask p l r = .ok (some w)) : p.Lowers e w := by
  simp only [Rule.shiftMask, bind_eq_ok] at h
  obtain ⟨o, hb, h⟩ := h
  split at h
  · obtain ⟨hkl, hx, hc⟩ := binaryParts?_eq_some hb
    split_ifs at h
    · simp only [bind_eq_ok, pure_eq_ok] at h
      obtain ⟨_, -, hw⟩ := h
      cases hw
      exact .withLiteral hl hkl hx hc
    · simp at h
  · simp at h

theorem Rule.bitwise_lowering : Rule.bitwise.Lowering := by
  intro s p e w h
  simp only [Rule.bitwise, bind_eq_ok] at h
  obtain ⟨_ | ⟨op, l, r⟩, hb, h⟩ := h
  · simp at h
  obtain ⟨hk, hl, hr⟩ := binaryParts?_eq_some hb
  dsimp only at h
  split at h
  · -- exclusive or: an operand, zero, or the complement of the left operand
    split_ifs at h
    · cases pure_eq_ok.1 h
      exact .operand hl
    · cases pure_eq_ok.1 h
      exact .operand hr
    · obtain ⟨_, hw⟩ := zeroAtWidthOf_eq_ok h
      cases hw
      exact .literal hl
    · cases pure_eq_ok.1 h
      exact .unary hk (by decide) hl
    · simp at h
  · -- or, and: an operand
    have h := pure_eq_ok.1 h
    split_ifs at h <;> cases h
    exacts [.operand hl, .operand hr, .operand hl, .operand hr]
  · have h := pure_eq_ok.1 h
    split_ifs at h <;> cases h
    exacts [.operand hr, .operand hl, .operand hl, .operand hl, .operand hr]
  · -- shift left
    split_ifs at h
    · cases pure_eq_ok.1 h
      exact .operand hl
    · exact Rule.shiftMask_lowers hl h
  · have h := pure_eq_ok.1 h
    split_ifs at h
    cases h
    exact .operand hl
  · simp at h

theorem Rule.equality_lowering : Rule.equality.Lowering := by
  intro s p e w h
  simp only [Rule.equality, bind_eq_ok] at h
  obtain ⟨_ | ⟨op, l, r⟩, hb, h⟩ := h
  · simp at h
  obtain ⟨hk, hl, hr⟩ := binaryParts?_eq_some hb
  dsimp only at h
  split at h
  · rw [bind_eq_ok] at h
    obtain ⟨_ | ⟨inner, x, y⟩, hb', h⟩ := h
    · simp at h
    obtain ⟨hkl, hx, hy⟩ := binaryParts?_eq_some hb'
    dsimp only at h
    split at h
    · split at h
      · -- the two literals combined into one
        simp only [bind_eq_ok, pure_eq_ok] at h
        obtain ⟨_, -, hw⟩ := h
        cases hw
        exact .withLiteral hl hkl hx hy
      · -- a difference, or a sum with a negated operand, compared with zero
        split at h
        · cases pure_eq_ok.1 h
          split
          · exact .regroup hl hkl hx hy
          · exact .negated (.inl ⟨op, hk⟩) hl hkl hx hy
        · simp at h
    · simp at h
  · simp at h

theorem Rule.negate_lowering : Rule.negate.Lowering := by
  intro s p e w h
  simp only [Rule.negate, bind_eq_ok] at h
  obtain ⟨u, hu, h⟩ := h
  split at h
  · obtain ⟨hk, hi⟩ := unaryParts?_eq_some hu
    rw [bind_eq_ok] at h
    obtain ⟨u', hu', h⟩ := h
    split at h
    · -- a double negation keeps the operand of the inner one
      obtain ⟨-, hx⟩ := unaryParts?_eq_some hu'
      cases pure_eq_ok.1 h
      exact .grand hi hx
    · rw [bind_eq_ok] at h
      obtain ⟨_ | ⟨op, a, b⟩, hb, h⟩ := h
      · simp at h
      obtain ⟨hk', ha, hb'⟩ := binaryParts?_eq_some hb
      -- De Morgan, a sum, a difference, or a comparison turned around
      have h := pure_eq_ok.1 h
      split at h
      · cases h
        exact .deMorgan hk hi hk' ha hb'
      · cases h
        exact .deMorgan hk hi hk' ha hb'
      · cases h
        exact .negated (.inr hk) hi hk' ha hb'
      · cases h
        exact .regroup hi hk' ha hb'
      · obtain ⟨_, -, rfl⟩ := Option.map_eq_some_iff.1 h
        exact .regroup hi hk' ha hb'
  · simp at h

theorem Rule.converged_lowering : Rule.converged.Lowering := by
  intro s p e w h
  simp only [Rule.converged, bind_eq_ok] at h
  obtain ⟨u, hu, h⟩ := h
  split at h
  · obtain ⟨-, hl, -⟩ := binaryParts?_eq_some hu
    simp only [bind_eq_ok, pure_eq_ok] at h
    obtain ⟨left, hleft, right, -, h⟩ := h
    split at h
    · obtain ⟨hkl, hx0, hy0⟩ := binaryParts?_eq_some hleft
      split_ifs at h
      obtain ⟨_, -, rfl⟩ := Option.map_eq_some_iff.1 h
      exact .regroup hl hkl hx0 hy0
    · simp at h
  · simp at h

theorem Rule.reassociate_lowering : Rule.reassociate.Lowering := by
  intro s p e w h
  simp only [Rule.reassociate, bind_eq_ok] at h
  obtain ⟨_ | ⟨outer, inner, r⟩, hb, h⟩ := h
  · simp at h
  obtain ⟨-, hi, -⟩ := binaryParts?_eq_some hb
  dsimp only at h
  split at h
  · simp at h
  rw [bind_eq_ok] at h
  obtain ⟨_ | ⟨innerOp, x, y⟩, hb', h⟩ := h
  · simp at h
  obtain ⟨hk', hx, hy⟩ := binaryParts?_eq_some hb'
  dsimp only at h
  split at h
  · simp at h
  -- both forms keep `x` beside a new literal
  split_ifs at h
  · simp at h
  all_goals
    simp only [bind_eq_ok, pure_eq_ok] at h
    obtain ⟨_, -, h⟩ := h
  · cases h
    exact .withLiteral hi hk' hx hy
  · cases h
    exact .withLiteral hi hk' hx hy
  · cases h
    exact .withLiteral hi hk' hx hy
  · cases h
    exact .withLiteral hi hk' hx hy
  · obtain ⟨_, -, rfl⟩ := Option.map_eq_some_iff.1 h
    exact .withLiteral hi hk' hx hy
  · cases h

theorem Rule.fold_lowering : Rule.fold.Lowering := by
  intro s p e w h
  simp only [Rule.fold] at h
  split at h
  · -- an operation on two literals becomes a literal
    simp only [bind_eq_ok, ExprNode.operandAt_eq_ok] at h
    obtain ⟨l, hl, r, -, h⟩ := h
    split at h
    · simp only [bind_eq_ok, pure_eq_ok] at h
      obtain ⟨_, -, _, -, h⟩ := h
      obtain ⟨_, -, rfl⟩ := Option.map_eq_some_iff.1 h
      exact .literal hl
    · simp at h
  · simp only [bind_eq_ok, ExprNode.operandAt_eq_ok] at h
    obtain ⟨a, ha, h⟩ := h
    split at h
    · obtain ⟨_, -, rfl⟩ := Option.map_eq_some_iff.1 (pure_eq_ok.1 h)
      exact .literal ha
    · simp at h
  · -- a conditional on a literal keeps one arm
    simp only [bind_eq_ok, ExprNode.operandAt_eq_ok] at h
    obtain ⟨c, -, h⟩ := h
    split at h
    · simp only [bind_eq_ok, pure_eq_ok, ExprNode.operandAt_eq_ok] at h
      obtain ⟨k, hk, hw⟩ := h
      cases hw
      exact .operand hk
    · simp at h
  · simp at h

/-! ### The first rule that applies -/

/-- What the replacement of every rule satisfies, the replacement the rules give satisfies. -/
theorem firstReplacement_of_rules {P : Procedure → ExprId → Replacement → Prop}
    (hrules : ∀ r ∈ rules, ∀ s p e w, r s p e = .ok (some w) → P p e w) {signed : Bool}
    {p : Procedure} {e : ExprId} {w : Replacement}
    (h : firstReplacement signed p e = .ok (some w)) : P p e w := by
  suffices ∀ rs : List Rule, (∀ r ∈ rs, ∀ s p e w, r s p e = .ok (some w) → P p e w) →
      firstReplacement.go signed p e rs = .ok (some w) → P p e w from this rules hrules h
  intro rs
  induction rs with
  | nil => simp [firstReplacement.go]
  | cons r rs ih =>
    intro hrs h
    simp only [firstReplacement.go, bind_eq_ok] at h
    obtain ⟨o, ho, h⟩ := h
    cases o with
    | some w' =>
      cases pure_eq_ok.1 h
      exact hrs r List.mem_cons_self signed p e _ ho
    | none => exact ih (fun r' hr' => hrs r' (List.mem_cons_of_mem _ hr')) h

theorem rules_lowering : ∀ r ∈ rules, r.Lowering := by
  intro r hr
  simp only [rules, List.mem_cons, List.not_mem_nil, or_false] at hr
  rcases hr with rfl | rfl | rfl | rfl | rfl | rfl | rfl | rfl | rfl
  exacts [Rule.arith_lowering, Rule.sign_lowering, Rule.cancel_lowering, Rule.bitwise_lowering,
    Rule.equality_lowering, Rule.negate_lowering, Rule.converged_lowering,
    Rule.reassociate_lowering, Rule.fold_lowering]

/-- The replacement the rules give has one of the lowering forms. -/
theorem firstReplacement_lowers {signed : Bool} {p : Procedure} {e : ExprId} {w : Replacement}
    (h : firstReplacement signed p e = .ok (some w)) : p.Lowers e w :=
  firstReplacement_of_rules (fun r hr => rules_lowering r hr) h

/-! ### What the rules raise -/

section Errors

variable {α β : Type}

/-- A failed answer: the error of the first step, or of the rest after its success. -/
theorem bind_eq_error {ε : Type} {x : Except ε α} {f : α → Except ε β} {e : ε} :
    x >>= f = .error e ↔ x = .error e ∨ ∃ a, x = .ok a ∧ f a = .error e := by
  cases x <;> simp [bind, Except.bind]

/-- A pure answer is no failure. -/
@[simp]
theorem pure_ne_error {ε : Type} (a : α) (e : ε) : (pure a : Except ε α) ≠ .error e := by
  simp [pure, Except.pure]

/-- The error of a composed answer is one of its first step's or one of the rest's. -/
theorem error_of_bind {ε : Type} {P : ε → Prop} {x : Except ε α} {f : α → Except ε β} {e : ε}
    (h : x >>= f = .error e) (hx : x = .error e → P e) (hf : ∀ a, f a = .error e → P e) : P e := by
  rcases bind_eq_error.1 h with h | ⟨a, -, h⟩
  · exact hx h
  · exact hf a h

/-- The errors the rules raise: a reading of an operand an expression has lost, two literals of
    different known widths, and a signed division by a divisor that is zero at the width. -/
def Error.OfRules : Error → Prop
  | .missingOperand _ _ | .operandWidth _ _ | .divisionByZero _ => True
  | _ => False

namespace Procedure

variable {p : Procedure} {err : Error}

theorem operandAt_eq_error {x : ExprNode} {i : Nat} (h : x.operandAt i = .error err) :
    err.OfRules := by
  unfold ExprNode.operandAt at h
  split at h
  · cases h
  · cases h
    trivial

theorem binaryParts?_eq_error {e : ExprId} (h : p.binaryParts? e = .error err) : err.OfRules := by
  simp only [binaryParts?] at h
  split at h
  · simp only [bind_eq_error] at h
    rcases h with h | ⟨_, -, h⟩
    · exact operandAt_eq_error h
    · rcases h with h | ⟨_, -, h⟩
      · exact operandAt_eq_error h
      · simp at h
  · simp at h

theorem unaryParts?_eq_error {e : ExprId} (h : p.unaryParts? e = .error err) : err.OfRules := by
  simp only [unaryParts?] at h
  split at h
  · simp only [bind_eq_error] at h
    rcases h with h | ⟨_, -, h⟩
    · exact operandAt_eq_error h
    · simp at h
  · simp at h

theorem widthOf_go_eq_error {n : Nat} {c : ExprId} (h : widthOf.go p n c = .error err) :
    err.OfRules := by
  induction n generalizing c with
  | zero => simp [widthOf.go] at h
  | succ n ih =>
    simp only [widthOf.go] at h
    -- the width of a negation or a complement is its operand's, of an operation its operands'
    have hop : ∀ {i : Nat} {k : ExprId → Except Error Nat},
        (∀ o, k o = .error err → err.OfRules) →
        ((p.node c).operandAt i >>= k) = .error err → err.OfRules := by
      intro i k hk h
      rcases bind_eq_error.1 h with h | ⟨o, -, h⟩
      · exact operandAt_eq_error h
      · exact hk o h
    split at h
    · simp at h
    · simp at h
    · exact hop (fun _ h => ih h) h
    · exact hop (fun _ h => ih h) h
    · split at h
      · refine hop (fun _ h => ?_) h
        rcases bind_eq_error.1 h with h | ⟨_, -, h⟩
        · exact ih h
        · refine hop (fun _ h => ?_) h
          rcases bind_eq_error.1 h with h | ⟨_, -, h⟩
          · exact ih h
          · simp at h
      · simp at h
    · simp at h

theorem widthOf_eq_error {c : ExprId} (h : p.widthOf c = .error err) : err.OfRules :=
  widthOf_go_eq_error h

end Procedure

theorem combineWidth_eq_error {l r : Nat} {err : Error} (h : combineWidth l r = .error err) :
    err.OfRules := by
  unfold combineWidth at h
  split_ifs at h
  cases h
  trivial

theorem foldBinary_eq_error {op : BinaryOp} {a b : UInt64} {size : Nat} {signed : Bool}
    {err : Error} (h : foldBinary op a b size signed = .error err) : err.OfRules := by
  -- only a signed division or remainder fails, with its own error
  unfold foldBinary at h
  cases op <;> dsimp only at h <;> (try split_ifs at h) <;>
    simp only [pure, Except.pure, throw, throwThe, MonadExceptOf.throw, reduceCtorEq,
      Except.error.injEq] at h <;> (subst h; trivial)

/-- A rule fails only with the errors of the rules. -/
def Rule.FailsOfRules (r : Rule) : Prop :=
  ∀ s p e err, r s p e = .error err → err.OfRules


theorem Rule.zeroAtWidthOf_eq_error {p : Procedure} {e : ExprId} {err : Error}
    (h : Rule.zeroAtWidthOf p e = .error err) : err.OfRules := by
  simp only [Rule.zeroAtWidthOf] at h
  exact error_of_bind h widthOf_eq_error fun _ h => by simp at h

theorem Rule.arith_failsOfRules : Rule.arith.FailsOfRules := by
  intro s p e err h
  simp only [Rule.arith] at h
  refine error_of_bind h binaryParts?_eq_error fun o h => ?_
  rcases o with _ | ⟨op, l, r⟩
  · simp at h
  dsimp only at h
  split_ifs at h <;> first | simp at h | exact Rule.zeroAtWidthOf_eq_error h

theorem Rule.sign_failsOfRules : Rule.sign.FailsOfRules := by
  intro s p e err h
  simp only [Rule.sign] at h
  refine error_of_bind h binaryParts?_eq_error fun o h => ?_
  rcases o with _ | ⟨op, l, r⟩
  · simp at h
  dsimp only at h
  split at h
  · exact error_of_bind h unaryParts?_eq_error fun _ h => by split at h <;> simp at h
  · simp at h

theorem Rule.cancel_failsOfRules : Rule.cancel.FailsOfRules := by
  intro s p e err h
  simp only [Rule.cancel] at h
  refine error_of_bind h unaryParts?_eq_error fun o h => ?_
  rcases o with _ | ⟨outer, inner⟩
  · simp at h
  dsimp only at h
  refine error_of_bind h unaryParts?_eq_error fun o h => ?_
  rcases o with _ | ⟨innerOp, x⟩
  · simp at h
  dsimp only at h
  split at h <;> simp at h

theorem Rule.shiftMask_eq_error {p : Procedure} {l r : ExprId} {err : Error}
    (h : Rule.shiftMask p l r = .error err) : err.OfRules := by
  simp only [Rule.shiftMask] at h
  refine error_of_bind h binaryParts?_eq_error fun o h => ?_
  split at h
  · split_ifs at h
    · exact error_of_bind h widthOf_eq_error fun _ h => by simp at h
    · simp at h
  · simp at h

theorem Rule.bitwise_failsOfRules : Rule.bitwise.FailsOfRules := by
  intro s p e err h
  simp only [Rule.bitwise] at h
  refine error_of_bind h binaryParts?_eq_error fun o h => ?_
  rcases o with _ | ⟨op, l, r⟩
  · simp at h
  dsimp only at h
  split at h
  · split_ifs at h <;> first | simp at h | exact Rule.zeroAtWidthOf_eq_error h
  · simp at h
  · simp at h
  · split_ifs at h
    · simp at h
    · exact Rule.shiftMask_eq_error h
  · simp at h
  · simp at h

theorem Rule.equality_failsOfRules : Rule.equality.FailsOfRules := by
  intro s p e err h
  simp only [Rule.equality] at h
  refine error_of_bind h binaryParts?_eq_error fun o h => ?_
  rcases o with _ | ⟨op, l, r⟩
  · simp at h
  dsimp only at h
  split at h
  · refine error_of_bind h binaryParts?_eq_error fun o h => ?_
    rcases o with _ | ⟨inner, x, y⟩
    · simp at h
    dsimp only at h
    split at h
    · split at h
      · exact error_of_bind h combineWidth_eq_error fun _ h => by simp at h
      · split at h <;> simp at h
    · simp at h
  · simp at h

theorem Rule.negate_failsOfRules : Rule.negate.FailsOfRules := by
  intro s p e err h
  simp only [Rule.negate] at h
  refine error_of_bind h unaryParts?_eq_error fun o h => ?_
  split at h
  · refine error_of_bind h unaryParts?_eq_error fun o h => ?_
    split at h
    · simp at h
    · exact error_of_bind h binaryParts?_eq_error fun o h => by
        split at h <;> simp at h
  · simp at h

theorem Rule.converged_failsOfRules : Rule.converged.FailsOfRules := by
  intro s p e err h
  simp only [Rule.converged] at h
  refine error_of_bind h binaryParts?_eq_error fun o h => ?_
  split at h
  · refine error_of_bind h binaryParts?_eq_error fun _ h => ?_
    exact error_of_bind h binaryParts?_eq_error fun _ h => by simp at h
  · simp at h

theorem Rule.reassociate_failsOfRules : Rule.reassociate.FailsOfRules := by
  intro s p e err h
  simp only [Rule.reassociate] at h
  refine error_of_bind h binaryParts?_eq_error fun o h => ?_
  rcases o with _ | ⟨outer, inner, r⟩
  · simp at h
  dsimp only at h
  split at h
  · simp at h
  refine error_of_bind h binaryParts?_eq_error fun o h => ?_
  rcases o with _ | ⟨innerOp, x, y⟩
  · simp at h
  dsimp only at h
  split at h
  · simp at h
  -- every answer but the failure of the widths is a pure one
  split_ifs at h <;> first
    | exact error_of_bind h combineWidth_eq_error fun _ h => by simp at h
    | simp at h

theorem Rule.fold_failsOfRules : Rule.fold.FailsOfRules := by
  intro s p e err h
  simp only [Rule.fold] at h
  split at h
  · refine error_of_bind h operandAt_eq_error fun _ h => ?_
    refine error_of_bind h operandAt_eq_error fun _ h => ?_
    split at h
    · refine error_of_bind h combineWidth_eq_error fun _ h => ?_
      exact error_of_bind h foldBinary_eq_error fun _ h => by simp at h
    · simp at h
  · refine error_of_bind h operandAt_eq_error fun _ h => ?_
    split at h <;> simp at h
  · refine error_of_bind h operandAt_eq_error fun _ h => ?_
    split at h
    · exact error_of_bind h operandAt_eq_error fun _ h => by simp at h
    · simp at h
  · simp at h

theorem rules_failOfRules : ∀ r ∈ rules, r.FailsOfRules := by
  intro r hr
  simp only [rules, List.mem_cons, List.not_mem_nil, or_false] at hr
  rcases hr with rfl | rfl | rfl | rfl | rfl | rfl | rfl | rfl | rfl
  exacts [Rule.arith_failsOfRules, Rule.sign_failsOfRules, Rule.cancel_failsOfRules,
    Rule.bitwise_failsOfRules, Rule.equality_failsOfRules, Rule.negate_failsOfRules,
    Rule.converged_failsOfRules, Rule.reassociate_failsOfRules, Rule.fold_failsOfRules]

/-- The rules together fail only with the errors of the rules. -/
theorem firstReplacement_eq_error {signed : Bool} {p : Procedure} {e : ExprId} {err : Error}
    (h : firstReplacement signed p e = .error err) : err.OfRules := by
  suffices ∀ rs : List Rule, (∀ r ∈ rs, r.FailsOfRules) →
      firstReplacement.go signed p e rs = .error err → err.OfRules from this rules rules_failOfRules h
  intro rs
  induction rs with
  | nil => simp [firstReplacement.go]
  | cons r rs ih =>
    intro hrs h
    simp only [firstReplacement.go] at h
    refine error_of_bind h (hrs r List.mem_cons_self signed p e _) fun o h => ?_
    cases o with
    | some w => simp at h
    | none =>
      dsimp only at h
      exact ih (fun r' hr' => hrs r' (List.mem_cons_of_mem _ hr')) h

end Errors

end Decompilation
