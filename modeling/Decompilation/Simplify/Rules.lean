import Decompilation.Simplify.Fold
import Decompilation.Simplify.Replacement

/-!
# Simplification rules

Each rule looks at one expression and, when it applies, describes its replacement. The rules
are tried in the order of `rules`:

1. arithmetic identities: `x + 0`, `0 + x`, `x - 0`, `x * 1`, `x / 1`, `x * 0`, `x - x`;
2. sign normalization: `x + -y` and `x + c` with `c` negative in its width become
   subtractions, and the other way round;
3. cancellation of `&*x`, `*&x`, `--x` and `~~x`;
4. bitwise identities, and `(x >> c) << c` as a mask;
5. equality normalization: `(x + c1) == c2` and `(x - y) == 0`;
6. boolean negation: double negation, De Morgan, negated comparisons;
7. merging `x > y || x == y` and its kin into one comparison;
8. re-association of literal operands, `(x + c1) + c2`;
9. constant folding, and conditionals on a literal condition.

No rule drops a subexpression holding a call or inline assembly, apart from the arm a
literal condition does not select. A rule reads the operands of the expressions it looks at
in their places, and fails on an expression that has lost the operand it reads.
-/

namespace Decompilation

namespace Procedure

variable (p : Procedure)

/-- The operator and operands of a binary expression; none for another kind. -/
def binaryParts? (e : ExprId) : Except Error (Option (BinaryOp × ExprId × ExprId)) :=
  let x := p.node e
  match x.binaryOp? with
  | some op => do
    let l ← x.operandAt 0
    let r ← x.operandAt 1
    pure (some (op, l, r))
  | none => pure none

/-- The operator and operand of a unary expression; none for another kind. -/
def unaryParts? (e : ExprId) : Except Error (Option (UnaryOp × ExprId)) :=
  let x := p.node e
  match x.unaryOp? with
  | some op => do pure (some (op, ← x.operandAt 0))
  | none => pure none

/-- The value and width of a literal. -/
def literal? (e : ExprId) : Option (UInt64 × Nat) := (p.node e).literal?

/-- Whether `e` is the literal `v`, of any width. -/
def isLiteral (e : ExprId) (v : UInt64) : Bool :=
  match p.literal? e with
  | some (w, _) => w == v
  | none => false

/-- Whether `e` is a literal of known width with every bit of its width set. -/
def isAllOnes (e : ExprId) : Bool :=
  match p.literal? e with
  | some (v, s) => s > 0 && v == widthMask s
  | none => false

/-- The width of an expression as far as it can be told locally: that of a register or
    literal, through negation and complement, and the larger operand width of an arithmetic or
    bitwise operation; `0` otherwise. -/
def widthOf (e : ExprId) : Except Error Nat := go p.depthBound e
where
  /-- The width of the subtree at `c`. -/
  go : Nat → ExprId → Except Error Nat
    | 0, _ => pure 0
    | n + 1, c => do
      let x := p.node c
      match x.kind with
      | .reg _ s | .val _ s => pure s
      | .unary .neg | .unary .bitNot => go n (← x.operandAt 0)
      | .binary op =>
        if op.isArithmetic || op.isBitwise then
          let l ← go n (← x.operandAt 0)
          let r ← go n (← x.operandAt 1)
          pure (max l r)
        else pure 0
      | _ => pure 0

/-- Whether dropping or duplicating the subtree loses no effect: it holds no call and no
    inline assembly. -/
def isPure (e : ExprId) : Bool := !p.enclosesEffect e

end Procedure

/-- A simplification rule: given the arithmetic mode (signed or not), the replacement of an
    expression, if the rule applies; combining literals of different widths, or reading an
    operand the expression has lost, is an error. -/
abbrev Rule := Bool → Procedure → ExprId → Except Error (Option Replacement)

namespace Rule

open Procedure

/-- The literal `0` at the width of `e`. -/
def zeroAtWidthOf (p : Procedure) (e : ExprId) : Except Error (Option Replacement) := do
  pure (some (.val 0 (← p.widthOf e)))

/-- Arithmetic identities. -/
def arith : Rule := fun _ p e => do
  match ← p.binaryParts? e with
  | none => pure none
  | some (op, l, r) =>
    if (op == .add || op == .sub) && p.isLiteral r 0 then pure (some (.keep l))
    else if op == .add && p.isLiteral l 0 then pure (some (.keep r))
    else if (op == .mul || op == .div) && p.isLiteral r 1 then pure (some (.keep l))
    else if op == .mul && p.isLiteral l 1 then pure (some (.keep r))
    else if op == .mul && p.isLiteral r 0 && p.isPure l then zeroAtWidthOf p r
    else if op == .mul && p.isLiteral l 0 && p.isPure r then zeroAtWidthOf p l
    else if op == .sub && p.equals l r && p.isPure l then zeroAtWidthOf p l
    else pure none

/-- The sign bit of a width from 1 to 64. -/
def signBit? (size : Nat) : Option UInt64 :=
  if 1 ≤ size ∧ size ≤ 64 then some (UInt64.ofNat (Nat.pow 2 (size - 1))) else none

/-- Sign normalization: adding a negation or a negative literal is subtracting, and the other
    way round. The most negative literal of a width has no positive counterpart and stays. -/
def sign : Rule := fun _ p e => do
  match ← p.binaryParts? e with
  | some (op, l, r) =>
    if op == .add || op == .sub then
      let flipped : BinaryOp := if op == .add then .sub else .add
      match ← p.unaryParts? r with
      | some (.neg, y) => pure (some (.binary flipped (.keep l) (.keep y)))
      | _ =>
        pure <| match p.literal? r with
        | some (v, s) =>
          match signBit? s with
          | some bit =>
            if v &&& bit != 0 && v != bit then
              some (.binary flipped (.keep l) (.val ((0 - v) &&& widthMask s) s))
            else none
          | none => none
        | none => none
    else pure none
  | none => pure none

/-- Cancellation of an operator followed by its inverse. -/
def cancel : Rule := fun _ p e => do
  match ← p.unaryParts? e with
  | some (outer, inner) =>
    match ← p.unaryParts? inner with
    | some (innerOp, x) =>
      match outer, innerOp with
      | .addrOf, .deref | .deref, .addrOf | .neg, .neg | .bitNot, .bitNot => pure (some (.keep x))
      | _, _ => pure none
    | none => pure none
  | none => pure none

/-- A left shift undoing a right shift by the same amount: the low bits are cleared by a
    mask, at the width of the shifted value or else of the shift amount. -/
def shiftMask (p : Procedure) (l r : ExprId) : Except Error (Option Replacement) := do
  match ← p.binaryParts? l, p.literal? r with
  | some (.shr, x, c), some (shift, shiftSize) =>
    if (p.literal? c).map (·.1) == some shift && shift.toNat < 64 then
      let size := match ← p.widthOf x with
        | 0 => shiftSize
        | s => s
      let mask := ~~~(UInt64.ofNat (Nat.pow 2 shift.toNat) - 1) &&& widthMask size
      pure (some (.binary .bitAnd (.keep x) (.val mask size)))
    else pure none
  | _, _ => pure none

/-- Bitwise identities. -/
def bitwise : Rule := fun _ p e => do
  match ← p.binaryParts? e with
  | none => pure none
  | some (op, l, r) =>
    match op with
    | .bitXor =>
      if p.isLiteral r 0 then pure (some (.keep l))
      else if p.isLiteral l 0 then pure (some (.keep r))
      else if p.equals l r && p.isPure l then zeroAtWidthOf p l
      else if p.isAllOnes r then pure (some (.unary .bitNot (.keep l)))
      else pure none
    | .bitOr =>
      pure <| if p.isLiteral r 0 then some (.keep l)
      else if p.isLiteral l 0 then some (.keep r)
      else if p.equals l r && p.isPure r then some (.keep l)
      else if p.isAllOnes r && p.isPure l then some (.keep r)
      else none
    | .bitAnd =>
      pure <| if p.isLiteral r 0 && p.isPure l then some (.keep r)
      else if p.isLiteral l 0 && p.isPure r then some (.keep l)
      else if p.equals l r && p.isPure r then some (.keep l)
      else if p.isAllOnes r then some (.keep l)
      else if p.isAllOnes l then some (.keep r)
      else none
    | .shl => if p.isLiteral r 0 then pure (some (.keep l)) else shiftMask p l r
    | .shr => pure (if p.isLiteral r 0 then some (.keep l) else none)
    | _ => pure none

/-- Equality normalization: a literal added on the left moves to the right, and a difference
    compared with zero becomes a comparison of its operands. -/
def equality : Rule := fun _ p e => do
  match ← p.binaryParts? e with
  | some (op, l, r) =>
    if op == .eq || op == .ne then
      match ← p.binaryParts? l with
      | some (inner, x, y) =>
        if inner == .add || inner == .sub then
          match p.literal? y, p.literal? r with
          | some (c1, s1), some (c2, s2) =>
            let size ← combineWidth s1 s2
            let c3 := if inner == .add then c2 - c1 else c2 + c1
            pure (some (.binary op (.keep x) (.val (c3 &&& widthMask size) size)))
          | _, _ =>
            if p.isLiteral r 0 then
              let right : Replacement := if inner == .sub then .keep y else .unary .neg (.keep y)
              pure (some (.binary op (.keep x) right))
            else pure none
        else pure none
      | none => pure none
    else pure none
  | none => pure none

/-- Boolean negation: `!!x` is `x`, De Morgan's laws, `!(a + b)` is `a == -b`, `!(a - b)` is
    `a == b`, and a negated comparison is the opposite comparison. -/
def negate : Rule := fun _ p e => do
  match ← p.unaryParts? e with
  | some (.boolNot, inner) =>
    match ← p.unaryParts? inner with
    | some (.boolNot, x) => pure (some (.keep x))
    | _ =>
      match ← p.binaryParts? inner with
      | some (op, a, b) =>
        let no (x : ExprId) : Replacement := .unary .boolNot (.keep x)
        pure <| match op with
        | .boolAnd => some (.binary .boolOr (no a) (no b))
        | .boolOr => some (.binary .boolAnd (no a) (no b))
        | .add => some (.binary .eq (.keep a) (.unary .neg (.keep b)))
        | .sub => some (.binary .eq (.keep a) (.keep b))
        | cmp => cmp.negated?.map fun n => .binary n (.keep a) (.keep b)
      | none => pure none
  | _ => pure none

/-- The comparison that holds when either of two comparisons of the same operands does. -/
def mergedComparison? : BinaryOp → BinaryOp → Option BinaryOp
  | .gt, .eq | .eq, .gt => some .ge
  | .lt, .eq | .eq, .lt => some .le
  | .lt, .gt | .gt, .lt => some .ne
  | _, _ => none

/-- Two comparisons of the same operands joined by `||` merge into one. -/
def converged : Rule := fun _ p e => do
  match ← p.binaryParts? e with
  | some (.boolOr, l, r) =>
    let left ← p.binaryParts? l
    let right ← p.binaryParts? r
    pure <| match left, right with
    | some (op0, x0, y0), some (op1, x1, y1) =>
      if !p.equals x0 x1 || !p.equals y0 y1 || !p.isPure l then none
      else (mergedComparison? op0 op1).map fun m => .binary m (.keep x0) (.keep y0)
    | _, _ => none
  | _ => pure none

/-- Re-association: a literal operand of an inner operation joins the outer literal, for
    additions and subtractions together and for a repeated `*`, `&`, `|` or `^`. -/
def reassociate : Rule := fun _ p e => do
  match ← p.binaryParts? e with
  | none => pure none
  | some (outer, inner, r) =>
    match p.literal? r with
    | none => pure none
    | some (c2, s2) =>
      match ← p.binaryParts? inner with
      | none => pure none
      | some (innerOp, x, y) =>
        match p.literal? y with
        | none => pure none
        | some (c1, s1) =>
          if (p.node x).isVal then pure none else do
          let size ← combineWidth s1 s2
          let mask := widthMask size
          let additive (o : BinaryOp) : Bool := o == .add || o == .sub
          if additive outer && additive innerOp then
            let d1 := if innerOp == .add then c1 else 0 - c1
            let d := if outer == .add then d1 + c2 else d1 - c2
            pure (some (.binary .add (.keep x) (.val (d &&& mask) size)))
          else if outer == innerOp then
            let value? : Option UInt64 := match outer with
              | .mul => some (c1 * c2)
              | .bitAnd => some (c1 &&& c2)
              | .bitOr => some (c1 ||| c2)
              | .bitXor => some (c1 ^^^ c2)
              | _ => none
            pure (value?.map fun v => .binary outer (.keep x) (.val (v &&& mask) size))
          else pure none

/-- Constant folding of operations on literals, and the choice of a conditional's arm by a
    literal condition. -/
def fold : Rule := fun signed p e => do
  let x := p.node e
  match x.kind with
  | .binary op =>
    let l ← x.operandAt 0
    let r ← x.operandAt 1
    match p.literal? l, p.literal? r with
    | some (a, sa), some (b, sb) =>
      let size ← combineWidth sa sb
      pure ((← foldBinary op a b size signed).map fun (v, s) => .val v s)
    | _, _ => pure none
  | .unary op =>
    match p.literal? (← x.operandAt 0) with
    | some (a, size) => pure ((foldUnary op a size).map fun (v, s) => .val v s)
    | none => pure none
  | .tcond =>
    match p.literal? (← x.operandAt 0) with
    | some (c, _) => do pure (some (.keep (← x.operandAt (if c != 0 then 1 else 2))))
    | none => pure none
  | _ => pure none

end Rule

/-- The rules in the order they are tried. -/
def rules : List Rule :=
  [Rule.arith, Rule.sign, Rule.cancel, Rule.bitwise, Rule.equality, Rule.negate, Rule.converged,
   Rule.reassociate, Rule.fold]

/-- The replacement given by the first rule that applies to `e`. -/
def firstReplacement (signed : Bool) (p : Procedure) (e : ExprId) : Except Error (Option Replacement) :=
  go rules
where
  /-- The first of `rs` that applies. -/
  go : List Rule → Except Error (Option Replacement)
    | [] => .ok none
    | r :: rs => do
      match ← r signed p e with
      | some w => pure (some w)
      | none => go rs

end Decompilation
