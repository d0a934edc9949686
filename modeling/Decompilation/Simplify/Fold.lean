import Decompilation.Ir.Op
import Decompilation.Error

/-!
# Constant folding

The arithmetic of literals. Two literals combine at the width they share: an unknown width
(`0`) takes the other one, and two different known widths are an error. Operations wrap
around at 64 bits and the result is masked to the width; signed division, remainder, right
shift and ordered comparisons read the operands as two's-complement numbers of that width.
Comparisons and the boolean connectives give `0` or `1` of unknown width. Division and
remainder by the word zero are left alone; a signed one by a divisor whose bits within the
width are all zero has no value and is an error. A shift by 64 or more moves every bit out (a
signed right shift then leaves only copies of the sign).

* `combineWidth`: the shared width of two literals;
* `foldBinary`, `foldUnary`: the value of an operation on literals, when it has one.
-/

namespace Decompilation

/-- The width two literals combine at: a known width wins over an unknown one, and two known
    widths must agree. -/
def combineWidth (l r : Nat) : Except Error Nat :=
  if l = 0 then .ok r
  else if r = 0 then .ok l
  else if l = r then .ok l
  else .error (.operandWidth l r)

@[simp]
theorem combineWidth_zero_left (w : Nat) : combineWidth 0 w = .ok w := rfl

@[simp]
theorem combineWidth_zero_right (w : Nat) : combineWidth w 0 = .ok w := by
  unfold combineWidth
  split <;> simp_all

@[simp]
theorem combineWidth_self (w : Nat) : combineWidth w w = .ok w := by
  unfold combineWidth
  split <;> simp_all

/-- A truth value as a literal of unknown width. -/
def truthLiteral (b : Bool) : UInt64 × Nat := (if b then 1 else 0, 0)

/-- A right shift of a two's-complement number by `n` places, rounding down; by 64 places or
    more only the sign is left. -/
def signedShiftRight (x : Int) (n : Nat) : Int :=
  if n < 64 then x.fdiv (Int.pow 2 n) else if x < 0 then -1 else 0

/-- The literal `a op b` at width `size`, in unsigned or signed arithmetic; none for a
    division or remainder by zero, and an error for a signed one by a divisor that is zero
    only at the width. -/
def foldBinary (op : BinaryOp) (a b : UInt64) (size : Nat) (signed : Bool) :
    Except Error (Option (UInt64 × Nat)) :=
  let sa := signedValue a size
  let sb := signedValue b size
  let masked (v : UInt64) : Except Error (Option (UInt64 × Nat)) :=
    pure (some (v &&& widthMask size, size))
  let truth (b : Bool) : Except Error (Option (UInt64 × Nat)) := pure (some (truthLiteral b))
  match op with
  | .add => masked (a + b)
  | .sub => masked (a - b)
  | .mul => masked (a * b)
  | .div =>
    if b = 0 then pure none
    else if signed then
      if sb = 0 then throw (.divisionByZero false) else masked (ofInt (sa.tdiv sb))
    else masked (a / b)
  | .mod =>
    if b = 0 then pure none
    else if signed then
      if sb = 0 then throw (.divisionByZero true) else masked (ofInt (sa.tmod sb))
    else masked (a % b)
  | .bitAnd => masked (a &&& b)
  | .bitOr => masked (a ||| b)
  | .bitXor => masked (a ^^^ b)
  | .shl => masked (if b.toNat < 64 then a <<< b else 0)
  | .shr =>
    if signed then masked (ofInt (signedShiftRight sa b.toNat))
    else masked (if b.toNat < 64 then a >>> b else 0)
  | .eq => truth (a == b)
  | .ne => truth (a != b)
  | .lt => truth (if signed then decide (sa < sb) else decide (a < b))
  | .gt => truth (if signed then decide (sa > sb) else decide (a > b))
  | .le => truth (if signed then decide (sa ≤ sb) else decide (a ≤ b))
  | .ge => truth (if signed then decide (sa ≥ sb) else decide (a ≥ b))
  | .boolAnd => truth (a != 0 && b != 0)
  | .boolOr => truth (a != 0 || b != 0)

/-- The literal `op a` at width `size`: negation and complement wrap and are masked, boolean
    negation gives a truth value; none for dereference and address-of. -/
def foldUnary (op : UnaryOp) (a : UInt64) (size : Nat) : Option (UInt64 × Nat) :=
  match op with
  | .neg => some ((0 - a) &&& widthMask size, size)
  | .bitNot => some (~~~a &&& widthMask size, size)
  | .boolNot => some (truthLiteral (a == 0))
  | .deref | .addrOf => none

end Decompilation
