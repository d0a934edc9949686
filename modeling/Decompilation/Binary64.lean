/-!
# Double-precision numbers

A double is a 64-bit word: a sign bit, an 11-bit biased exponent field and a 52-bit fraction
field. A finite double with exponent field `e` and fraction `f` has the magnitude
`(2^52 + f) · 2^(e - 1075)` when `e ≠ 0`, and `f · 2^(-1074)` when `e = 0` (the subnormals);
the field `2047` marks the infinities and the NaNs. An operation on doubles is the exact
operation on their magnitudes followed by one rounding to the nearest double: a tie goes to
the even significand, and a value beyond the largest finite double becomes infinite.

* `Binary64.ofRatio`: the double nearest to a fraction;
* `Binary64.mul`, `Binary64.div`: products and quotients of finite doubles, rounded once;
* `Binary64.ratio`: the magnitude of a finite double as a fraction;
* `Binary64.ofRatio_zero`: a zero fraction rounds to the zero of its sign.
-/

namespace Decompilation

/-- A double-precision number, given by its 64 bits. -/
structure Binary64 where
  bits : UInt64
  deriving DecidableEq, Repr

namespace Binary64

/-- Whether the sign bit is set. -/
def negative (x : Binary64) : Bool := x.bits >>> 63 == 1

/-- The biased exponent field. -/
def exponentField (x : Binary64) : Nat := (x.bits >>> 52).toNat % Nat.pow 2 11

/-- The fraction field. -/
def fractionField (x : Binary64) : Nat := x.bits.toNat % Nat.pow 2 52

/-- Whether the double is neither infinite nor a NaN. -/
def isFinite (x : Binary64) : Bool := x.exponentField != 2047

/-- Whether the double is a zero of either sign. -/
def isZero (x : Binary64) : Bool := x.exponentField == 0 && x.fractionField == 0

/-- The integer significand of a finite double, with the hidden bit of a normal one. -/
def significand (x : Binary64) : Nat :=
  if x.exponentField = 0 then x.fractionField else x.fractionField + Nat.pow 2 52

/-- The weight of the significand's lowest bit: the magnitude is `significand · 2^exponent`. -/
def exponent (x : Binary64) : Int :=
  if x.exponentField = 0 then -1074 else (x.exponentField : Int) - 1075

/-- The magnitude of a finite double as the fraction `num / den`. -/
def ratio (x : Binary64) : Nat × Nat :=
  if 0 ≤ x.exponent then (x.significand * Nat.pow 2 x.exponent.toNat, 1)
  else (x.significand, Nat.pow 2 (-x.exponent).toNat)

/-- The double of the given sign, exponent field and fraction field. -/
def encode (negative : Bool) (field fraction : Nat) : Binary64 :=
  ⟨UInt64.ofNat ((if negative then Nat.pow 2 63 else 0) + field * Nat.pow 2 52 + fraction)⟩

/-- The zero of a sign. -/
def zero (negative : Bool) : Binary64 := encode negative 0 0

/-- The infinity of a sign. -/
def infinity (negative : Bool) : Binary64 := encode negative 2047 0

/-- The double with the sign bit clear. -/
def abs (x : Binary64) : Binary64 := ⟨x.bits &&& ((1 : UInt64) <<< 63 - 1)⟩

/-- The double with the other sign. -/
def neg (x : Binary64) : Binary64 := ⟨x.bits ^^^ ((1 : UInt64) <<< 63)⟩

/-- `⌊log₂ (num / den)⌋`, for positive `num` and `den`: the binary logarithms of the two
    numbers leave only two candidates, and one comparison picks one. -/
def floorLog2 (num den : Nat) : Int :=
  let g : Int := (num.log2 : Int) - den.log2
  let atLeast := if 0 ≤ g then den * Nat.pow 2 g.toNat ≤ num else den ≤ num * Nat.pow 2 (-g).toNat
  if atLeast then g else g - 1

/-- `n / d` rounded to the nearest natural number, a tie to the even one. -/
def roundHalfEven (n d : Nat) : Nat :=
  let q := n / d
  let r := n % d
  if 2 * r < d then q else if d < 2 * r then q + 1 else if q % 2 = 0 then q else q + 1

/-- The double of sign `negative` nearest to `num / den`. The significand is taken at the
    weight `2^q` that leaves it 53 bits, or at the subnormal weight `2^(-1074)` below that;
    a carry out of the 53 bits moves one binade up, and past the largest binade the result is
    infinite. A zero fraction, or a zero denominator, gives zero. -/
def ofRatio (negative : Bool) (num den : Nat) : Binary64 :=
  if num = 0 ∨ den = 0 then zero negative
  else
    let q : Int := max (floorLog2 num den - 52) (-1074)
    let m := if 0 ≤ q then roundHalfEven num (den * Nat.pow 2 q.toNat)
      else roundHalfEven (num * Nat.pow 2 (-q).toNat) den
    let (m, q) := if m = Nat.pow 2 53 then (Nat.pow 2 52, q + 1) else (m, q)
    if 971 < q then infinity negative
    else if m < Nat.pow 2 52 then encode negative 0 m
    else encode negative (q + 1075).toNat (m - Nat.pow 2 52)

/-- The double nearest to a natural number. -/
def ofNat (n : Nat) : Binary64 := ofRatio false n 1

/-- The product of two finite doubles, rounded once. -/
def mul (x y : Binary64) : Binary64 :=
  let (a, b) := x.ratio
  let (c, d) := y.ratio
  ofRatio (x.negative != y.negative) (a * c) (b * d)

/-- The quotient of a finite double by a finite nonzero one, rounded once. -/
def div (x y : Binary64) : Binary64 :=
  let (a, b) := x.ratio
  let (c, d) := y.ratio
  ofRatio (x.negative != y.negative) (a * d) (b * c)

/-- A zero fraction rounds to the zero of its sign, whatever the denominator. -/
@[simp]
theorem ofRatio_zero (negative : Bool) (den : Nat) :
    ofRatio negative 0 den = zero negative := by
  simp [ofRatio]

end Binary64

end Decompilation
