import Decompilation.Binary64

/-!
# Shortest text of a double

A double is written with the fewest significant digits that read back as that same double; of
two such digit strings of equal length, the one nearer to the double wins, and of two equally
near, the one ending in an even digit. The digits stand positionally for magnitudes from
`10^-5` up to below `10^16`, with at least one digit after the point (`1000.0`, `0.00001`), and
in scientific form outside that range, with a signed exponent without padding (`1e-7`,
`1e+16`, `1.8446744073709552e+19`). A zero keeps its sign (`-0.0`).

* `Shortest.digits`: the shortest digits of a finite nonzero double and the position of its
  decimal point;
* `Shortest.layout`: positional or scientific text of digits and a point;
* `Shortest.render`: the text of a finite double.
-/

namespace Decompilation

namespace Shortest

/-- Whether `10^k ≤ num / den`. -/
def powTenLe (num den : Nat) (k : Int) : Bool :=
  if 0 ≤ k then Nat.pow 10 k.toNat * den ≤ num else den ≤ num * Nat.pow 10 (-k).toNat

/-- The exponent `k` with `10^k ≤ num / den < 10^(k+1)`, for a positive fraction. -/
def decimalExponent (num den : Nat) : Int :=
  let guess : Int := ((Nat.toDigits 10 num).length : Int) - (Nat.toDigits 10 den).length
  -- the guess is off by at most one either way
  let candidates := [guess + 1, guess, guess - 1, guess - 2]
  (candidates.find? fun k => powTenLe num den k).getD (guess - 2)

/-- The positive double nearest to `c · 10^t`. -/
def scaled (c : Nat) (t : Int) : Binary64 :=
  if 0 ≤ t then Binary64.ofRatio false (c * Nat.pow 10 t.toNat) 1
  else Binary64.ofRatio false c (Nat.pow 10 (-t).toNat)

/-- The fewest significant digits that read back as the magnitude of a finite nonzero double,
    and the position of the decimal point (`0.d₁d₂… · 10^point`). For each length, the two
    decimals of that length around the double are the only candidates: any other one lies
    farther on the same side. -/
def digits (x : Binary64) : List Char × Int :=
  let (num, den) := x.ratio
  let k := decimalExponent num den
  let readsBack (c : Nat) (t : Int) : Bool := (scaled c t).bits == x.abs.bits
  let attempt (n : Nat) : Option (Nat × Int) :=
    -- candidates with `n` significant digits: `c · 10^t` below and above the double
    let s : Int := (n : Int) - 1 - k
    let low := if 0 ≤ s then num * Nat.pow 10 s.toNat / den else num / (den * Nat.pow 10 (-s).toNat)
    let t := -s
    -- the double against `low + 1/2`, both scaled by `2 · den · 10^s`
    let (twice, middle) :=
      if 0 ≤ s then (2 * num * Nat.pow 10 s.toNat, (2 * low + 1) * den)
      else (2 * num, (2 * low + 1) * den * Nat.pow 10 (-s).toNat)
    let nearer :=
      if twice < middle then low else if middle < twice then low + 1
      else if low % 2 = 0 then low else low + 1
    match readsBack low t && low ≠ 0, readsBack (low + 1) t with
    | true, true => some (nearer, t)
    | true, false => some (low, t)
    | false, true => some (low + 1, t)
    | false, false => none
  let found := ((List.range 17).map (· + 1)).findSome? attempt
  let (c, t) := found.getD (num / den, 0)
  let ds := Nat.toDigits 10 c
  let point : Int := ds.length + t
  (ds.reverse.dropWhile (· == '0') |>.reverse, point)

/-- The layout of significant digits `ds` with the decimal point at `point`: positional for
    `-5 < point ≤ 16`, scientific otherwise. -/
def layout (ds : List Char) (point : Int) : String :=
  let d := String.ofList ds
  let zeros (n : Nat) := String.ofList (List.replicate n '0')
  if 0 < point ∧ point ≤ 16 then
    if ds.length ≤ point.toNat then d ++ zeros (point.toNat - ds.length) ++ ".0"
    else String.ofList (ds.take point.toNat) ++ "." ++ String.ofList (ds.drop point.toNat)
  else if -5 < point ∧ point ≤ 0 then "0." ++ zeros (-point).toNat ++ d
  else
    let rest := if ds.length > 1 then "." ++ String.ofList ds.tail else ""
    let e := point - 1
    String.ofList [ds.headD '0'] ++ rest ++ "e" ++ (if e < 0 then "-" else "+") ++
      toString e.natAbs

/-- The text of a double: its sign, then the layout of its shortest digits; a zero is `0.0`
    with its sign, and an infinity `inf` with its sign. -/
def render (x : Binary64) : String :=
  let sign := if x.negative then "-" else ""
  if x.isZero then sign ++ "0.0"
  else if !x.isFinite then sign ++ "inf"
  else
    let (ds, point) := digits x
    sign ++ layout ds point

end Shortest

end Decompilation
