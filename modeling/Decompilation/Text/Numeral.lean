import Decompilation.Text.WhiteSpace

/-!
# Numerals

Addresses, values and sizes arrive as numerals. A numeral is a 64-bit word written

* in decimal, from `0` to `2^64 - 1`;
* in hexadecimal after `0x` or `0X`, up to `0xffffffffffffffff`, digits in either case;
* as `-` before a decimal from `0` to `2^64 - 1`, standing for its negation modulo `2^64`.

White space around the numeral is ignored, and each digit string may carry one `+` in front.
Nothing else is read: no blanks inside, no separators, no empty digit string, and no
hexadecimal after `-`.

* `Numeral.readWord?`: the word a numeral stands for.
-/

namespace Decompilation

namespace Numeral

/-- The value of a digit in `base`, for bases up to sixteen; letters in either case. -/
def digitValue? (base : Nat) (c : Char) : Option Nat :=
  let v? : Option Nat :=
    if '0' ≤ c ∧ c ≤ '9' then some (c.toNat - '0'.toNat)
    else if 'a' ≤ c ∧ c ≤ 'f' then some (c.toNat - 'a'.toNat + 10)
    else if 'A' ≤ c ∧ c ≤ 'F' then some (c.toNat - 'A'.toNat + 10)
    else none
  v?.filter (· < base)

/-- The value of a non-empty string of digits in `base`. -/
def digits? (base : Nat) (cs : List Char) : Option Nat :=
  if cs.isEmpty then none
  else cs.foldlM (fun n c => (digitValue? base c).map (n * base + ·)) 0

/-- The value of an unsigned numeral in `base`: digits, with at most one `+` in front. -/
def unsigned? (base : Nat) : List Char → Option Nat
  | '+' :: ds => digits? base ds
  | ds => digits? base ds

/-- A natural number as a word, when it fits. -/
def wordOfNat? (n : Nat) : Option UInt64 := if n < Nat.pow 2 64 then some n.toUInt64 else none

/-- The word a numeral stands for. -/
def readWord? (s : String) : Option UInt64 :=
  match (trimWhiteSpace s).toList with
  | '0' :: 'x' :: ds | '0' :: 'X' :: ds => (unsigned? 16 ds).bind wordOfNat?
  | '-' :: ds => (unsigned? 10 ds).bind wordOfNat? |>.map fun w => 0 - w
  | ds => (unsigned? 10 ds).bind wordOfNat?

theorem digitValue?_lt {base : Nat} {c : Char} {v : Nat} (h : digitValue? base c = some v) :
    v < base := by
  unfold digitValue? at h
  simp only [Option.filter_eq_some_iff] at h
  simpa using h.2

end Numeral

end Decompilation
