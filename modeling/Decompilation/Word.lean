/-!
# Machine words

The values a decompiler manipulates are 64-bit words. A literal of the intermediate
representation also carries a bit width, the number of low bits that are meaningful;
width `0` stands for an unknown width, and any width of 64 or more covers the whole word.

* `widthMask`: the word with exactly the meaningful bits set;
* `signedValue`: the two's-complement reading of the meaningful bits;
* `ofInt`: an integer reduced modulo `2 ^ 64`;
* `hex`: the `0x`-prefixed lowercase hexadecimal text of a number.
-/

namespace Decompilation

/-- The number of meaningful bits of a word of width `size`: an unknown width (`0`) and any
    width past 64 mean the whole word. -/
def effectiveWidth (size : Nat) : Nat :=
  if size = 0 ∨ 64 ≤ size then 64 else size

/-- The word whose low `size` bits are set and all others clear; for an unknown width or a
    width of 64 and more it is the word of all ones. -/
def widthMask (size : Nat) : UInt64 :=
  UInt64.ofNat (Nat.pow 2 (effectiveWidth size) - 1)

/-- The two's-complement value of the low bits of `value` at width `size`: the bit below the
    width is the sign. -/
def signedValue (value : UInt64) (size : Nat) : Int :=
  let w := effectiveWidth size
  let v := value.toNat % Nat.pow 2 w
  if Nat.pow 2 (w - 1) ≤ v then (v : Int) - Int.pow 2 w else v

/-- The word that an integer wraps to: its residue modulo `2 ^ 64`. -/
def ofInt (i : Int) : UInt64 :=
  UInt64.ofInt i

/-- The text of a number in lowercase hexadecimal digits after `0x`, as `0x401000`. -/
def hex (n : Nat) : String :=
  "0x" ++ String.ofList (Nat.toDigits 16 n)

end Decompilation
