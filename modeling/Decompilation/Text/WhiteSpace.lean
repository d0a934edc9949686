/-!
# White space

The characters with the Unicode property `White_Space`: the ASCII tab, line feed, vertical tab,
form feed, carriage return and space, the next line `U+0085`, the no-break space `U+00A0`, the
Ogham space mark, the spaces `U+2000` to `U+200A`, the line and paragraph separators, the narrow
no-break space, the medium mathematical space and the ideographic space. Numerals in requests
may be padded with any of them.

* `isWhiteSpace`: membership in the property;
* `trimWhiteSpace`: a text without white space at either end;
* `isWhiteSpace_of_isWhitespace`: the property holds of every character core counts as white
  space.
-/

namespace Decompilation

/-- Whether a character has the Unicode property `White_Space`. -/
def isWhiteSpace (c : Char) : Bool :=
  let n := c.toNat
  (0x9 ≤ n && n ≤ 0xD) || n == 0x20 || n == 0x85 || n == 0xA0 || n == 0x1680 ||
    (0x2000 ≤ n && n ≤ 0x200A) || n == 0x2028 || n == 0x2029 || n == 0x202F ||
    n == 0x205F || n == 0x3000

/-- A text without the white space at its two ends. -/
def trimWhiteSpace (s : String) : String :=
  String.ofList ((s.toList.dropWhile isWhiteSpace).reverse.dropWhile isWhiteSpace).reverse

/-- The white space core knows (space, tab, line feed, carriage return) has the property. -/
theorem isWhiteSpace_of_isWhitespace {c : Char} (h : c.isWhitespace = true) :
    isWhiteSpace c = true := by
  simp only [Char.isWhitespace, Bool.or_eq_true, decide_eq_true_eq] at h
  rcases h with ((h | h) | h) | h <;> subst h <;> decide

end Decompilation
