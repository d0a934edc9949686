import Decompilation.Graph.Dot

/-!
# Escaped labels read back

The label of a box in a DOT text stands between double quotes, so the text of the label is
escaped: a backslash, a quote and the record delimiters `<` and `>` get a backslash in front, a
line break becomes the left-justifying break `\l`, and a carriage return is dropped. Written
as a chain of whole-text replacements, the backslashes are doubled first, so that the later
replacements, which bring in backslashes of their own, leave them alone
(`escapeLabel_eq_replacements`).

`unescapeLabel` reads an escaped label back, and refuses a text that is no escaped label: one
with a backslash that begins none of the five pairs, or with a quote, a line break or a
carriage return outside a pair. The escaping is undone exactly, up to the carriage returns it
drops, and what is read back is escaped again into the text it was read from
(`escapeLabel_invertible`).
-/

namespace Decompilation

/-- Every occurrence of `a` replaced by `r`. -/
def replaceAll (a : Char) (r : List Char) (l : List Char) : List Char :=
  l.flatMap fun c => if c = a then r else [c]

/-- The character an escape pair stands for, by the character after its backslash. -/
def unescapePair : Char → Option Char
  | '\\' => some '\\'
  | '"' => some '"'
  | 'l' => some '\n'
  | '<' => some '<'
  | '>' => some '>'
  | _ => none

/-- The characters the escaping never writes alone: those it writes as a pair, and the
    carriage return, which it drops. -/
def escapedChars : List Char := ['\\', '"', '\n', '\r', '<', '>']

/-- Reads an escaped label back: a backslash and the character after it stand for the
    character of the pair (`unescapePair`), and any other character stands for itself. A
    backslash that begins no pair, and any other of the `escapedChars` standing alone, make the
    text no escaped label. -/
def unescapeLabel : List Char → Option (List Char)
  | [] => some []
  | '\\' :: c :: rest => (unescapePair c).bind fun d => (unescapeLabel rest).map (d :: ·)
  | c :: rest => if c ∈ escapedChars then none else (unescapeLabel rest).map (c :: ·)

/-- The characters of a label after escaping. -/
theorem toList_escapeLabel (s : String) : (escapeLabel s).toList = s.toList.flatMap escapeChar := by
  simp [escapeLabel]

/-- The escaping is the chain of six whole-text replacements, backslashes first. -/
theorem escapeLabel_eq_replacements (s : String) :
    escapeLabel s = String.ofList (replaceAll '>' ['\\', '>'] (replaceAll '<' ['\\', '<']
      (replaceAll '\n' ['\\', 'l'] (replaceAll '\r' [] (replaceAll '"' ['\\', '"']
        (replaceAll '\\' ['\\', '\\'] s.toList)))))) := by
  -- each replacement works character by character, so the chain does too; on one character,
  -- only the replacement of that character changes it, and no later one touches what it wrote
  have hchar : ∀ c, escapeChar c = replaceAll '>' ['\\', '>'] (replaceAll '<' ['\\', '<']
      (replaceAll '\n' ['\\', 'l'] (replaceAll '\r' [] (replaceAll '"' ['\\', '"']
        (replaceAll '\\' ['\\', '\\'] [c]))))) := by
    intro c
    by_cases h₁ : c = '\\'; · subst h₁; decide
    by_cases h₂ : c = '"'; · subst h₂; decide
    by_cases h₃ : c = '\r'; · subst h₃; decide
    by_cases h₄ : c = '\n'; · subst h₄; decide
    by_cases h₅ : c = '<'; · subst h₅; decide
    by_cases h₆ : c = '>'; · subst h₆; decide
    simp [escapeChar, replaceAll, h₁, h₂, h₃, h₄, h₅, h₆]
  rw [escapeLabel]
  refine congrArg String.ofList ?_
  induction s.toList with
  | nil => rfl
  | cons c l ih =>
    rw [List.flatMap_cons, ih, hchar c]
    simp [replaceAll, List.flatMap_append]

/-- A pair is the escape of the character it stands for, which is no carriage return. -/
theorem escapeChar_of_unescapePair {c d : Char} (h : unescapePair c = some d) :
    escapeChar d = ['\\', c] ∧ d ≠ '\r' := by
  unfold unescapePair at h
  split at h <;> simp only [Option.some.injEq, reduceCtorEq] at h <;> subst h <;> decide

/-- A character outside the `escapedChars` is written as it is. -/
theorem escapeChar_of_not_mem {c : Char} (h : c ∉ escapedChars) : escapeChar c = [c] := by
  unfold escapeChar
  split <;> simp_all [escapedChars]

/-- Reading back the escape of one character in front of a text. -/
theorem unescapeLabel_escapeChar_append (c : Char) (rest : List Char) :
    unescapeLabel (escapeChar c ++ rest) =
      (unescapeLabel rest).map ((if c = '\r' then [] else [c]) ++ ·) := by
  by_cases hc : c ∈ escapedChars
  · -- each of these is written as a pair, or dropped
    simp only [escapedChars, List.mem_cons, List.not_mem_nil, or_false] at hc
    rcases hc with rfl | rfl | rfl | rfl | rfl | rfl <;>
      simp [escapeChar, unescapeLabel, unescapePair]
  · -- a plain character is written as it is and read as it is
    have hb : c ≠ '\\' := fun h => hc (by simp [h, escapedChars])
    have hr : c ≠ '\r' := fun h => hc (by simp [h, escapedChars])
    rw [escapeChar_of_not_mem hc, List.singleton_append, unescapeLabel.eq_3 _ _ (by simp [hb])]
    simp [hc, hr]

/-- The escape of a text reads back as the text without its carriage returns. -/
theorem unescapeLabel_flatMap_escapeChar (l : List Char) :
    unescapeLabel (l.flatMap escapeChar) = some (l.filter (· ≠ '\r')) := by
  induction l with
  | nil => rfl
  | cons c l ih =>
    rw [List.flatMap_cons, unescapeLabel_escapeChar_append, ih]
    by_cases hc : c = '\r' <;> simp [hc]

/-- What reads back as `u` is the escape of `u`, which holds no carriage return. The induction
    follows the reading: a pair, or a plain character. -/
theorem eq_flatMap_escapeChar_of_unescapeLabel {t u : List Char} (h : unescapeLabel t = some u) :
    t = u.flatMap escapeChar ∧ '\r' ∉ u := by
  fun_induction unescapeLabel t generalizing u with
  | case1 =>
    obtain rfl : u = [] := by simpa using h.symm
    simp
  | case2 c rest ih =>
    simp only [Option.bind_eq_some_iff, Option.map_eq_some_iff] at h
    obtain ⟨d, hd, w, hw, rfl⟩ := h
    obtain ⟨rfl, hr⟩ := ih hw
    have hpair := escapeChar_of_unescapePair hd
    simp [hpair.1, hpair.2.symm, hr]
  | case3 c rest _ hc => simp at h
  | case4 c rest _ hc ih =>
    simp only [Option.map_eq_some_iff] at h
    obtain ⟨w, hw, rfl⟩ := h
    obtain ⟨rfl, hr⟩ := ih hw
    have hcr : c ≠ '\r' := fun h => hc (by simp [h, escapedChars])
    simp [escapeChar_of_not_mem hc, hr, Ne.symm hcr]

/-- Escaping a label is undone by reading it back, up to the carriage returns it drops: every
    backslash of the escaped text begins one of the pairs `\\`, `\"`, `\l`, `\<`, `\>`, no
    quote, line break, carriage return, `<` or `>` stands outside a pair, and reading the pairs back
    gives the label without its carriage returns. Conversely, every text that reads back is
    the escape of what it reads back as. -/
theorem escapeLabel_invertible :
    (∀ s : String, unescapeLabel (escapeLabel s).toList = some (s.toList.filter (· ≠ '\r'))) ∧
      ∀ t u, unescapeLabel t = some u → t = (escapeLabel (String.ofList u)).toList := by
  refine ⟨fun s => ?_, fun t u h => ?_⟩
  · rw [toList_escapeLabel]
    exact unescapeLabel_flatMap_escapeChar s.toList
  · rw [toList_escapeLabel, String.toList_ofList]
    exact (eq_flatMap_escapeChar_of_unescapeLabel h).1

example : unescapeLabel (escapeLabel "a<b\r\n\"c\\").toList = some "a<b\n\"c\\".toList := by
  decide

end Decompilation
