import Decompilation.Json.Basic
import Decompilation.Text.Numeral

/-!
# Reading JSON

A request is one JSON document. The reader takes it character by character and stops at the
first fault, which it reports with its line and its column. Lines count from one; a column is
the number of bytes of the line up to the place of the fault. A fault found on reading a
character stands after that character; a fault found on looking at the next character stands
on it, at its first byte (at the end of the text, on the last byte).

Numbers follow the integer rules of `JsonNumber`; every other number becomes a double in two
roundings: its decimal digits, as many as fit 64 bits (the others dropped, an integer digit
raising the exponent), become the nearest double, which is then multiplied or divided by the
double nearest to the power of ten of the exponent (a divisor above `10^308` first divides by
`10^308`). A product that overflows is a fault. Strings take the escapes of JSON; a `\u`
escape of a surrogate must pair a leading one with a trailing one. Arrays and objects nest to
any depth, and of two members with one key the later stays.

* `Json.decimalDouble`: the double a decimal significand and exponent become;
* `Json.read`: the document of a text, or the fault that stops it.
-/

namespace Decompilation

namespace Json

/-- What stops the reader. -/
inductive ReadFault where
  | eofWhileParsingList
  | eofWhileParsingObject
  | eofWhileParsingString
  | eofWhileParsingValue
  | expectedColon
  | expectedListCommaOrEnd
  | expectedObjectCommaOrEnd
  | expectedSomeIdent
  | expectedSomeValue
  | invalidEscape
  | invalidNumber
  | numberOutOfRange
  | controlCharacterWhileParsingString
  | keyMustBeAString
  | loneLeadingSurrogateInHexEscape
  | trailingComma
  | trailingCharacters
  | unexpectedEndOfHexEscape
  deriving DecidableEq, Repr

/-- The words of a fault. -/
def ReadFault.description : ReadFault → String
  | .eofWhileParsingList => "EOF while parsing a list"
  | .eofWhileParsingObject => "EOF while parsing an object"
  | .eofWhileParsingString => "EOF while parsing a string"
  | .eofWhileParsingValue => "EOF while parsing a value"
  | .expectedColon => "expected `:`"
  | .expectedListCommaOrEnd => "expected `,` or `]`"
  | .expectedObjectCommaOrEnd => "expected `,` or `\x7d`"
  | .expectedSomeIdent => "expected ident"
  | .expectedSomeValue => "expected value"
  | .invalidEscape => "invalid escape"
  | .invalidNumber => "invalid number"
  | .numberOutOfRange => "number out of range"
  | .controlCharacterWhileParsingString =>
    "control character (\\u0000-\\u001F) found while parsing a string"
  | .keyMustBeAString => "key must be a string"
  | .loneLeadingSurrogateInHexEscape => "lone leading surrogate in hex escape"
  | .trailingComma => "trailing comma"
  | .trailingCharacters => "trailing characters"
  | .unexpectedEndOfHexEscape => "unexpected end of hex escape"

/-- A fault and where it stands. -/
structure ReadError where
  fault : ReadFault
  line : Nat
  column : Nat
  deriving DecidableEq, Repr

/-- The text of a fault with its place, as `expected value at line 1 column 47`. -/
def ReadError.message (e : ReadError) : String :=
  e.fault.description ++ " at line " ++ toString e.line ++ " column " ++ toString e.column

/-- The characters not read yet, and the place reached: bytes read, the current line and the
    byte where it starts. -/
structure Cursor where
  rest : List Char
  index : Nat := 0
  line : Nat := 1
  lineStart : Nat := 0
  deriving Repr

namespace Cursor

/-- The place after one more character, whatever is left to read. -/
def advance (c : Cursor) (ch : Char) : Cursor :=
  let i := c.index + ch.utf8Size
  if ch = '\n' then { c with index := i, line := c.line + 1, lineStart := i }
  else { c with index := i }

/-- The cursor after reading `taken`, the characters that start the rest. -/
def consume (c : Cursor) (taken : List Char) : Cursor :=
  { taken.foldl advance c with rest := c.rest.drop taken.length }

/-- The cursor past the blanks of JSON: space, tab, line feed and carriage return. -/
def skipBlanks (c : Cursor) : Cursor :=
  c.consume (c.rest.takeWhile fun ch => ch = ' ' || ch = '\n' || ch = '\t' || ch = '\r')

/-- The line and the start of the line at `k` bytes past the place, at most at the end. -/
def lineAt (c : Cursor) (k : Nat) : Nat × Nat :=
  go c.rest 0 c.line c.lineStart
where
  /-- Line feeds among the first `k` bytes start new lines. -/
  go : List Char → Nat → Nat → Nat → Nat × Nat
    | [], _, line, start => (line, start)
    | ch :: rest, offset, line, start =>
      if k ≤ offset then (line, start)
      else if ch = '\n' then go rest (offset + 1) (line + 1) (c.index + offset + 1)
      else go rest (offset + ch.utf8Size) line start

/-- The fault `f` standing `k` bytes past the place, at most at the end of the text. -/
def errorAt (c : Cursor) (f : ReadFault) (k : Nat) : ReadError :=
  let size := (c.rest.map Char.utf8Size).foldl (· + ·) 0
  let (line, start) := c.lineAt k
  { fault := f, line, column := c.index + min k size - start }

end Cursor

/-- A reader: the state is the cursor. -/
abbrev Reader := StateT Cursor (Except ReadError)

/-- Stops with `f`, `k` bytes past the place. -/
def failAt {α : Type} (f : ReadFault) (k : Nat) : Reader α := do
  throw ((← get).errorAt f k)

/-- The next character, not read. -/
def peek : Reader (Option Char) := do return (← get).rest.head?

/-- Reads the characters `taken`, which start the rest. -/
def take (taken : List Char) : Reader Unit := modify fun c => c.consume taken

/-- The next character after the blanks, not read. -/
def peekPastBlanks : Reader (Option Char) := do
  modify Cursor.skipBlanks
  peek

/-- Reads the decimal digits that come next. -/
def digitRun : Reader (List Char) := do
  let ds := (← get).rest.takeWhile Char.isDigit
  take ds
  return ds

/-- The value of a decimal digit. -/
def digitOf (d : Char) : Nat := d.toNat - '0'.toNat

/-- Digits appended to `s` while the value stays below `bound`, and the digits left from the
    first one that would reach it. -/
def accumulate (bound s : Nat) : List Char → Nat × List Char
  | [] => (s, [])
  | d :: ds =>
    let v := s * 10 + digitOf d
    if v < bound then accumulate bound v ds else (s, d :: ds)

/-- The double nearest to `10^k`. -/
def powTen (k : Nat) : Binary64 := Binary64.ofNat (Nat.pow 10 k)

/-- The double of the decimal `s · 10^e`: `s` rounded to a double, then multiplied or divided
    by `powTen |e|`; a divisor beyond `10^308` is taken `10^308` at a time, until the quotient
    is zero or the rest of the exponent is small enough. None for a product that overflows,
    or for a nonzero significand with an exponent beyond `308`. -/
def decimalDouble (s : Nat) (e : Int) : Option Binary64 :=
  -- each division by `10^308` leaves at most two more steps
  go 8 (Binary64.ofNat s) e
where
  /-- At most `fuel` more divisions of `f` by `10^308`. -/
  go : Nat → Binary64 → Int → Option Binary64
    | 0, f, _ => some f
    | fuel + 1, f, e =>
      if e.natAbs ≤ 308 then
        if 0 ≤ e then
          let g := f.mul (powTen e.natAbs)
          if g.isFinite then some g else none
        else some (f.div (powTen e.natAbs))
      else if f.isZero then some f
      else if 0 ≤ e then none
      else go fuel (f.div (powTen 308)) (e + 308)

/-- An exponent kept within 32 signed bits. -/
def clampExponent (e : Int) : Int := max (-(Int.pow 2 31)) (min (Int.pow 2 31 - 1) e)

/-- The number of sign `positive` with significand `s` and decimal exponent `e`, read as a
    double; a product that overflows stops the reader after the number. -/
def fromParts (positive : Bool) (s : Nat) (e : Int) : Reader JsonNumber :=
  match decimalDouble s e with
  | some f => pure (.double (if positive then f else f.neg))
  | none => failAt .numberOutOfRange 0

/-- Reads an exponent after its letter, for a number of significand `s` whose digits left the
    decimal exponent `start`. An exponent beyond 32 bits makes a number with a nonzero
    significand and a positive exponent a fault, and any other one a zero. -/
def exponentPart (positive : Bool) (s : Nat) (start : Int) : Reader JsonNumber := do
  take ['e']
  let up ← match ← peek with
    | some '+' => do take ['+']; pure true
    | some '-' => do take ['-']; pure false
    | _ => pure true
  let c ← get
  match c.rest with
  | [] => failAt .eofWhileParsingValue 0
  | d :: _ =>
    if !d.isDigit then failAt .invalidNumber 1
    else
      let ds := c.rest.takeWhile Char.isDigit
      let (e, left) := accumulate (Nat.pow 2 31) 0 ds
      if left.isEmpty then
        take ds
        fromParts positive s (clampExponent (if up then start + e else start - e))
      else if s ≠ 0 && up then
        throw (c.errorAt .numberOutOfRange (ds.length - left.length + 1))
      else
        take ds
        pure (.double (Binary64.zero (!positive)))

/-- Reads a fraction after its point, for a number of significand `s` and decimal exponent
    `e` so far. -/
def fractionPart (positive : Bool) (s : Nat) (e : Int) : Reader JsonNumber := do
  take ['.']
  let ds ← digitRun
  if ds.isEmpty then
    match ← peek with
    | some _ => failAt .invalidNumber 1
    | none => failAt .eofWhileParsingValue 1
  else
    let (s, left) := accumulate (Nat.pow 2 64) s ds
    let e := e - (ds.length - left.length : Nat)
    match ← peek with
    | some 'e' | some 'E' => exponentPart positive s e
    | _ => fromParts positive s e

/-- The number after the integer digits: significand `s`, with `extra` integer digits dropped
    when they did not fit 64 bits. -/
def afterInteger (positive : Bool) (s extra : Nat) : Reader JsonNumber := do
  match ← peek with
  | some '.' => fractionPart positive s extra
  | some 'e' | some 'E' => exponentPart positive s extra
  | _ =>
    if extra ≠ 0 then fromParts positive s extra
    else if positive then pure (.natural s.toUInt64)
    else if s = 0 then pure (.double (Binary64.zero true))
    else if s ≤ Nat.pow 2 63 then pure (.negative (-(s : Int)))
    else pure (.double (Binary64.ofNat s).neg)

/-- Reads a number after its sign. -/
def numeral (positive : Bool) : Reader JsonNumber := do
  let c ← get
  match c.rest with
  | [] => failAt .eofWhileParsingValue 0
  | d :: _ =>
    if d = '0' then
      take [d]
      match ← peek with
      | some e => if e.isDigit then failAt .invalidNumber 1 else afterInteger positive 0 0
      | none => afterInteger positive 0 0
    else if d.isDigit then
      take [d]
      let ds ← digitRun
      let (s, left) := accumulate (Nat.pow 2 64) (digitOf d) ds
      afterInteger positive s left.length
    else failAt .invalidNumber 1

/-- Reads the letters of a word after its first one. -/
def keyword (letters : List Char) : Reader Unit :=
  letters.forM fun l => do
    match ← peek with
    | none => failAt .eofWhileParsingValue 0
    | some ch => if ch = l then take [ch] else failAt .expectedSomeIdent 1

/-- Reads the four hexadecimal digits of a `\u` escape. -/
def hexEscape : Reader Nat := do
  let c ← get
  if (c.rest.map Char.utf8Size).foldl (· + ·) 0 < 4 then
    take c.rest
    failAt .eofWhileParsingString 0
  else
    match c.rest with
    | a :: b :: d :: e :: _ =>
      match Numeral.digitValue? 16 a, Numeral.digitValue? 16 b, Numeral.digitValue? 16 d,
          Numeral.digitValue? 16 e with
      | some w, some x, some y, some z =>
        take [a, b, d, e]
        pure (((w * 16 + x) * 16 + y) * 16 + z)
      | _, _, _, _ => failAt .invalidEscape 4
    | _ => failAt .invalidEscape 4

/-- Reads a `\u` escape after its letter: a code outside the surrogates, or a leading surrogate
    escaped right before a trailing one. -/
def unicodeEscape : Reader Char := do
  let n ← hexEscape
  if 0xDC00 ≤ n ∧ n ≤ 0xDFFF then failAt .loneLeadingSurrogateInHexEscape 0
  else if n < 0xD800 ∨ 0xDBFF < n then pure (Char.ofNat n)
  else
    match ← peek with
    | none => failAt .eofWhileParsingString 0
    | some '\\' => take ['\\']
    | some _ => failAt .unexpectedEndOfHexEscape 1
    match ← peek with
    | none => failAt .eofWhileParsingString 0
    | some 'u' => take ['u']
    | some _ => failAt .unexpectedEndOfHexEscape 1
    let n2 ← hexEscape
    if 0xDC00 ≤ n2 ∧ n2 ≤ 0xDFFF then
      pure (Char.ofNat ((n - 0xD800) * 1024 + (n2 - 0xDC00) + 0x10000))
    else failAt .loneLeadingSurrogateInHexEscape 0

/-- Reads an escape after its backslash. -/
def escape : Reader Char := do
  match ← peek with
  | none => failAt .eofWhileParsingString 0
  | some ch =>
    let simple : Option Char := match ch with
      | '"' => some '"'
      | '\\' => some '\\'
      | '/' => some '/'
      | 'b' => some (Char.ofNat 8)
      | 'f' => some (Char.ofNat 12)
      | 'n' => some '\n'
      | 'r' => some '\r'
      | 't' => some '\t'
      | _ => none
    match simple with
    | some r =>
      take [ch]
      pure r
    | none =>
      if ch = 'u' then
        take ['u']
        unicodeEscape
      else failAt .invalidEscape 1

/-- Whether a character ends a run of plain string characters. -/
def endsRun (ch : Char) : Bool := ch = '"' || ch = '\\' || ch.toNat < 0x20

/-- Reads the rest of a string after its opening quote, with at most `fuel` escapes more;
    `acc` holds the characters read so far, last first. -/
def stringBody : Nat → List Char → Reader String
  | 0, _ => failAt .eofWhileParsingString 0
  | fuel + 1, acc => do
    let run := (← get).rest.takeWhile fun ch => !endsRun ch
    take run
    let acc := run.reverse ++ acc
    match ← peek with
    | none => failAt .eofWhileParsingString 0
    | some '"' => take ['"']; pure (String.ofList acc.reverse)
    | some '\\' =>
      take ['\\']
      let ch ← escape
      stringBody fuel (ch :: acc)
    | some _ => failAt .controlCharacterWhileParsingString 1

/-- Reads a string after its opening quote. -/
def stringLiteral : Reader String := do
  stringBody ((← get).rest.length + 1) []

mutual

/-- Reads a document with `fuel` steps of reading left. -/
def value : Nat → Reader Json
  | 0 => failAt .eofWhileParsingValue 0
  | fuel + 1 => do
    match ← peekPastBlanks with
    | none => failAt .eofWhileParsingValue 1
    | some 'n' => take ['n']; keyword ['u', 'l', 'l']; pure .null
    | some 't' => take ['t']; keyword ['r', 'u', 'e']; pure (.bool true)
    | some 'f' => take ['f']; keyword ['a', 'l', 's', 'e']; pure (.bool false)
    | some '-' => take ['-']; pure (.number (← numeral false))
    | some '"' => take ['"']; pure (.string (← stringLiteral))
    | some '[' =>
      take ['[']
      let xs ← items fuel [] true
      take [']']
      pure (.array xs)
    | some '\x7b' =>
      take ['\x7b']
      let ms ← members fuel [] true
      take ['\x7d']
      pure (.object ms)
    | some ch =>
      if ch.isDigit then pure (.number (← numeral true))
      else failAt .expectedSomeValue 1

/-- Reads the elements of an array up to its closing bracket, not read; `acc` holds the
    elements read so far, last first. -/
def items : Nat → List Json → Bool → Reader (List Json)
  | 0, _, _ => failAt .eofWhileParsingList 0
  | fuel + 1, acc, first => do
    match ← peekPastBlanks with
    | some ']' => pure acc.reverse
    | none => failAt .eofWhileParsingList 1
    | some ch =>
      -- the first element comes right away, every other one after a comma
      let next ← if first then pure (some ch)
        else if ch = ',' then do
          take [',']
          peekPastBlanks
        else failAt .expectedListCommaOrEnd 1
      match next with
      | some ']' => failAt .trailingComma 1
      | some _ =>
        let v ← value fuel
        items fuel (v :: acc) false
      | none => failAt .eofWhileParsingValue 1

/-- Reads the members of an object up to its closing brace, not read. -/
def members : Nat → List (String × Json) → Bool → Reader (List (String × Json))
  | 0, _, _ => failAt .eofWhileParsingObject 0
  | fuel + 1, acc, first => do
    match ← peekPastBlanks with
    | some '\x7d' => pure acc
    | none => failAt .eofWhileParsingObject 1
    | some ch =>
      -- the first member comes right away, every other one after a comma
      let next ← if first then pure (some ch)
        else if ch = ',' then do
          take [',']
          peekPastBlanks
        else failAt .expectedObjectCommaOrEnd 1
      match next with
      | some '"' =>
        take ['"']
        let key ← stringLiteral
        match ← peekPastBlanks with
        | some ':' => take [':']
        | some _ => failAt .expectedColon 1
        | none => failAt .eofWhileParsingObject 1
        let v ← value fuel
        members fuel (insertMember key v acc) false
      | some '\x7d' => failAt .trailingComma 1
      | some _ => failAt .keyMustBeAString 1
      | none => failAt .eofWhileParsingValue 1

end

/-- The document a text holds, or the first fault in it; nothing but blanks may follow the
    document. -/
def read (s : String) : Except ReadError Json := do
  let start : Cursor := { rest := s.toList }
  let (v, c) ← (value (2 * start.rest.length + 4)).run start
  let c := c.skipBlanks
  match c.rest with
  | [] => pure v
  | _ => throw (c.errorAt .trailingCharacters 1)

end Json

end Decompilation
