import Decompilation.Word
import Decompilation.Text.Shortest

/-!
# JSON documents

Requests and answers are JSON documents. A number keeps what its text made of it: an integer
written without fraction or exponent that fits 64 unsigned bits, a negative one that fits 64
signed bits, or else the double the reader computed. An object holds each key once, in
increasing order of keys; adding a key that is there already replaces its value.

* `Json.get?`: the member of an object under a key;
* `Json.insertMember`: adds or replaces a member, keeping the keys in order;
* `Json.render`: the compact text of a document;
* `Json.lookup_insertMember_self`: a member just added is found under its key.
-/

namespace Decompilation

/-- A JSON number as the reader classifies it. -/
inductive JsonNumber where
  /-- An integer without sign, fraction or exponent, below `2^64`. -/
  | natural (n : UInt64)
  /-- A negative integer without fraction or exponent, from `-2^63` to `-1`. -/
  | negative (n : Int)
  /-- Any other number, as a finite double. -/
  | double (x : Binary64)
  deriving DecidableEq, Repr

namespace JsonNumber

/-- The 64-bit word of an integer, a negative one in two's complement; none for a double. -/
def toWord? : JsonNumber → Option UInt64
  | .natural n => some n
  | .negative n => some (ofInt n)
  | .double _ => none

/-- The text of a number: integers in decimal, doubles by their shortest digits. -/
def render : JsonNumber → String
  | .natural n => toString n.toNat
  | .negative n => toString n
  | .double x => Shortest.render x

end JsonNumber

/-- A JSON document. -/
inductive Json where
  | null
  | bool (b : Bool)
  | number (n : JsonNumber)
  | string (s : String)
  | array (items : List Json)
  | object (members : List (String × Json))
  deriving Inhabited

namespace Json

/-- The member of an object under `key`, null included; none for a missing key or a document
    that is not an object. -/
def get? (j : Json) (key : String) : Option Json :=
  match j with
  | .object ms => ms.lookup key
  | _ => none

/-- Adds the member `key` with value `v` to members in increasing order of keys, replacing the
    member of the same key. -/
def insertMember (key : String) (v : Json) : List (String × Json) → List (String × Json)
  | [] => [(key, v)]
  | (k, w) :: rest =>
    if key = k then (key, v) :: rest
    else if key < k then (key, v) :: (k, w) :: rest
    else (k, w) :: insertMember key v rest

/-- An object of the given members, the later of two equal keys winning. -/
def obj (members : List (String × Json)) : Json :=
  .object (members.foldl (fun acc (k, v) => insertMember k v acc) [])

/-- A natural number as a document. -/
def nat (n : Nat) : Json := .number (.natural n.toUInt64)

/-- A word as a document. -/
def word (w : UInt64) : Json := .number (.natural w)

/-- A list of values as an array. -/
def list {α : Type} (f : α → Json) (l : List α) : Json := .array (l.map f)

/-- An optional value, null when absent. -/
def opt {α : Type} (f : α → Json) : Option α → Json
  | some a => f a
  | none => .null

instance : Coe String Json := ⟨.string⟩

instance : Coe Bool Json := ⟨.bool⟩

/-- The four hexadecimal digits of a character code below `2^16`, in lower case. -/
def hexQuad (n : Nat) : List Char :=
  let digit (k : Nat) : Char := if k < 10 then Char.ofNat (48 + k) else Char.ofNat (87 + k)
  [digit (n / 4096 % 16), digit (n / 256 % 16), digit (n / 16 % 16), digit (n % 16)]

/-- A character inside a string literal: the quote, the backslash and the control characters
    are escaped, short forms where JSON has them; every other character stands for itself. -/
def escapeChar (c : Char) : List Char :=
  if c = '"' then ['\\', '"']
  else if c = '\\' then ['\\', '\\']
  else if c = '\n' then ['\\', 'n']
  else if c = '\r' then ['\\', 'r']
  else if c = '\t' then ['\\', 't']
  else if c.toNat = 8 then ['\\', 'b']
  else if c.toNat = 12 then ['\\', 'f']
  else if c.toNat < 32 then '\\' :: 'u' :: hexQuad c.toNat
  else [c]

/-- A string literal. -/
def quote (s : String) : String :=
  String.ofList ('"' :: s.toList.flatMap escapeChar ++ ['"'])

mutual

/-- The compact text of a document: no blanks, members in the order held. -/
def render : Json → String
  | .null => "null"
  | .bool b => if b then "true" else "false"
  | .number n => n.render
  | .string s => quote s
  | .array xs => "[" ++ renderItems xs ++ "]"
  | .object ms => "\x7b" ++ renderMembers ms ++ "\x7d"

/-- Array elements separated by commas. -/
def renderItems : List Json → String
  | [] => ""
  | x :: xs => render x ++ (if xs.isEmpty then "" else "," ++ renderItems xs)

/-- Object members separated by commas. -/
def renderMembers : List (String × Json) → String
  | [] => ""
  | (k, v) :: ms =>
    quote k ++ ":" ++ render v ++ (if ms.isEmpty then "" else "," ++ renderMembers ms)

end

/-- A member just added is what its key finds, whatever the members were before. -/
theorem lookup_insertMember_self (key : String) (v : Json) (ms : List (String × Json)) :
    (insertMember key v ms).lookup key = some v := by
  induction ms with
  | nil => simp [insertMember]
  | cons m rest ih =>
    obtain ⟨k, w⟩ := m
    unfold insertMember
    by_cases h : key = k
    · simp [h]
    · have hb : (key == k) = false := by simp [h]
      by_cases h' : key < k
      · simp [h, h']
      · simp [h, h', List.lookup_cons, hb, ih]

end Json

end Decompilation
