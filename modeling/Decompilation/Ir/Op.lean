/-!
# Operators

The unary and binary operators of the expression language, with their C-like symbols and the
classes the simplifier reasons about.

* `UnaryOp`, `BinaryOp`: the operators and their `symbol`s;
* `BinaryOp.ofSymbol?`, `UnaryOp.ofSymbol?`: reading a symbol back;
* `BinaryOp.negated?`: the comparison that holds exactly when a comparison does not.
-/

namespace Decompilation

/-- Unary operators: arithmetic negation, bitwise complement, memory dereference, address-of
    and boolean negation. -/
inductive UnaryOp where
  | neg
  | bitNot
  | deref
  | addrOf
  | boolNot
  deriving DecidableEq, Repr

/-- Binary operators: arithmetic, bitwise, comparisons and the two boolean connectives. -/
inductive BinaryOp where
  | add | sub | mul | div | mod
  | bitAnd | bitOr | bitXor | shl | shr
  | eq | ne | lt | gt | le | ge
  | boolAnd | boolOr
  deriving DecidableEq, Repr

namespace UnaryOp

/-- The operator as written before its operand. -/
def symbol : UnaryOp → String
  | .neg => "-"
  | .bitNot => "~"
  | .deref => "*"
  | .addrOf => "&"
  | .boolNot => "!"

/-- All unary operators. -/
def all : List UnaryOp := [.neg, .bitNot, .deref, .addrOf, .boolNot]

/-- The operator written with the symbol `s`. -/
def ofSymbol? (s : String) : Option UnaryOp := all.find? (·.symbol == s)

end UnaryOp

namespace BinaryOp

/-- The operator as written between its operands. -/
def symbol : BinaryOp → String
  | .add => "+" | .sub => "-" | .mul => "*" | .div => "/" | .mod => "%"
  | .bitAnd => "&" | .bitOr => "|" | .bitXor => "^" | .shl => "<<" | .shr => ">>"
  | .eq => "==" | .ne => "!=" | .lt => "<" | .gt => ">" | .le => "<=" | .ge => ">="
  | .boolAnd => "&&" | .boolOr => "||"

/-- All binary operators. -/
def all : List BinaryOp :=
  [.add, .sub, .mul, .div, .mod, .bitAnd, .bitOr, .bitXor, .shl, .shr,
   .eq, .ne, .lt, .gt, .le, .ge, .boolAnd, .boolOr]

/-- The operator written with the symbol `s`. -/
def ofSymbol? (s : String) : Option BinaryOp := all.find? (·.symbol == s)

/-- `+ - * / %`. -/
def isArithmetic : BinaryOp → Bool
  | .add | .sub | .mul | .div | .mod => true
  | _ => false

/-- `& | ^ << >>`. -/
def isBitwise : BinaryOp → Bool
  | .bitAnd | .bitOr | .bitXor | .shl | .shr => true
  | _ => false

/-- `== != < > <= >=`. -/
def isComparison : BinaryOp → Bool
  | .eq | .ne | .lt | .gt | .le | .ge => true
  | _ => false

/-- The comparison that holds exactly when this one does not; none for other operators. -/
def negated? : BinaryOp → Option BinaryOp
  | .eq => some .ne
  | .ne => some .eq
  | .lt => some .ge
  | .ge => some .lt
  | .gt => some .le
  | .le => some .gt
  | _ => none

end BinaryOp

end Decompilation
