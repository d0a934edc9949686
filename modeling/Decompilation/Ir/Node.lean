import Decompilation.Error
import Decompilation.Ir.Op

/-!
# Nodes of the intermediate representation

A function is held as three collections of numbered nodes: expressions, statements and
containers (ordered statement lists). Nodes refer to each other by number. An expression lists
its operands and records what lists it, an operand slot of a parent expression or an
expression slot of a statement; a statement lists its expressions and its nested bodies; a
container lists its statements.

Besides the tree, expressions carry the links of the definition/use chains: an expression in
definition position (the left side of an assignment) lists the expressions that read the value
it defines, and each of those points back at it.

* `ExprKind`, `ExprNode`: expressions; the operand layout of each kind is fixed
  (one operand for a unary operator, two for a binary one or an assignment, three for a
  conditional; a phi has one per incoming value, a call its target and then the arguments);
* `ExprNode.operandAt`: the operand in a place of that layout, failing on an expression that
  has lost it (`operandAt_of_lt`, `operandAt_of_le`);
* `StmtKind`, `Stmt`: statements, with their expressions and bodies;
* `Container`, `Block`: statement lists and the basic blocks that own them.
-/

namespace Decompilation

/-- The number of an expression node. -/
structure ExprId where
  index : Nat
  deriving DecidableEq, Repr, Hashable

/-- The number of a statement node. -/
structure StmtId where
  index : Nat
  deriving DecidableEq, Repr, Hashable

/-- The number of a container. -/
structure CntrId where
  index : Nat
  deriving DecidableEq, Repr, Hashable

/-- The short name of an expression number in messages, as `e12`. -/
def ExprId.name (e : ExprId) : String := s!"e{e.index}"

/-- The short name of a statement number in messages, as `s3`. -/
def StmtId.name (s : StmtId) : String := s!"s{s.index}"

/-- The short name of a container number in messages, as `c0`. -/
def CntrId.name (c : CntrId) : String := s!"c{c.index}"

/-- The kinds of expression. Registers and literals carry a bit width, `0` when unknown;
    a literal's value is kept masked to its width. -/
inductive ExprKind where
  /-- A machine register or named variable. -/
  | reg (name : String) (size : Nat)
  /-- An integer literal. -/
  | val (value : UInt64) (size : Nat)
  /-- A unary operation on its one operand. -/
  | unary (op : UnaryOp)
  /-- A binary operation on its two operands. -/
  | binary (op : BinaryOp)
  /-- The conditional `c ? a : b` of its three operands. -/
  | tcond
  /-- The assignment of its second operand to its first. -/
  | assign
  /-- The merge of the values flowing in from the predecessors. -/
  | phi
  /-- A call of its first operand with the others as arguments. -/
  | call
  /-- A line of inline assembly, opaque to the analysis. -/
  | asm (text : String)
  deriving DecidableEq, Repr

/-- What lists an expression: an operand slot of an expression or an expression slot of a
    statement. -/
inductive ExprParent where
  | expr (p : ExprId)
  | stmt (s : StmtId)
  deriving DecidableEq, Repr

/-- An expression node. `isDef` marks definition positions; `idx` is the SSA subscript;
    `defLink` is the definition a reading expression reads and `uses` the readers of a
    definition; `tracked` marks the definitions registered for the chains; `safe` marks a
    memory location known not to alias and `weak` an implicit definition made up for a value
    read before it is written. -/
structure ExprNode where
  kind : ExprKind
  operands : List ExprId := []
  parent : Option ExprParent := none
  isDef : Bool := false
  idx : Option Nat := none
  defLink : Option ExprId := none
  uses : List ExprId := []
  tracked : Bool := false
  safe : Bool := false
  weak : Bool := false
  deriving Repr

instance : Inhabited ExprNode := ⟨{ kind := .asm "" }⟩

namespace ExprNode

/-- A register? -/
def isReg (e : ExprNode) : Bool := match e.kind with | .reg .. => true | _ => false

/-- A literal? -/
def isVal (e : ExprNode) : Bool := match e.kind with | .val .. => true | _ => false

/-- A memory dereference? -/
def isDeref (e : ExprNode) : Bool := e.kind == .unary .deref

/-- A phi? -/
def isPhi (e : ExprNode) : Bool := e.kind == .phi

/-- A call? -/
def isCall (e : ExprNode) : Bool := e.kind == .call

/-- An assignment? -/
def isAssign (e : ExprNode) : Bool := e.kind == .assign

/-- A call or a line of assembly, whose effects the analysis cannot see? -/
def hasEffect (e : ExprNode) : Bool :=
  match e.kind with
  | .call | .asm _ => true
  | _ => false

/-- Registers and dereferences: the kinds that name a place holding a value. -/
def isLocation (e : ExprNode) : Bool := e.isReg || e.isDeref

/-- The value and width of a literal. -/
def literal? (e : ExprNode) : Option (UInt64 × Nat) :=
  match e.kind with
  | .val v s => some (v, s)
  | _ => none

/-- The operator of a unary expression. -/
def unaryOp? (e : ExprNode) : Option UnaryOp :=
  match e.kind with
  | .unary op => some op
  | _ => none

/-- The operator of a binary expression. -/
def binaryOp? (e : ExprNode) : Option BinaryOp :=
  match e.kind with
  | .binary op => some op
  | _ => none

/-- The operand in position `i`. -/
def operand? (e : ExprNode) (i : Nat) : Option ExprId := e.operands[i]?

/-- The operand in position `i`, where the kind of the expression places one; an expression
    that has lost it fails with `Error.missingOperand`. -/
def operandAt (e : ExprNode) (i : Nat) : Except Error ExprId :=
  match e.operands[i]? with
  | some o => .ok o
  | none => .error (.missingOperand e.operands.length i)

/-- A position among the operands reads the operand there. -/
theorem operandAt_of_lt (e : ExprNode) (i : Nat) (h : i < e.operands.length) :
    e.operandAt i = .ok e.operands[i] := by
  simp [operandAt, h]

/-- A position past the operands fails, naming the number of operands and the position. -/
theorem operandAt_of_le (e : ExprNode) (i : Nat) (h : e.operands.length ≤ i) :
    e.operandAt i = .error (.missingOperand e.operands.length i) := by
  simp [operandAt, List.getElem?_eq_none h]

end ExprNode

/-- Which properties of an expression a copy keeps: the subscript, the definition link (the
    copy then also counts as a use of that definition), the no-alias mark and the implicit
    definition mark. -/
structure CloneTags where
  index : Bool := false
  defLink : Bool := false
  safe : Bool := false
  weak : Bool := false
  deriving DecidableEq, Repr

/-- A copy that keeps everything. -/
def CloneTags.all : CloneTags := ⟨true, true, true, true⟩

/-- The kinds of statement. -/
inductive StmtKind where
  /-- An expression evaluated for its effect, usually an assignment. -/
  | expr
  /-- A jump to its one expression. -/
  | goto
  /-- A conditional jump: condition, taken target, fall-through target. -/
  | branch
  /-- A condition with a then-body and an optional else-body. -/
  | ifElse
  /-- A loop testing its condition before each round. -/
  | whileLoop
  /-- A loop testing its condition after each round. -/
  | doWhile
  /-- Leaves the enclosing loop. -/
  | breakLoop
  /-- Starts the next round of the enclosing loop. -/
  | continueLoop
  /-- Returns, with an optional value. -/
  | ret
  deriving DecidableEq, Repr

namespace StmtKind

/-- The keyword a statement is written with. -/
def keyword : StmtKind → String
  | .expr => "expr"
  | .goto => "goto"
  | .branch => "branch"
  | .ifElse => "if"
  | .whileLoop => "while"
  | .doWhile => "do-while"
  | .breakLoop => "break"
  | .continueLoop => "continue"
  | .ret => "return"

/-- Jumps: `goto` and `branch`. -/
def isJump : StmtKind → Bool
  | .goto | .branch => true
  | _ => false

/-- Statements after which control does not fall through to the next one. -/
def isTerminator : StmtKind → Bool
  | .goto | .branch | .ifElse | .breakLoop | .continueLoop | .ret => true
  | _ => false

/-- Statements whose first expression is a condition. -/
def isConditional : StmtKind → Bool
  | .branch | .ifElse | .whileLoop | .doWhile => true
  | _ => false

end StmtKind

/-- A statement node: its kind and address, the container listing it, its expressions, its
    body slots (a plucked body leaves an empty slot) and whether it is a jump that could not be
    resolved. -/
structure Stmt where
  kind : StmtKind
  address : UInt64
  parent : Option CntrId := none
  exprs : List ExprId := []
  bodies : List (Option CntrId) := []
  unresolved : Bool := false
  deriving Repr

instance : Inhabited Stmt := ⟨{ kind := .expr, address := 0 }⟩

namespace Stmt

/-- The nested bodies that are present, in order. -/
def children (s : Stmt) : List CntrId := s.bodies.filterMap id

/-- The condition of a conditional statement. -/
def cond? (s : Stmt) : Option ExprId := if s.kind.isConditional then s.exprs.head? else none

/-- The target of a `goto`. -/
def dest? (s : Stmt) : Option ExprId := if s.kind = .goto then s.exprs.head? else none

/-- The taken target of a `branch`. -/
def taken? (s : Stmt) : Option ExprId := if s.kind = .branch then s.exprs[1]? else none

/-- The first body: the then-body of an `if`, the body of a loop. -/
def body? (s : Stmt) : Option CntrId := s.bodies.head?.getD none

/-- The else-body of an `if`. -/
def elseBody? (s : Stmt) : Option CntrId :=
  if s.kind = .ifElse then (s.bodies[1]?).getD none else none

end Stmt

/-- A container: an ordered list of statements, with the address it starts at, the statement
    owning it (none for a block's own list), and the container control falls through to. -/
structure Container where
  address : UInt64
  parent : Option StmtId := none
  fallthrough : Option CntrId := none
  stmts : List StmtId := []
  deriving Repr

instance : Inhabited Container := ⟨{ address := 0 }⟩

/-- A basic block: its address, its container, the addresses of its taken (`jump`) and
    fall-through (`fail`) successors, and what structuring found: the block that follows it
    (`next`) and whether its closing jump stayed unresolved. -/
structure Block where
  address : UInt64
  container : CntrId
  jump : Option UInt64 := none
  fail : Option UInt64 := none
  next : Option UInt64 := none
  isEntry : Bool := false
  unresolved : Bool := false
  deriving Repr

/-- A block with no successor at all ends the function. -/
def Block.isExit (b : Block) : Bool := b.jump.isNone && b.fail.isNone

end Decompilation
