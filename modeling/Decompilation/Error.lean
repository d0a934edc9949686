import Decompilation.Word

/-!
# Errors

Every failure of the analysis is a value of `Error`, one constructor per cause, and its text
is given in one place, `Error.message`. A failure while decompiling a whole function is
wrapped once with the function's address (`Error.inFunction`), so that a caller working on
many functions can tell which one failed.

* `Error.message`: the text of an error;
* `Error.stopsRun`: whether an error ends the whole run rather than one function's analysis
  (a division by zero, a missing operand);
* `Error.withinFunction`: wrap an error with a function address, unless already wrapped or
  one that stops the run;
* `Error.isNonConvergence`: whether a fixpoint iteration ran out of rounds, looking through
  the wrapper.
-/

namespace Decompilation

/-- The fixpoint iterations that give up after a number of rounds. -/
inductive Stage where
  /-- The peephole simplifier of one expression tree. -/
  | simplifier
  /-- The pass scheduler over one function. -/
  | optimizer
  deriving DecidableEq, Repr

/-- The name of an iteration in messages. -/
def Stage.name : Stage → String
  | .simplifier => "simplifier"
  | .optimizer => "optimizer"

/-- The causes of failure. -/
inductive Error where
  /-- The input or an edit of the representation does not make sense. -/
  | malformed (message : String)
  /-- A graph operation named a node that is missing, or one that already exists. -/
  | graph (message : String)
  /-- A function has no block at an address it refers to. -/
  | missingBlock (function target : UInt64)
  /-- Two literals of different known widths were combined. -/
  | operandWidth (left right : Nat)
  /-- A node is outside the part of the graph reachable from its root. -/
  | unreachable (node : String)
  /-- An iteration did not reach its fixpoint within its round limit. -/
  | nonConvergence (stage : Stage) (limit : Nat)
  /-- The definition/use chains contradict the tree they describe. -/
  | defUse (message : String)
  /-- The failure of the function at the given address. -/
  | inFunction (address : UInt64) (source : Error)
  /-- A signed division (or remainder, when `remainder` holds) by a divisor that is not zero
      as a word but is zero at the width of the operation: the arithmetic has no value, and
      the whole run stops. -/
  | divisionByZero (remainder : Bool)
  /-- A reading of operand `index` of an expression that has only `count` operands, fewer than
      its kind places: an expression keeps its operand layout until a definition nested inside
      it is deleted from under it. The reading has no value, and the whole run stops. -/
  | missingOperand (count index : Nat)
  deriving Repr

namespace Error

/-- The text of an error. -/
def message : Error → String
  | .malformed m => m
  | .graph m => m
  | .missingBlock f t => "function " ++ hex f.toNat ++ " has no block at " ++ hex t.toNat
  | .operandWidth l r => s!"operand width mismatch: {l} bits vs {r} bits"
  | .unreachable n => s!"node {n} is not reachable from the root"
  | .nonConvergence s n => s.name ++ s!" did not converge within {n} iterations"
  | .defUse m => "def/use inconsistency: " ++ m
  | .inFunction a e =>
    "decompilation failed for function at " ++ hex a.toNat ++ ": " ++ e.message
  | .divisionByZero remainder =>
    if remainder then "attempt to calculate the remainder with a divisor of zero"
    else "attempt to divide by zero"
  | .missingOperand c i => s!"index out of bounds: the len is {c} but the index is {i}"

/-- Whether an error ends the whole run: an operation without a value, as opposed to a
    failure that the analysis of one function reports. -/
def stopsRun : Error → Bool
  | .divisionByZero _ | .missingOperand .. => true
  | _ => false

/-- Wraps an error with the address of the function it arose in; an error that is already
    wrapped keeps its first address, and one that stops the whole run is not a failure of the
    function. -/
def withinFunction (address : UInt64) : Error → Error
  | .inFunction a e => .inFunction a e
  | e => if e.stopsRun then e else .inFunction address e

/-- Whether the error reports an iteration that ran out of rounds, also inside a wrapper. -/
def isNonConvergence : Error → Bool
  | .nonConvergence .. => true
  | .inFunction _ e => e.isNonConvergence
  | _ => false

end Error

end Decompilation
