import Decompilation.Ir.Tree

/-!
# Listings

The C-like text of expressions, statements and containers, used in messages, in the def/use
table and as the output of the analysis. SSA subscripts are written `_N` after the node they
belong to; the subscript of a memory access belongs to the whole access, which is then written
in parentheses, `*(esp_0 + 8)_2`, so that it cannot be read as a subscript of its address.
Literals above nine are written in hexadecimal, and containers indent their statements four
spaces per level.

* `Procedure.showExpr`: the text of an expression;
* `Procedure.locationKey`: the text without the expression's own subscript, which names the
  place a definition writes;
* `Procedure.showStmt`, `showCntr`: the listings of statements and containers.

Writing an expression reads its operands in their places, so each of these fails with
`Error.missingOperand` on an expression that lacks one; the text is written, and so read, in
reading order, and the first such expression met decides the error.
-/

namespace Decompilation

namespace Procedure

variable (p : Procedure)

/-- The text of a literal: decimal up to nine, hexadecimal above. -/
def showLiteral (v : UInt64) : String := if v.toNat > 9 then hex v.toNat else toString v.toNat

/-- Whether an operand is written in parentheses: binary operations, conditionals,
    assignments and subscripted memory accesses. -/
def isCompound (e : ExprNode) : Bool :=
  match e.kind with
  | .binary _ | .tcond | .assign => true
  | .unary .deref => e.idx.isSome
  | _ => false

/-- The text of the node `x`, with its own subscript when `sub`, given the texts of the trees
    below its operands (`below`, with their own subscripts when asked) and which operands are
    compound. Operands are read in the order they are written, so a node that lacks one fails at
    the first operand it lacks. -/
def renderNode (x : ExprNode) (below : Bool → ExprId → Except Error String)
    (compound : ExprId → Bool) (sub : Bool) : Except Error String := do
  let operand (o : ExprId) : Except Error String := do
    let t ← below true o
    pure (if compound o then "(" ++ t ++ ")" else t)
  let text ← match x.kind with
    | .reg name _ => pure name
    | .val v _ => pure (showLiteral v)
    | .unary .deref =>
      if sub && x.idx.isSome then do pure ("*(" ++ (← below true (← x.operandAt 0)) ++ ")")
      else do pure ("*" ++ (← operand (← x.operandAt 0)))
    | .unary op => do pure (op.symbol ++ (← operand (← x.operandAt 0)))
    | .binary op => do
      let l ← operand (← x.operandAt 0)
      let r ← operand (← x.operandAt 1)
      pure (l ++ " " ++ op.symbol ++ " " ++ r)
    | .tcond => do
      let c ← operand (← x.operandAt 0)
      let a ← operand (← x.operandAt 1)
      let b ← operand (← x.operandAt 2)
      pure (c ++ " ? " ++ a ++ " : " ++ b)
    | .assign => do
      let l ← below true (← x.operandAt 0)
      let r ← below true (← x.operandAt 1)
      pure (l ++ " = " ++ r)
    | .phi => do pure ("Φ(" ++ ", ".intercalate (← x.operands.mapM (below true)) ++ ")")
    | .call => do
      let f ← operand (← x.operandAt 0)
      pure (f ++ "(" ++ ", ".intercalate (← x.operands.tail.mapM (below true)) ++ ")")
    | .asm t => pure ("__asm(\"" ++ t ++ "\")")
  match sub, x.idx with
  | true, some i => pure (text ++ s!"_{i}")
  | _, _ => pure text

/-- The text of an expression, with its own subscript when `subscript` (the nodes below always
    show theirs). A deleted expression shows as `<discarded>`. -/
def render (subscript : Bool) (e : ExprId) : Except Error String := go p.depthBound subscript e
where
  /-- The text of the subtree at `c`. -/
  go : Nat → Bool → ExprId → Except Error String
    | 0, _, _ => pure ""
    | n + 1, sub, c =>
      match p.expr? c with
      | none => pure "<discarded>"
      | some x => renderNode x (go n) (fun o => ((p.expr? o).map isCompound).getD false) sub

/-- The text of an expression. -/
def showExpr (e : ExprId) : Except Error String := p.render true e

/-- The text of an expression without its own subscript: the name of the place it stands for,
    shared by every definition and read of that place. -/
def locationKey (e : ExprId) : Except Error String := p.render false e

/-- The listing of statement `s` at nesting `depth`, written in reading order: the body of a
    `do … while` comes before its condition. -/
def renderStmt (s : StmtId) (depth : Nat) : Except Error String := go p.nestingBound s depth
where
  /-- The listing, with a fuel above the nesting depth. -/
  go : Nat → StmtId → Nat → Except Error String
    | 0, _, _ => pure ""
    | n + 1, s, depth => do
      match p.stmt? s with
      | none => pure ""
      | some st =>
        let indent := String.join (List.replicate depth "    ")
        let exprs : Except Error String := do
          pure (", ".intercalate (← st.exprs.mapM p.showExpr))
        let bodyText (c : Option CntrId) : Except Error String := match c with
          | some c => do pure (String.join (← (p.cntrNode c).stmts.mapM fun t => go n t (depth + 1)))
          | none => pure ""
        let line ← match st.kind with
          | .expr => do pure ((← exprs) ++ ";\n")
          | .goto | .branch => do
            pure (st.kind.keyword ++ " " ++ (← exprs) ++
              (if st.unresolved then "; // unresolved\n" else ";\n"))
          | .breakLoop | .continueLoop => pure (st.kind.keyword ++ ";\n")
          | .ret => do
            if st.exprs.isEmpty then pure "return;\n" else pure ("return " ++ (← exprs) ++ ";\n")
          | .ifElse | .whileLoop => do
            let cond ← exprs
            let body ← bodyText st.body?
            let other ← match st.elseBody? with
              | some e => do pure (indent ++ "else \x7b\n" ++ (← bodyText (some e)) ++ indent ++ "\x7d\n")
              | none => pure ""
            pure (st.kind.keyword ++ " (" ++ cond ++ ") \x7b\n" ++ body ++ indent ++ "\x7d\n" ++ other)
          | .doWhile => do
            let body ← bodyText st.body?
            let cond ← exprs
            pure ("do \x7b\n" ++ body ++ indent ++ "\x7d while (" ++ cond ++ ");\n")
        pure (indent ++ line)

/-- The listing of a statement. -/
def showStmt (s : StmtId) : Except Error String := p.renderStmt s 0

/-- The listing of the statements of a container; nothing for a deleted container. -/
def showCntr (c : CntrId) : Except Error String :=
  match p.cntr? c with
  | some ct => do pure (String.join (← ct.stmts.mapM fun s => p.renderStmt s 0))
  | none => pure ""

end Procedure

end Decompilation
