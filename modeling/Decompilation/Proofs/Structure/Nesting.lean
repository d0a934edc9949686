import Mathlib
import Decompilation.Proofs.Ir.Access

/-!
# Statements nested in containers

The statements of a procedure hang in containers, and the conditionals and loops among them
own further containers, their bodies. A procedure as its constructors build it is a forest:
each statement is listed once, by the container it names as its parent; each body is owned by
one statement, which lists it once; each expression of a statement and each operand names the
node listing it; and no statement hangs below itself. The blocks are kept in increasing address
order, each with a container of its own at the root of a tree.

* `Procedure.Within`: the statements hanging below a container, descending into bodies;
* `Procedure.Reaches`: the statements below the containers of the blocks;
* `Procedure.Encloses`: a statement and the statements below its bodies;
* `Procedure.Below`, `Procedure.ReachesExpr`: the expressions below an expression, and the live
  expressions below the statements the blocks reach;
* `Procedure.WellFormed`: the invariants of the arena.
-/

namespace Decompilation

namespace Procedure

variable {p : Procedure}

/-! ### Reading containers after an edit -/

@[simp]
theorem cntr?_modifyCntr (c d : CntrId) (f : Container → Container) :
    (p.modifyCntr c f).cntr? d = if d = c then (p.cntr? d).map f else p.cntr? d := by
  simp only [cntr?, modifyCntr, Array.getElem?_modify]
  split <;> rename_i h
  · obtain rfl : d = c := by cases d; cases c; simp_all
    rw [if_pos rfl]
    cases p.cntrs[d.index]? <;> simp
  · rw [if_neg fun h' => h (by rw [h'])]

/-- A container added at the end of the slots gets the first free number. -/
@[simp]
theorem cntr?_push (ct : Container) (d : CntrId) :
    ({ p with cntrs := p.cntrs.push (some ct) } : Procedure).cntr? d =
      if d.index = p.cntrs.size then some ct else p.cntr? d := by
  simp only [cntr?, Array.getElem?_push]
  split <;> simp

@[simp]
theorem cntr?_modifyStmt (s : StmtId) (f : Stmt → Stmt) (d : CntrId) :
    (p.modifyStmt s f).cntr? d = p.cntr? d := rfl

@[simp]
theorem cntr?_modifyExpr (e : ExprId) (f : ExprNode → ExprNode) (d : CntrId) :
    (p.modifyExpr e f).cntr? d = p.cntr? d := rfl

@[simp]
theorem Container.stmts_default : (default : Container).stmts = [] := rfl

@[simp]
theorem Container.parent_default : (default : Container).parent = none := rfl

@[simp]
theorem Stmt.children_default : (default : Stmt).children = [] := rfl

@[simp]
theorem Stmt.exprs_default : (default : Stmt).exprs = [] := rfl

@[simp]
theorem Stmt.parent_default : (default : Stmt).parent = none := rfl

theorem cntrNode_of_cntr? {c : CntrId} {ct : Container} (h : p.cntr? c = some ct) :
    p.cntrNode c = ct := by
  rw [cntrNode, h, Option.getD_some]

theorem stmtNode_of_stmt? {s : StmtId} {st : Stmt} (h : p.stmt? s = some st) :
    p.stmtNode s = st := by
  rw [stmtNode, h, Option.getD_some]

@[simp]
theorem cntrNode_of_cntr?_eq_none {c : CntrId} (h : p.cntr? c = none) : p.cntrNode c = default := by
  rw [cntrNode, h, Option.getD_none]

@[simp]
theorem stmtNode_of_stmt?_eq_none {s : StmtId} (h : p.stmt? s = none) : p.stmtNode s = default := by
  rw [stmtNode, h, Option.getD_none]

theorem index_lt_of_stmt? {s : StmtId} {st : Stmt} (h : p.stmt? s = some st) :
    s.index < p.stmts.size := by
  by_contra hs
  rw [stmt?, Array.getElem?_eq_none (by omega)] at h
  cases h

theorem index_lt_of_cntr? {c : CntrId} {ct : Container} (h : p.cntr? c = some ct) :
    c.index < p.cntrs.size := by
  by_contra hc
  rw [cntr?, Array.getElem?_eq_none (by omega)] at h
  cases h

/-! ### Nesting -/

variable (p)

/-- The statements hanging below container `c`: those it lists, and those listed by a body of
    a statement hanging below it. -/
inductive Within (c : CntrId) : StmtId → Prop
  | listed {s : StmtId} : s ∈ (p.cntrNode c).stmts → Within c s
  | nested {t : StmtId} {b : CntrId} {s : StmtId} : Within c t → b ∈ (p.stmtNode t).children →
      s ∈ (p.cntrNode b).stmts → Within c s

/-- The statements below the containers of the blocks: what the structured function is made
    of. -/
def Reaches (s : StmtId) : Prop := ∃ b ∈ p.blocks, p.Within b.container s

/-- Statement `t` encloses statement `s`: `s` hangs below one of the bodies of `t`. -/
def Encloses (t s : StmtId) : Prop := ∃ b ∈ (p.stmtNode t).children, p.Within b s

/-- The expressions below expression `x`: itself, and the operands of those below it. -/
inductive Below (x : ExprId) : ExprId → Prop
  | refl : Below x x
  | operand {w o : ExprId} : Below x w → o ∈ (p.node w).operands → Below x o

/-- The live expressions below an expression of a statement that the blocks reach. -/
def ReachesExpr (e : ExprId) : Prop :=
  p.isLive e = true ∧ ∃ s, p.Reaches s ∧ ∃ x ∈ (p.stmtNode s).exprs, p.Below x e

/-- The invariants of the arena. The nodes form a forest: a statement is listed once, by the
    container it names; a body is owned by one statement, which lists it once; an expression
    of a statement, and an operand, is live and names the node listing it, and a statement lists
    each of its expressions once; a jump owns no body; and a rank falls from each statement to
    the statements listed by its bodies, so no statement hangs below itself. The blocks are in
    increasing address order, each with a live container of its own that no statement owns,
    and the entry is one of them. -/
structure WellFormed : Prop where
  listed : ∀ {c ct s}, p.cntr? c = some ct → s ∈ ct.stmts →
    ∃ st, p.stmt? s = some st ∧ st.parent = some c
  once : ∀ {s st c}, p.stmt? s = some st → st.parent = some c →
    ∃ ct, p.cntr? c = some ct ∧ ct.stmts.count s = 1
  owned : ∀ {s st c}, p.stmt? s = some st → c ∈ st.children →
    ∃ ct, p.cntr? c = some ct ∧ ct.parent = some s
  owner : ∀ {c ct s}, p.cntr? c = some ct → ct.parent = some s →
    ∃ st, p.stmt? s = some st ∧ st.children.count c = 1
  exprs : ∀ {s st e}, p.stmt? s = some st → e ∈ st.exprs →
    ∃ x, p.expr? e = some x ∧ x.parent = some (.stmt s)
  slots : ∀ {s st}, p.stmt? s = some st → st.exprs.Nodup
  operands : ∀ {e x o}, p.expr? e = some x → o ∈ x.operands →
    ∃ y, p.expr? o = some y ∧ y.parent = some (.expr e)
  jumps : ∀ {s st}, p.stmt? s = some st → st.kind.isJump = true → st.children = []
  ranked : ∃ rank : StmtId → Nat, ∀ {t b s}, b ∈ (p.stmtNode t).children →
    s ∈ (p.cntrNode b).stmts → rank s < rank t
  sorted : p.blocks.Pairwise fun a b => a.address < b.address
  roots : ∀ b ∈ p.blocks, ∃ ct, p.cntr? b.container = some ct ∧ ct.parent = none
  distinct : (p.blocks.map Block.container).Nodup
  entry : p.blocks ≠ [] → ∃ b ∈ p.blocks, p.entry = some b.address

variable {p}

/-- Statements hanging below a body rank lower than the statement owning it. -/
theorem rank_lt_of_encloses {rank : StmtId → Nat}
    (hr : ∀ {t b s}, b ∈ (p.stmtNode t).children → s ∈ (p.cntrNode b).stmts → rank s < rank t)
    {t s : StmtId} (h : p.Encloses t s) : rank s < rank t := by
  obtain ⟨b, hb, hw⟩ := h
  induction hw with
  | listed hs => exact hr hb hs
  | nested _ hb' hs ih => exact (hr hb' hs).trans ih

namespace WellFormed

variable (hp : p.WellFormed)
include hp

/-- A listed statement is live and names the container listing it. -/
theorem parent_of_mem {c : CntrId} {s : StmtId} (hs : s ∈ (p.cntrNode c).stmts) :
    ∃ st, p.stmt? s = some st ∧ st.parent = some c := by
  cases hc : p.cntr? c with
  | none => simp [cntrNode_of_cntr?_eq_none hc] at hs
  | some ct => exact hp.listed hc (by rwa [cntrNode_of_cntr? hc] at hs)

/-- A statement is listed by one container only. -/
theorem eq_of_mem {c c' : CntrId} {s : StmtId} (hs : s ∈ (p.cntrNode c).stmts)
    (hs' : s ∈ (p.cntrNode c').stmts) : c = c' := by
  obtain ⟨st, hst, hc⟩ := hp.parent_of_mem hs
  obtain ⟨st', hst', hc'⟩ := hp.parent_of_mem hs'
  rw [hst] at hst'
  cases hst'
  exact Option.some_injective _ (hc.symm.trans hc')

/-- A body is live and names the statement owning it. -/
theorem owner_of_mem {t : StmtId} {b : CntrId} (hb : b ∈ (p.stmtNode t).children) :
    ∃ ct, p.cntr? b = some ct ∧ ct.parent = some t := by
  cases ht : p.stmt? t with
  | none => simp [stmtNode_of_stmt?_eq_none ht] at hb
  | some st => exact hp.owned ht (by rwa [stmtNode_of_stmt? ht] at hb)

/-- A body is owned by one statement only. -/
theorem eq_of_mem_children {t t' : StmtId} {b : CntrId} (hb : b ∈ (p.stmtNode t).children)
    (hb' : b ∈ (p.stmtNode t').children) : t = t' := by
  obtain ⟨ct, hct, ht⟩ := hp.owner_of_mem hb
  obtain ⟨ct', hct', ht'⟩ := hp.owner_of_mem hb'
  rw [hct] at hct'
  cases hct'
  exact Option.some_injective _ (ht.symm.trans ht')

/-- No statement hangs below itself. -/
theorem not_encloses_self (s : StmtId) : ¬ p.Encloses s s := fun h => by
  obtain ⟨rank, hr⟩ := hp.ranked
  exact Nat.lt_irrefl _ (rank_lt_of_encloses hr h)

end WellFormed

/-- Going down from a statement below `c` into one of its bodies stays below `c`. -/
theorem Within.trans {c : CntrId} {t : StmtId} {b : CntrId} {s : StmtId} (ht : p.Within c t)
    (hb : b ∈ (p.stmtNode t).children) (hs : p.Within b s) : p.Within c s := by
  induction hs with
  | listed hs => exact .nested ht hb hs
  | nested _ hb' hs ih => exact .nested ih hb' hs

end Procedure

end Decompilation
