import Decompilation.Proofs.Ir.Access
import Decompilation.Proofs.Except

/-!
# Chains that agree with the tree

The checks of `Procedure.validate` hold of a procedure whose nodes satisfy two invariants,
which every edit of the optimizer keeps:

* `DefsPlaced`: a definition position stands only as the first operand of an assignment that
  lists it once, never in a statement's expression list, and is listed by an expression; and
  every number a live node lists is the number of a slot. One node, `loose`, may be left
  unlisted for a moment, while it is taken out of the tree to be deleted;
* `ChainsExact`: a registered definition is a definition position; every reader recorded by
  a node is live and links back to it; a link names a live registered definition that records
  the reader; and a reader is no definition position.

`validate_eq_ok` reads the checks off the two invariants.
-/

namespace Decompilation

namespace Procedure

/-- An expression a statement may list: it has a slot and is no definition position. -/
def Listable (p : Procedure) (e : ExprId) : Prop :=
  e.index < p.exprs.size ∧ ∀ x, p.expr? e = some x → x.isDef = false

/-- Where the definition positions of `p` stand, and that live nodes list only slots. The
    node `loose`, if any, may be a definition position that no expression lists. -/
structure DefsPlaced (p : Procedure) (loose : Option ExprId) : Prop where
  operand : ∀ {d x q y}, p.expr? d = some x → x.isDef = true → p.expr? q = some y →
    d ∈ y.operands → y.kind = .assign ∧ ∃ rest, y.operands = d :: rest ∧ d ∉ rest
  operand_lt : ∀ {q y}, p.expr? q = some y → ∀ o ∈ y.operands, o.index < p.exprs.size
  stmt : ∀ {s st}, p.stmt? s = some st → ∀ e ∈ st.exprs, p.Listable e
  attached : ∀ {d x}, p.expr? d = some x → x.isDef = true → loose ≠ some d →
    x.parent.isSome = true

/-- The definition/use chains of `p` agree with themselves: registration, readers and links
    are consistent in both directions. -/
structure ChainsExact (p : Procedure) : Prop where
  tracked : ∀ {d x}, p.expr? d = some x → x.tracked = true → x.isDef = true
  uses : ∀ {d x}, p.expr? d = some x → ∀ u ∈ x.uses,
    ∃ y, p.expr? u = some y ∧ y.defLink = some d
  link : ∀ {e y d}, p.expr? e = some y → y.defLink = some d →
    ∃ x, p.expr? d = some x ∧ x.tracked = true ∧ e ∈ x.uses
  reader : ∀ {e y d}, p.expr? e = some y → y.defLink = some d → y.isDef = false

/-- The invariant of the optimizer: definition positions in place, and exact chains. -/
structure Consistent (p : Procedure) : Prop where
  placed : p.DefsPlaced none
  chains : p.ChainsExact

/-- A loop over a list in `Except` whose every round goes on succeeds. -/
theorem forIn_eq_ok {α ε : Type} {l : List α} {f : α → PUnit → Except ε (ForInStep PUnit)}
    (h : ∀ a ∈ l, f a ⟨⟩ = .ok (.yield ⟨⟩)) : forIn l ⟨⟩ f = .ok ⟨⟩ := by
  induction l with
  | nil => rfl
  | cons a l ih =>
    rw [List.forIn_cons, h a List.mem_cons_self]
    exact ih fun b hb => h b (List.mem_cons_of_mem _ hb)

/-- The checks of the chains pass on a consistent procedure. -/
theorem validate_eq_ok {p : Procedure} (h : p.Consistent) : p.validate = .ok () := by
  unfold validate
  rw [forIn_eq_ok, forIn_eq_ok]
  · rfl
  · -- every link names a live registered definition
    intro e he
    obtain ⟨y, hy⟩ := (mem_liveExprs p).1 he
    rw [node_of_expr? p hy]
    cases hl : y.defLink with
    | none => rfl
    | some d =>
      obtain ⟨x, hx, ht, -⟩ := h.chains.link hy hl
      simp [isTracked, hx, ht]
  · -- every registered definition is an attached definition position with readers linked back
    intro d hd
    obtain ⟨x, hx, ht⟩ := (mem_defs p).1 hd
    have hdef := h.chains.tracked hx ht
    have hatt : x.parent.isNone = false := by
      simpa using h.placed.attached hx hdef (by simp)
    simp only [node_of_expr? p hx, hdef, hatt, Bool.not_true, Bool.false_eq_true, if_false]
    rw [forIn_eq_ok]
    · rfl
    · intro u hu
      obtain ⟨y, hy, hl⟩ := h.chains.uses hx u hu
      simp [hy, hl]

end Procedure

end Decompilation
