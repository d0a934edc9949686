import Mathlib
import Decompilation.Proofs.Structure.Listing

/-!
# Checking a procedure by computation

The invariants of the arena and the listing speak of every statement, container and body, so
they cannot be evaluated as they stand. Over the slots of a procedure they can: `Forest` states
the invariants with each quantifier bounded by the slots, and the number of a statement for its
rank, so that `decide` evaluates it; and `flatten?` computes a listing within a depth of
nesting. A procedure built from a description, statement bodies before the statements owning
them, passes both.

* `Procedure.Forest`, `Forest.wellFormed`: the invariants of the arena, by computation;
* `Procedure.flatten?`, `flat_of_flatten?`: a listing, by computation.
-/

namespace Decompilation

namespace Procedure

variable {p : Procedure}

/-- The invariants of the arena over its slots, each statement ranked by its number. -/
def Forest (p : Procedure) : Prop :=
  (∀ i < p.cntrs.size, ∀ s ∈ (p.cntrNode ⟨i⟩).stmts,
    (p.stmt? s).isSome ∧ (p.stmtNode s).parent = some ⟨i⟩) ∧
  (∀ i < p.stmts.size, (p.stmt? ⟨i⟩).isSome → ∀ c ∈ (p.stmtNode ⟨i⟩).parent,
    (p.cntr? c).isSome ∧ (p.cntrNode c).stmts.count ⟨i⟩ = 1) ∧
  (∀ i < p.stmts.size, ∀ c ∈ (p.stmtNode ⟨i⟩).children,
    (p.cntr? c).isSome ∧ (p.cntrNode c).parent = some ⟨i⟩) ∧
  (∀ i < p.cntrs.size, (p.cntr? ⟨i⟩).isSome → ∀ s ∈ (p.cntrNode ⟨i⟩).parent,
    (p.stmt? s).isSome ∧ (p.stmtNode s).children.count ⟨i⟩ = 1) ∧
  (∀ i < p.stmts.size, ∀ e ∈ (p.stmtNode ⟨i⟩).exprs,
    (p.expr? e).isSome ∧ (p.node e).parent = some (.stmt ⟨i⟩)) ∧
  (∀ i < p.stmts.size, (p.stmtNode ⟨i⟩).exprs.Nodup) ∧
  (∀ i < p.exprs.size, ∀ o ∈ (p.node ⟨i⟩).operands,
    (p.expr? o).isSome ∧ (p.node o).parent = some (.expr ⟨i⟩)) ∧
  (∀ i < p.stmts.size, (p.stmtNode ⟨i⟩).kind.isJump = true → (p.stmtNode ⟨i⟩).children = []) ∧
  (∀ i < p.stmts.size, ∀ c ∈ (p.stmtNode ⟨i⟩).children, ∀ s ∈ (p.cntrNode c).stmts,
    s.index < i) ∧
  p.blocks.Pairwise (fun a b => a.address < b.address) ∧
  (∀ b ∈ p.blocks, (p.cntr? b.container).isSome ∧ (p.cntrNode b.container).parent = none) ∧
  (p.blocks.map Block.container).Nodup ∧
  (p.blocks ≠ [] → ∃ b ∈ p.blocks, p.entry = some b.address)

set_option synthInstance.maxSize 512 in
instance : DecidablePred Forest := fun _ => inferInstanceAs (Decidable (_ ∧ _))

/-- A procedure passing the check is well-formed: a bounded statement covers every live node,
    whose number is below the slots, and a statement ranks by its number. -/
theorem Forest.wellFormed (h : p.Forest) : p.WellFormed := by
  obtain ⟨hlisted, honce, howned, howner, hexprs, hslots, hops, hjumps, hrank, hsorted, hroots,
    hdistinct, hentry⟩ := h
  refine ⟨?listed, ?once, ?owned, ?owner, ?exprs, ?slots, ?operands, ?jumps,
    ⟨StmtId.index, ?ranked⟩, hsorted, ?roots, hdistinct, hentry⟩
  case listed =>
    intro c ct s hc hs
    have h := hlisted c.index (index_lt_of_cntr? hc)
    rw [show (⟨c.index⟩ : CntrId) = c from rfl, cntrNode_of_cntr? hc] at h
    obtain ⟨hlive, hpar⟩ := h s hs
    obtain ⟨st, hst⟩ := Option.isSome_iff_exists.1 hlive
    exact ⟨st, hst, by rwa [stmtNode_of_stmt? hst] at hpar⟩
  case once =>
    intro s st c hs hpar
    have h := honce s.index (index_lt_of_stmt? hs)
    rw [show (⟨s.index⟩ : StmtId) = s from rfl, stmtNode_of_stmt? hs, hs] at h
    obtain ⟨hlive, hcount⟩ := h rfl c hpar
    obtain ⟨ct, hct⟩ := Option.isSome_iff_exists.1 hlive
    exact ⟨ct, hct, by rwa [cntrNode_of_cntr? hct] at hcount⟩
  case owned =>
    intro s st c hs hc
    have h := howned s.index (index_lt_of_stmt? hs)
    rw [show (⟨s.index⟩ : StmtId) = s from rfl, stmtNode_of_stmt? hs] at h
    obtain ⟨hlive, hpar⟩ := h c hc
    obtain ⟨ct, hct⟩ := Option.isSome_iff_exists.1 hlive
    exact ⟨ct, hct, by rwa [cntrNode_of_cntr? hct] at hpar⟩
  case owner =>
    intro c ct s hc hpar
    have h := howner c.index (index_lt_of_cntr? hc)
    rw [show (⟨c.index⟩ : CntrId) = c from rfl, cntrNode_of_cntr? hc, hc] at h
    obtain ⟨hlive, hcount⟩ := h rfl s hpar
    obtain ⟨st, hst⟩ := Option.isSome_iff_exists.1 hlive
    exact ⟨st, hst, by rwa [stmtNode_of_stmt? hst] at hcount⟩
  case exprs =>
    intro s st e hs he
    have h := hexprs s.index (index_lt_of_stmt? hs)
    rw [show (⟨s.index⟩ : StmtId) = s from rfl, stmtNode_of_stmt? hs] at h
    obtain ⟨hlive, hpar⟩ := h e he
    obtain ⟨x, hx⟩ := Option.isSome_iff_exists.1 hlive
    exact ⟨x, hx, by rwa [node_of_expr? p hx] at hpar⟩
  case slots =>
    intro s st hs
    have h := hslots s.index (index_lt_of_stmt? hs)
    rwa [show (⟨s.index⟩ : StmtId) = s from rfl, stmtNode_of_stmt? hs] at h
  case operands =>
    intro e x o he ho
    have h := hops e.index (index_lt_of_expr? p he)
    rw [show (⟨e.index⟩ : ExprId) = e from rfl, node_of_expr? p he] at h
    obtain ⟨hlive, hpar⟩ := h o ho
    obtain ⟨y, hy⟩ := Option.isSome_iff_exists.1 hlive
    exact ⟨y, hy, by rwa [node_of_expr? p hy] at hpar⟩
  case jumps =>
    intro s st hs hj
    have h := hjumps s.index (index_lt_of_stmt? hs)
    rw [show (⟨s.index⟩ : StmtId) = s from rfl, stmtNode_of_stmt? hs] at h
    exact h hj
  case ranked =>
    intro t b s hb hs
    -- a statement that is not live has no bodies
    cases ht : p.stmt? t with
    | none => simp [stmtNode_of_stmt?_eq_none ht] at hb
    | some st => exact hrank t.index (index_lt_of_stmt? ht) b hb s hs
  case roots =>
    intro b hb
    obtain ⟨hlive, hpar⟩ := hroots b hb
    obtain ⟨ct, hct⟩ := Option.isSome_iff_exists.1 hlive
    exact ⟨ct, hct, by rwa [cntrNode_of_cntr? hct] at hpar⟩

example : (Procedure.new 16).Forest := by decide +kernel

variable (p) in
/-- The statements `ss` with each loop replaced by the listing of its bodies, within `depth`
    levels of lists; none when a loop lies deeper. -/
def flatten? : Nat → List StmtId → Option (List StmtId)
  | 0, _ => none
  | depth + 1, ss => ss.foldr (fun s acc => acc.bind fun rest =>
      if (p.stmtNode s).kind.isLoop then (flatten? depth (p.bodyStmts s)).map (· ++ rest)
      else some (s :: rest)) (some [])

/-- What `flatten?` computes is the listing. -/
theorem flat_of_flatten? : ∀ {depth : Nat} {ss l : List StmtId},
    p.flatten? depth ss = some l → p.Flat ss l
  | 0, _, _, h => by simp [flatten?] at h
  | depth + 1, ss, l, h => by
    -- along the list; the bodies of a loop are flattened one level deeper
    induction ss generalizing l with
    | nil =>
      simp only [flatten?, List.foldr_nil, Option.some.injEq] at h
      subst h
      exact .nil
    | cons s ss ih =>
      simp only [flatten?, List.foldr_cons] at h
      obtain ⟨rest, hrest, h⟩ := Option.bind_eq_some_iff.1 h
      split at h
      · next hloop =>
        obtain ⟨body, hbody, rfl⟩ := Option.map_eq_some_iff.1 h
        exact .loop hloop (flat_of_flatten? hbody) (ih _ hrest)
      · next hloop =>
        cases h
        exact .plain (by simpa using hloop) (ih _ hrest)

end Procedure

/-- An answer whose value passes a check is a success with a value passing it. -/
theorem exists_ok_of_any {ε α : Type} {x : Except ε α} {P : α → Prop} [DecidablePred P]
    (h : (x.toOption.any fun a => decide (P a)) = true) : ∃ a, x = .ok a ∧ P a := by
  cases x with
  | error e => simp [Except.toOption] at h
  | ok a => exact ⟨a, rfl, by simpa [Except.toOption] using h⟩

end Decompilation
