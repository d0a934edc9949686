import Mathlib
import Decompilation.Proofs.Ir.Copy
import Decompilation.Proofs.Structure.Moves

/-!
# What the traversals and the listings read

`Procedure.preOrder` walks the tree below an expression and `Procedure.render` writes its text,
both with the depth bound of the procedure as their fuel; `Procedure.exprsIn` walks the
statements of a container, descending into bodies, with the nesting bound as its fuel. On a tree
the procedure holds, the fuel is never short: the pre-order walk reads the shape, and the text of
a tree is fixed by the kinds and subscripts at its places, so two trees of one form write alike
in any two procedures, and a copy writes as its original. The walk of a container reads only the
containers, statements and trees below it.

* `ExprShape.preIds`: the numbers of a shape, each before those below its operands;
* `ExprShape.Spans.preOrder_go`: the pre-order walk of a held tree is its shape's;
* `Procedure.renderNode_congr`: nodes of one kind and subscript over operands written alike are
  written alike;
* `Procedure.render_go_along`: trees of one form, kinds and subscripts write alike;
* `Procedure.exprsIn_go_congr`, `Procedure.mem_exprsIn_go`: the walk of a container reads only
  what hangs below it.
-/

namespace Decompilation

namespace ExprShape

/-- The numbers of the nodes of a shape in pre-order: the root, then those below each operand. -/
def preIds : ExprShape → List ExprId
  | .node e ts => e :: ts.flatMap preIds

@[simp]
theorem preIds_node (e : ExprId) (ts : List ExprShape) :
    (node e ts).preIds = e :: ts.flatMap preIds := by
  rw [preIds]

/-- Pre-order and post-order list the same nodes. -/
theorem preIds_perm (t : ExprShape) : t.preIds.Perm t.ids := by
  induction t with
  | node e ts ih =>
    rw [preIds_node, ids_node]
    exact ((List.Perm.flatMap_left ts ih).cons e).trans (List.perm_append_singleton _ _).symm

theorem eq_of_mem_zip_self {ts : List ExprShape} {u : ExprShape × ExprShape}
    (hu : u ∈ ts.zip ts) : u.2 = u.1 := by
  induction ts with
  | nil => simp at hu
  | cons t ts ih =>
    rcases List.mem_cons.1 hu with rfl | hu
    · rfl
    · exact ih hu

/-- A tree is of its own form along any relation that holds of each of its nodes with itself. -/
theorem along_self {R : ExprId → ExprId → Prop} (t : ExprShape) (h : ∀ x ∈ t.ids, R x x) :
    t.Along R t := by
  induction t with
  | node e ts ih =>
    refine .node (h e (by simp)) rfl fun u hu => ?_
    have hu1 := (List.of_mem_zip hu).1
    rw [eq_of_mem_zip_self hu]
    exact ih u.1 hu1 fun x hx => h x (mem_ids_node_of_mem hu1 hx)

/-- With fuel for every node, the pre-order walk from the root of a held tree lists the tree in
    pre-order. -/
theorem Spans.preOrder_go {p : Procedure} {t : ExprShape} (h : t.Spans p) {n : Nat}
    (hn : t.ids.length ≤ n) : Procedure.preOrder.go p n t.root = t.preIds := by
  induction t generalizing n with
  | node e ts ih =>
    obtain ⟨-, hops, -, hbelow⟩ := spans_node_iff.1 h
    obtain ⟨m, rfl⟩ : ∃ m, n = m + 1 :=
      ⟨n - 1, by have := List.length_pos_of_mem (ExprShape.node e ts).root_mem_ids; omega⟩
    rw [root_node, Procedure.preOrder.go, hops, preIds_node, List.flatMap_map]
    refine congrArg (e :: ·) (List.flatMap_congr fun u hu => ih u hu (hbelow u hu) ?_)
    have := length_ids_lt_of_mem (e := e) hu
    omega

/-- The nodes of a held tree are below its root. -/
theorem Spans.below_of_mem {p : Procedure} {t : ExprShape} (ht : t.Spans p) {x : ExprId}
    (hx : x ∈ t.ids) : p.Below t.root x := by
  induction t with
  | node e ts ih =>
    obtain ⟨-, hops, -, hbelow⟩ := spans_node_iff.1 ht
    rw [ids_node, List.mem_append, List.mem_flatMap, List.mem_singleton] at hx
    rcases hx with ⟨u, hu, hx⟩ | rfl
    · have ho : u.root ∈ (p.node e).operands := hops ▸ List.mem_map_of_mem hu
      exact (Procedure.Below.operand .refl ho).trans (ih u hu (hbelow u hu) hx)
    · exact .refl

end ExprShape

namespace Procedure

open ExprShape

variable {p q : Procedure}

/-! ### The pre-order walk -/

/-- The pre-order walk of a held tree, within the depth bound, is its shape's. -/
theorem Holds.preOrder {t : ExprShape} (h : p.Holds t) : p.preOrder t.root = t.preIds :=
  h.spans.preOrder_go (Nat.le_succ_of_le h.length_ids_le)

/-- A node below the root of a held tree is a node of the tree. -/
theorem Holds.mem_of_below {t : ExprShape} (h : p.Holds t) {x : ExprId} (hx : p.Below t.root x) :
    x ∈ t.ids := by
  induction hx with
  | refl => exact t.root_mem_ids
  | operand _ ho ih => exact h.spans.operand_mem ih ho

/-- The pre-order walk lists only nodes below its start. -/
theorem below_of_mem_preOrder_go {n : Nat} {c x : ExprId} (h : x ∈ preOrder.go p n c) :
    p.Below c x := by
  induction n generalizing c with
  | zero => simp [preOrder.go] at h
  | succ n ih =>
    rw [preOrder.go, List.mem_cons, List.mem_flatMap] at h
    rcases h with rfl | ⟨o, ho, hx⟩
    · exact .refl
    · exact (Below.operand .refl ho).trans (ih hx)

/-! ### Texts -/

/-- Whether an operand is written in parentheses depends on its kind and subscript alone. -/
theorem isCompound_congr {x x' : ExprNode} (hk : x'.kind = x.kind) (hi : x'.idx = x.idx) :
    isCompound x' = isCompound x := by
  unfold isCompound
  rw [hk, hi]

/-- Reading the operand at one place of two nodes whose operands correspond, and going on alike
    from corresponding operands, goes alike: the same operand error, or the same answer. -/
theorem operandAt_bind_congr {α : Type} {R : ExprId → ExprId → Prop} {x x' : ExprNode}
    (hops : List.Forall₂ R x.operands x'.operands) (i : Nat) {f f' : ExprId → Except Error α}
    (hf : ∀ o o', R o o' → f' o' = f o) : (x'.operandAt i >>= f') = (x.operandAt i >>= f) := by
  have hlen := hops.length_eq
  unfold ExprNode.operandAt
  by_cases hi : i < x.operands.length
  · rw [List.getElem?_eq_getElem hi, List.getElem?_eq_getElem (hlen ▸ hi)]
    exact hf _ _ (hops.get hi (hlen ▸ hi))
  · rw [List.getElem?_eq_none (by omega), List.getElem?_eq_none (by omega), hlen]
    rfl

/-- Mapping over corresponding lists alike goes alike. -/
theorem mapM_congr_forall₂ {α : Type} {R : ExprId → ExprId → Prop} {l l' : List ExprId}
    (h : List.Forall₂ R l l') {f f' : ExprId → Except Error α}
    (hf : ∀ o o', R o o' → f' o' = f o) : l'.mapM f' = l.mapM f := by
  induction h with
  | nil => rfl
  | cons ho _ ih => simp only [List.mapM_cons, hf _ _ ho, ih]

/-- Two nodes of the same kind and subscript, whose operands correspond with the same texts
    below them and the same parentheses, are written alike: each kind reads its operands in the
    same places. -/
theorem renderNode_congr {x x' : ExprNode} {below below' : Bool → ExprId → Except Error String}
    {compound compound' : ExprId → Bool} (hk : x'.kind = x.kind) (hi : x'.idx = x.idx)
    (hops : List.Forall₂ (fun o o' => (∀ b, below' b o' = below b o) ∧ compound' o' = compound o)
      x.operands x'.operands) (sub : Bool) :
    renderNode x' below' compound' sub = renderNode x below compound sub := by
  unfold renderNode
  rw [hk, hi]
  cases x.kind with
  | reg | val | asm => rfl
  | binary op =>
    dsimp only
    refine operandAt_bind_congr hops 0 fun o o' ho => ?_
    simp only [ho.1, ho.2]
    refine bind_congr fun l => operandAt_bind_congr hops 1 fun o o' ho => ?_
    simp only [ho.1, ho.2]
  | unary op =>
    cases op with
    | deref =>
      dsimp only
      by_cases hc : (sub && x.idx.isSome) = true
      · rw [if_pos hc, if_pos hc]
        refine operandAt_bind_congr hops 0 fun o o' ho => ?_
        simp only [ho.1]
      · rw [if_neg hc, if_neg hc]
        refine operandAt_bind_congr hops 0 fun o o' ho => ?_
        simp only [ho.1, ho.2]
    | neg | bitNot | addrOf | boolNot =>
      dsimp only
      refine operandAt_bind_congr hops 0 fun o o' ho => ?_
      simp only [ho.1, ho.2]
  | tcond =>
    dsimp only
    refine operandAt_bind_congr hops 0 fun o o' ho => ?_
    simp only [ho.1, ho.2]
    refine bind_congr fun c => operandAt_bind_congr hops 1 fun o o' ho => ?_
    simp only [ho.1, ho.2]
    refine bind_congr fun a => operandAt_bind_congr hops 2 fun o o' ho => ?_
    simp only [ho.1, ho.2]
  | assign =>
    dsimp only
    refine operandAt_bind_congr hops 0 fun o o' ho => ?_
    simp only [ho.1]
    refine bind_congr fun l => operandAt_bind_congr hops 1 fun o o' ho => ?_
    simp only [ho.1]
  | phi =>
    dsimp only
    rw [mapM_congr_forall₂ hops fun o o' ho => ho.1 true]
  | call =>
    dsimp only
    refine operandAt_bind_congr hops 0 fun o o' ho => ?_
    simp only [ho.1, ho.2]
    refine bind_congr fun f => ?_
    rw [← List.drop_one, ← List.drop_one,
      mapM_congr_forall₂ (List.forall₂_drop 1 hops) fun o o' ho => ho.1 true]

/-- Two trees of one form, each held in its procedure, whose nodes at the same places have the
    same kinds and subscripts, are written alike, with any fuel beyond the size of the first. -/
theorem render_go_along {t t' : ExprShape} (ht : t.Spans p) (ht' : t'.Spans q)
    (hal : t.Along (fun x x' => (q.node x').kind = (p.node x).kind ∧
      (q.node x').idx = (p.node x).idx) t')
    {n n' : Nat} (hn : t.ids.length ≤ n) (hn' : t.ids.length ≤ n') (sub : Bool) :
    render.go q n' sub t'.root = render.go p n sub t.root := by
  induction hal generalizing n n' sub with
  | @node e e' ts ts' root length below ih =>
    obtain ⟨live, hops, -, hbelow⟩ := spans_node_iff.1 ht
    obtain ⟨live', hops', -, hbelow'⟩ := spans_node_iff.1 ht'
    have hpos := List.length_pos_of_mem (ExprShape.node e ts).root_mem_ids
    obtain ⟨m, rfl⟩ : ∃ m, n = m + 1 := ⟨n - 1, by omega⟩
    obtain ⟨m', rfl⟩ : ∃ m', n' = m' + 1 := ⟨n' - 1, by omega⟩
    obtain ⟨x, hx⟩ := Option.isSome_iff_exists.1 live
    obtain ⟨x', hx'⟩ := Option.isSome_iff_exists.1 live'
    rw [node_of_expr? p hx] at hops root
    rw [node_of_expr? q hx'] at hops' root
    rw [root_node, root_node, render.go, render.go, hx, hx']
    refine renderNode_congr root.1 root.2 ?_ sub
    rw [hops, hops', List.forall₂_map_left_iff, List.forall₂_map_right_iff,
      List.forall₂_iff_zip]
    refine ⟨length.symm, fun {u u'} huu => ⟨fun b => ?_, ?_⟩⟩
    · have hu := (List.of_mem_zip huu).1
      have := length_ids_lt_of_mem (e := e) hu
      have hum : u.ids.length ≤ m := by omega
      have hum' : u.ids.length ≤ m' := by omega
      exact ih (u, u') huu (hbelow u hu) (hbelow' u' (List.of_mem_zip huu).2) hum hum' b
    · -- both operands are live, of the same kind and subscript
      obtain ⟨hk, hi⟩ := (below (u, u') huu).root
      have hu := hbelow u (List.of_mem_zip huu).1
      have hu' := hbelow' u' (List.of_mem_zip huu).2
      obtain ⟨y, hy⟩ := Option.isSome_iff_exists.1 (hu.live u.root_mem_ids)
      obtain ⟨y', hy'⟩ := Option.isSome_iff_exists.1 (hu'.live u'.root_mem_ids)
      rw [node_of_expr? p hy, node_of_expr? q hy'] at hk hi
      simp [hy, hy', isCompound_congr hk hi]

/-- The text of a tree held in two procedures that agree on the kinds and subscripts of its
    nodes is the same in both, within their depth bounds. -/
theorem Holds.render_eq {t : ExprShape} (ht : p.Holds t) (ht' : q.Holds t)
    (hv : ∀ x ∈ t.ids, (q.node x).kind = (p.node x).kind ∧ (q.node x).idx = (p.node x).idx)
    (sub : Bool) : q.render sub t.root = p.render sub t.root :=
  render_go_along ht.spans ht'.spans (along_self t hv)
    (Nat.le_succ_of_le ht.length_ids_le) (Nat.le_succ_of_le (ht'.length_ids_le)) sub

/-! ### The expressions of a container -/

/-- The walk of a container lists only expressions below an expression of a statement hanging
    below the container. -/
theorem mem_exprsIn_go {n : Nat} {c : CntrId} {x : ExprId} (h : x ∈ exprsIn.go p n c) :
    ∃ s, p.Within c s ∧ ∃ e ∈ (p.stmtNode s).exprs, x ∈ p.preOrder e := by
  induction n generalizing c with
  | zero => simp [exprsIn.go] at h
  | succ n ih =>
    rw [exprsIn.go, List.mem_flatMap] at h
    obtain ⟨s, hs, hx⟩ := h
    rcases List.mem_append.1 hx with hx | hx
    · obtain ⟨e, he, hx⟩ := List.mem_flatMap.1 hx
      exact ⟨s, .listed hs, e, he, hx⟩
    · obtain ⟨b, hb, hx⟩ := List.mem_flatMap.1 hx
      obtain ⟨s', hw, e, he, hx⟩ := ih hx
      exact ⟨s', Within.trans (.listed hs) hb hw, e, he, hx⟩

/-- Two procedures that agree on a family of containers closed under bodies (their statements,
    the expressions and bodies of those, and the pre-order walks of the expressions) walk those
    containers alike. -/
theorem exprsIn_go_congr {C : CntrId → Prop}
    (hc : ∀ c, C c → (q.cntrNode c).stmts = (p.cntrNode c).stmts)
    (hs : ∀ c, C c → ∀ s ∈ (p.cntrNode c).stmts,
      (q.stmtNode s).exprs = (p.stmtNode s).exprs ∧
      (q.stmtNode s).children = (p.stmtNode s).children ∧ (∀ b ∈ (p.stmtNode s).children, C b) ∧
      ∀ e ∈ (p.stmtNode s).exprs, q.preOrder e = p.preOrder e)
    (n : Nat) : ∀ c, C c → exprsIn.go q n c = exprsIn.go p n c := by
  induction n with
  | zero => exact fun _ _ => rfl
  | succ n ih =>
    intro c hC
    rw [exprsIn.go, exprsIn.go, hc c hC]
    refine List.flatMap_congr fun s hsc => ?_
    obtain ⟨he, hch, hb, hpre⟩ := hs c hC s hsc
    simp only [he, hch]
    rw [List.flatMap_congr hpre, List.flatMap_congr fun b hbc => ih b (hb b hbc)]

end Procedure

end Decompilation
