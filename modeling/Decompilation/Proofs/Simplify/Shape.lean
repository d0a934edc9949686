import Mathlib
import Decompilation.Simplify.Rules
import Decompilation.Proofs.Ir.Access

/-!
# Shapes of expression trees

The simplifier works on the tree below one expression, which a procedure holds as numbered
nodes that list their operands and record their parents. An `ExprShape` is such a tree read out:
the number of its root and the shapes below its operands. `Procedure.Holds p t` says that `p`
holds the tree `t`: each node of `t` is live, lists the roots of the shapes below it as its
operands and is recorded by each of them as their parent, and no number occurs twice.

A step of the simplifier replaces one subtree. A tree is cut at that subtree into a context
(`Ctx`), the path down to it with the shapes beside the path, and the subtree itself; the
step then fills the same context with the replacement.

The simplifier's measure is read off a held tree. Its weight counts every node once more than
its operands, a binary operation twice, and a boolean negation its operands twice over, so
that pushing a negation inwards lowers it; next come the additions and subtractions of a
literal that sign normalization turns around. `ExprShape.rank` folds the two into one number.

* `Ctx.spans_fill`: a filled context is held when the context and its filling are;
* `Ctx.Spans.frame`: a context stays held around a new filling when its nodes keep their fields;
* `Ctx.rank_fill_lt`: filling a context with a subtree below the old one lowers the rank.
-/

namespace Decompilation

namespace ExprKind

/-- The weight a node of kind `k` adds to operands of total weight `n`: a boolean negation
    counts them twice over, a binary operation adds two and any other node one. -/
def weight : ExprKind → Nat → Nat
  | .unary .boolNot, n => 2 * n + 1
  | .binary _, n => n + 2
  | _, n => n + 1

theorem le_weight (k : ExprKind) (n : Nat) : n + 1 ≤ k.weight n := by
  unfold weight
  split <;> omega

theorem weight_lt_weight (k : ExprKind) {m n : Nat} (h : m < n) : k.weight m < k.weight n := by
  unfold weight
  split <;> omega

/-- A literal that sign normalization turns around: negative in its width, and not the most
    negative number, which has no positive counterpart. -/
def negativeLiteral : ExprKind → Bool
  | .val v s =>
    match Rule.signBit? s with
    | some bit => v &&& bit != 0 && v != bit
    | none => false
  | _ => false

/-- An addition or subtraction whose right operand, of kind `right`, is a literal that sign
    normalization turns around. -/
def addsNegative (k right : ExprKind) : Bool :=
  (k == .binary .add || k == .binary .sub) && right.negativeLiteral

end ExprKind

/-- The shape of an expression tree: the number of its root and the shapes below its
    operands, in order. -/
inductive ExprShape where
  | node (e : ExprId) (operands : List ExprShape)

namespace ExprShape

/-- Induction over shapes, knowing the property of every shape below the root's operands. -/
@[elab_as_elim, induction_eliminator]
theorem induction {motive : ExprShape → Prop}
    (node : ∀ e ts, (∀ t ∈ ts, motive t) → motive (.node e ts)) : ∀ t, motive t
  | .node e ts => node e ts fun t _ => induction node t

/-- The number of the root. -/
def root : ExprShape → ExprId
  | .node e _ => e

/-- The subtrees of a shape in post-order: those below each operand, then the shape itself. -/
def subs : ExprShape → List ExprShape
  | .node e ts => ts.flatMap subs ++ [.node e ts]

/-- The numbers of the nodes of a shape in post-order, operands before the expression. -/
def ids (t : ExprShape) : List ExprId := t.subs.map root

@[simp]
theorem root_node (e : ExprId) (ts : List ExprShape) : (node e ts).root = e := rfl

@[simp]
theorem ids_node (e : ExprId) (ts : List ExprShape) : (node e ts).ids = ts.flatMap ids ++ [e] := by
  simp [ids, subs, List.map_flatMap]
  rfl

theorem root_mem_ids (t : ExprShape) : t.root ∈ t.ids := by
  cases t
  simp

theorem mem_subs_node {u : ExprShape} {e : ExprId} {ts : List ExprShape} :
    u ∈ (node e ts).subs ↔ u = node e ts ∨ ∃ t ∈ ts, u ∈ t.subs := by
  rw [subs]
  simp only [List.mem_append, List.mem_flatMap, List.mem_singleton]
  exact Or.comm

theorem self_mem_subs (t : ExprShape) : t ∈ t.subs := by
  cases t
  exact mem_subs_node.2 (.inl rfl)

/-- The numbers of a subtree are numbers of the tree. -/
theorem ids_subset_of_mem_subs {u t : ExprShape} (h : u ∈ t.subs) : u.ids ⊆ t.ids := by
  intro x hx
  obtain ⟨v, hv, rfl⟩ := List.mem_map.1 hx
  induction t with
  | node e ts ih =>
    rcases mem_subs_node.1 h with rfl | ⟨t, ht, hu⟩
    · exact hx
    · rw [ids_node]
      exact List.mem_append_left _ (List.mem_flatMap.2 ⟨t, ht, ih t ht hu⟩)

theorem mem_subs_trans {u v t : ExprShape} (hu : u ∈ v.subs) (hv : v ∈ t.subs) : u ∈ t.subs := by
  induction t with
  | node e ts ih =>
    rcases mem_subs_node.1 hv with rfl | ⟨t, ht, hv⟩
    · exact hu
    · exact mem_subs_node.2 (.inr ⟨t, ht, ih t ht hv⟩)

/-- The numbers of a subtree stand together in those of the tree. -/
theorem ids_infix_of_mem_subs {u t : ExprShape} (h : u ∈ t.subs) : u.ids <:+: t.ids := by
  induction t with
  | node e ts ih =>
    rcases mem_subs_node.1 h with rfl | ⟨t, ht, hu⟩
    · exact List.infix_refl _
    · obtain ⟨l, r, rfl⟩ := List.append_of_mem ht
      refine (ih t ht hu).trans ⟨l.flatMap ids, r.flatMap ids ++ [e], ?_⟩
      simp

/-- The numbers of a tree with distinct numbers, taken apart at its root: those below each
    operand are distinct, the operands' trees share none, and the root is below none. -/
theorem nodup_ids_node {e : ExprId} {ts : List ExprShape} :
    (node e ts).ids.Nodup ↔
      (∀ t ∈ ts, t.ids.Nodup) ∧ ts.Pairwise (fun a b => List.Disjoint a.ids b.ids) ∧
        ∀ t ∈ ts, e ∉ t.ids := by
  rw [ids_node, List.nodup_append', List.nodup_flatMap]
  constructor
  · rintro ⟨⟨h1, h2⟩, -, h3⟩
    exact ⟨h1, h2, fun t ht he => h3 (List.mem_flatMap.2 ⟨t, ht, he⟩) (List.mem_singleton_self e)⟩
  · rintro ⟨h1, h2, h3⟩
    refine ⟨⟨h1, h2⟩, List.nodup_singleton e, fun x hx hx' => ?_⟩
    obtain ⟨t, ht, hxt⟩ := List.mem_flatMap.1 hx
    exact h3 t ht (List.mem_singleton.1 hx' ▸ hxt)

theorem mem_ids_node_of_mem {e x : ExprId} {t : ExprShape} {ts : List ExprShape} (ht : t ∈ ts)
    (hx : x ∈ t.ids) : x ∈ (ExprShape.node e ts).ids := by
  rw [ids_node]
  exact List.mem_append_left _ (List.mem_flatMap.2 ⟨t, ht, hx⟩)

/-! ### Trees a procedure holds -/

/-- `p` holds the tree of shape `t` as far as the links go: every node of `t` is live, lists
    the roots of the shapes below it as its operands, and is recorded by each of them as their
    parent. -/
inductive Spans (p : Procedure) : ExprShape → Prop
  | node {e : ExprId} {ts : List ExprShape} (live : p.isLive e)
      (operands : (p.node e).operands = ts.map root)
      (parents : ∀ t ∈ ts, (p.node t.root).parent = some (.expr e))
      (below : ∀ t ∈ ts, Spans p t) : Spans p (.node e ts)

variable {p p' : Procedure}

theorem spans_node_iff {e : ExprId} {ts : List ExprShape} :
    (node e ts).Spans p ↔ p.isLive e ∧ (p.node e).operands = ts.map root ∧
      (∀ t ∈ ts, (p.node t.root).parent = some (.expr e)) ∧ ∀ t ∈ ts, t.Spans p := by
  constructor
  · rintro ⟨live, ops, parents, below⟩
    exact ⟨live, ops, parents, below⟩
  · rintro ⟨live, ops, parents, below⟩
    exact .node live ops parents below

theorem Spans.sub {t u : ExprShape} (h : t.Spans p) (hu : u ∈ t.subs) : u.Spans p := by
  induction t with
  | node e ts ih =>
    rcases mem_subs_node.1 hu with rfl | ⟨t, ht, hu⟩
    · exact h
    · exact ih t ht ((spans_node_iff.1 h).2.2.2 t ht) hu

theorem Spans.live {t : ExprShape} (h : t.Spans p) {x : ExprId} (hx : x ∈ t.ids) : p.isLive x := by
  obtain ⟨u, hu, rfl⟩ := List.mem_map.1 hx
  cases u with
  | node e ts => exact (spans_node_iff.1 (h.sub hu)).1

/-- A node of a tree other than its root is an operand of a node of the tree, which it records
    as its parent. -/
theorem Spans.parent_mem {t : ExprShape} (h : t.Spans p) {x : ExprId} (hx : x ∈ t.ids)
    (hxr : x ≠ t.root) :
    ∃ q ∈ t.ids, (p.node x).parent = some (.expr q) ∧ x ∈ (p.node q).operands := by
  induction t with
  | node e ts ih =>
    obtain ⟨-, hops, hpar, hbelow⟩ := spans_node_iff.1 h
    rw [ids_node, List.mem_append, List.mem_flatMap] at hx
    rcases hx with ⟨t, ht, hxt⟩ | hxe
    · have hsub : t.ids ⊆ (ExprShape.node e ts).ids := fun y hy => by
        rw [ids_node]
        exact List.mem_append_left _ (List.mem_flatMap.2 ⟨t, ht, hy⟩)
      by_cases hxt' : x = t.root
      · subst hxt'
        refine ⟨e, by simp, hpar t ht, ?_⟩
        rw [hops]
        exact List.mem_map_of_mem ht
      · obtain ⟨q, hq, hqx⟩ := ih t ht (hbelow t ht) hxt hxt'
        exact ⟨q, hsub hq, hqx⟩
    · exact absurd (List.mem_singleton.1 hxe) hxr

/-- The operands of a node of a held tree are nodes of the tree. -/
theorem Spans.operand_mem {t : ExprShape} (h : t.Spans p) {x o : ExprId} (hx : x ∈ t.ids)
    (ho : o ∈ (p.node x).operands) : o ∈ t.ids := by
  obtain ⟨u, hu, rfl⟩ := List.mem_map.1 hx
  cases u with
  | node x us =>
    rw [root_node, (spans_node_iff.1 (h.sub hu)).2.1] at ho
    obtain ⟨v, hv, rfl⟩ := List.mem_map.1 ho
    exact ids_subset_of_mem_subs hu (mem_ids_node_of_mem hv v.root_mem_ids)

/-- Lists of trees held by `p`, each determined by its root, are determined by their roots. -/
theorem eq_of_map_root_eq {ts us : List ExprShape}
    (ih : ∀ t ∈ ts, ∀ u : ExprShape, t.Spans p → u.Spans p → t.root = u.root → t = u)
    (hts : ∀ t ∈ ts, t.Spans p) (hus : ∀ u ∈ us, u.Spans p) (h : ts.map root = us.map root) :
    ts = us := by
  induction ts generalizing us with
  | nil => cases us <;> simp_all
  | cons t ts ihts =>
    cases us with
    | nil => simp at h
    | cons u us =>
      simp only [List.map_cons, List.cons.injEq] at h
      simp only [List.mem_cons, forall_eq_or_imp] at ih hts hus
      rw [ih.1 u hts.1 hus.1 h.1, ihts ih.2 hts.2 hus.2 h.2]

/-- The links of a procedure determine the tree below a node. -/
theorem Spans.unique {t u : ExprShape} (ht : t.Spans p) (hu : u.Spans p) (hr : t.root = u.root) :
    t = u := by
  induction t generalizing u with
  | node e ts ih =>
    cases u with
    | node e' us =>
      obtain ⟨-, hops, -, hbelow⟩ := spans_node_iff.1 ht
      obtain ⟨-, hops', -, hbelow'⟩ := spans_node_iff.1 hu
      simp only [root_node] at hr
      subst hr
      rw [eq_of_map_root_eq (fun t ht u => ih t ht) hbelow hbelow' (hops.symm.trans hops')]

/-- A tree stays held when its nodes keep their fields, the parent of its root aside. -/
theorem Spans.frame {t : ExprShape} (h : t.Spans p) (hnd : t.ids.Nodup)
    (hf : ∀ x ∈ t.ids, p.isLive x → p'.isLive x)
    (hops : ∀ x ∈ t.ids, (p'.node x).operands = (p.node x).operands)
    (hpar : ∀ x ∈ t.ids, x ≠ t.root → (p'.node x).parent = (p.node x).parent) : t.Spans p' := by
  induction t with
  | node e ts ih =>
    obtain ⟨live, ops, par, below⟩ := spans_node_iff.1 h
    obtain ⟨hnd', -, he⟩ := nodup_ids_node.1 hnd
    have hne : ∀ t ∈ ts, ∀ x ∈ t.ids, x ≠ e := fun t ht x hx hxe => he t ht (hxe ▸ hx)
    refine spans_node_iff.2 ⟨hf e (by simp) live, (hops e (by simp)).trans ops, fun t ht => ?_,
      fun t ht => ih t ht (below t ht) (hnd' t ht) (fun x hx => hf x (mem_ids_node_of_mem ht hx))
        (fun x hx => hops x (mem_ids_node_of_mem ht hx))
        (fun x hx _ => hpar x (mem_ids_node_of_mem ht hx) (hne t ht x hx))⟩
    rw [hpar t.root (mem_ids_node_of_mem ht t.root_mem_ids) (hne t ht _ t.root_mem_ids)]
    exact par t ht

/-! ### The measure -/

variable (p)

/-- The weight of a tree: a boolean negation counts its operands twice over, so that pushing it
    inwards lowers the weight, a binary operation counts two more than its operands and any
    other node one more. -/
def weight : ExprShape → Nat
  | .node e ts => (p.node e).kind.weight (ts.map weight).sum

/-- One for an addition or subtraction `e` whose right operand, the second of `ts`, is a
    literal that sign normalization turns around. -/
def turned (e : ExprId) : List ExprShape → Nat
  | _ :: r :: _ => if (p.node e).kind.addsNegative (p.node r.root).kind then 1 else 0
  | _ => 0

/-- The number of additions and subtractions of a literal that sign normalization turns
    around. -/
def negs : ExprShape → Nat
  | .node e ts => (ts.map negs).sum + turned p e ts

/-- The simplifier's measure of a tree: its weight first, then its additions of a negative
    literal. -/
def rank (t : ExprShape) : Nat := t.weight p * (t.weight p + 1) + t.negs p

variable {p}

theorem weight_node (e : ExprId) (ts : List ExprShape) :
    (node e ts).weight p = (p.node e).kind.weight (ts.map (weight p)).sum := by
  rw [weight]

theorem negs_node (e : ExprId) (ts : List ExprShape) :
    (node e ts).negs p = (ts.map (negs p)).sum + turned p e ts := by
  rw [negs]

theorem turned_le_one (e : ExprId) (ts : List ExprShape) : turned p e ts ≤ 1 := by
  unfold turned
  split
  · split <;> omega
  · omega

/-- A tree has no more additions of a negative literal than its weight. -/
theorem negs_le_weight (t : ExprShape) : t.negs p ≤ t.weight p := by
  induction t with
  | node e ts ih =>
    rw [negs_node, weight_node]
    have hsum : (ts.map (negs p)).sum ≤ (ts.map (weight p)).sum := List.sum_le_sum ih
    have := turned_le_one (p := p) e ts
    have := (p.node e).kind.le_weight (ts.map (weight p)).sum
    omega

/-- The weight of a tree does not depend on nodes outside it, nor on what its nodes hold
    besides their kinds. -/
theorem weight_frame {t : ExprShape} (hk : ∀ x ∈ t.ids, (p'.node x).kind = (p.node x).kind) :
    t.weight p' = t.weight p := by
  induction t with
  | node e ts ih =>
    rw [weight_node, weight_node, hk e (by simp),
      List.map_congr_left fun t ht => ih t ht fun x hx => hk x (mem_ids_node_of_mem ht hx)]

theorem turned_frame {e : ExprId} {ts : List ExprShape} (he : (p'.node e).kind = (p.node e).kind)
    (hk : ∀ t ∈ ts, (p'.node t.root).kind = (p.node t.root).kind) :
    turned p' e ts = turned p e ts := by
  unfold turned
  split
  · rw [he, hk _ (by simp)]
  · rfl

theorem negs_frame {t : ExprShape} (hk : ∀ x ∈ t.ids, (p'.node x).kind = (p.node x).kind) :
    t.negs p' = t.negs p := by
  induction t with
  | node e ts ih =>
    rw [negs_node, negs_node,
      turned_frame (hk e (by simp)) fun t ht => hk _ (mem_ids_node_of_mem ht t.root_mem_ids),
      List.map_congr_left fun t ht => ih t ht fun x hx => hk x (mem_ids_node_of_mem ht hx)]

/-- `W` in `p'` comes below `S` in `p` in the simplifier's order: it is lighter, or as heavy
    with fewer additions of a negative literal, the roots being negative literals alike. -/
def Below (p' : Procedure) (W : ExprShape) (p : Procedure) (S : ExprShape) : Prop :=
  W.weight p' < S.weight p ∨
    (W.weight p' = S.weight p ∧ W.negs p' < S.negs p ∧
      (p'.node W.root).kind.negativeLiteral = (p.node S.root).kind.negativeLiteral)

/-- The order lowers the rank. -/
theorem rank_lt_of_lex {W S : ExprShape}
    (h : W.weight p' < S.weight p ∨ (W.weight p' = S.weight p ∧ W.negs p' < S.negs p)) :
    W.rank p' < S.rank p := by
  unfold rank
  rcases h with hw | ⟨hw, hn⟩
  · have hle := negs_le_weight (p := p') W
    have hsq : (W.weight p' + 1) * (W.weight p' + 1) ≤ S.weight p * (S.weight p + 1) :=
      Nat.mul_le_mul (by omega) (by omega)
    have hexp : (W.weight p' + 1) * (W.weight p' + 1) =
        W.weight p' * (W.weight p' + 1) + W.weight p' + 1 := by
      rw [Nat.add_mul, Nat.one_mul]
      omega
    omega
  · rw [hw]
    omega

end ExprShape

namespace Procedure

/-- `p` holds the tree `t`: its links are those of `t`, and no node occurs twice in it. -/
structure Holds (p : Procedure) (t : ExprShape) : Prop where
  spans : t.Spans p
  nodup : t.ids.Nodup

theorem Holds.sub {p : Procedure} {t u : ExprShape} (h : p.Holds t) (hu : u ∈ t.subs) : p.Holds u :=
  ⟨h.spans.sub hu, (ExprShape.ids_infix_of_mem_subs hu).nodup h.nodup⟩

end Procedure

/-- A tree with one subtree cut out: the path from the root down to the hole, with the trees
    beside the path on either side. -/
inductive Ctx where
  | hole
  | node (e : ExprId) (left : List ExprShape) (below : Ctx) (right : List ExprShape)

namespace Ctx

/-- The tree a context makes around a subtree. -/
def fill : Ctx → ExprShape → ExprShape
  | hole, s => s
  | node e l c r, s => .node e (l ++ c.fill s :: r)

/-- The root of the tree a context makes around a subtree whose root is `h`. -/
def top : Ctx → ExprId → ExprId
  | hole, h => h
  | node e _ _ _, _ => e

/-- The numbers of the nodes of a context. -/
def ids : Ctx → List ExprId
  | hole => []
  | node e l c r => l.flatMap ExprShape.ids ++ c.ids ++ r.flatMap ExprShape.ids ++ [e]

@[simp]
theorem root_fill (C : Ctx) (s : ExprShape) : (C.fill s).root = C.top s.root := by
  cases C <;> rfl

theorem ids_fill_perm (C : Ctx) (s : ExprShape) : (C.fill s).ids.Perm (C.ids ++ s.ids) := by
  induction C with
  | hole => simp [fill, ids]
  | node e l c r ih =>
    simp only [fill, ids, ExprShape.ids_node, List.flatMap_append, List.flatMap_cons,
      List.append_assoc]
    refine List.Perm.append_left _ ?_
    calc List.Perm ((c.fill s).ids ++ (r.flatMap ExprShape.ids ++ [e]))
          (c.ids ++ s.ids ++ (r.flatMap ExprShape.ids ++ [e])) := ih.append_right _
      _ = c.ids ++ (s.ids ++ (r.flatMap ExprShape.ids ++ [e])) := List.append_assoc _ _ _
      List.Perm _ (c.ids ++ (r.flatMap ExprShape.ids ++ [e] ++ s.ids)) :=
        List.perm_append_comm.append_left _
      _ = c.ids ++ (r.flatMap ExprShape.ids ++ ([e] ++ s.ids)) := by simp

theorem mem_ids_fill {C : Ctx} {s : ExprShape} {x : ExprId} :
    x ∈ (C.fill s).ids ↔ x ∈ C.ids ∨ x ∈ s.ids :=
  (ids_fill_perm C s).mem_iff.trans List.mem_append

theorem nodup_fill {C : Ctx} {s : ExprShape} :
    (C.fill s).ids.Nodup ↔ C.ids.Nodup ∧ s.ids.Nodup ∧ List.Disjoint C.ids s.ids :=
  (ids_fill_perm C s).nodup_iff.trans List.nodup_append'

/-- Every node of a tree is the root of a subtree that a context is cut around. -/
theorem exists_fill {t : ExprShape} {x : ExprId} (hx : x ∈ t.ids) :
    ∃ (C : Ctx) (s : ExprShape), t = C.fill s ∧ s.root = x := by
  induction t with
  | node e ts ih =>
    rw [ExprShape.ids_node, List.mem_append, List.mem_flatMap, List.mem_singleton] at hx
    rcases hx with ⟨t, ht, hxt⟩ | rfl
    · obtain ⟨C, s, rfl, hs⟩ := ih t ht hxt
      obtain ⟨l, r, rfl⟩ := List.append_of_mem ht
      exact ⟨node e l C r, s, rfl, hs⟩
    · exact ⟨hole, ExprShape.node x ts, rfl, rfl⟩

theorem mem_ids_node {e x : ExprId} {l r : List ExprShape} {c : Ctx} :
    x ∈ (node e l c r).ids ↔ (∃ t ∈ l ++ r, x ∈ t.ids) ∨ x ∈ c.ids ∨ x = e := by
  simp only [ids, List.mem_append, List.mem_flatMap, List.mem_singleton]
  constructor
  · rintro (((⟨t, ht, hx⟩ | hx) | ⟨t, ht, hx⟩) | rfl)
    · exact .inl ⟨t, .inl ht, hx⟩
    · exact .inr (.inl hx)
    · exact .inl ⟨t, .inr ht, hx⟩
    · exact .inr (.inr rfl)
  · rintro (⟨t, ht | ht, hx⟩ | hx | rfl)
    · exact .inl (.inl (.inl ⟨t, ht, hx⟩))
    · exact .inl (.inr ⟨t, ht, hx⟩)
    · exact .inl (.inl (.inr hx))
    · exact .inr rfl

variable {p p' : Procedure}

/-- `p` holds the nodes of context `C` around a subtree whose root is `h`: each is live, lists
    the roots of the trees below it (the one on the path in its place) and is recorded by them
    as their parent, and the trees beside the path are held. -/
def Spans (p : Procedure) : Ctx → ExprId → Prop
  | hole, _ => True
  | node e l c r, h =>
    p.isLive e ∧ (p.node e).operands = l.map ExprShape.root ++ c.top h :: r.map ExprShape.root ∧
      (p.node (c.top h)).parent = some (.expr e) ∧
      (∀ t ∈ l ++ r, (p.node t.root).parent = some (.expr e) ∧ t.Spans p) ∧ c.Spans p h

/-- A filled context is held exactly when the context is, around the root of its filling, and
    the filling is. -/
theorem spans_fill (C : Ctx) (s : ExprShape) : (C.fill s).Spans p ↔ C.Spans p s.root ∧ s.Spans p := by
  induction C with
  | hole => simp [fill, Spans]
  | node e l c r ih =>
    rw [fill, ExprShape.spans_node_iff, Spans]
    have hmap : (l ++ c.fill s :: r).map ExprShape.root =
        l.map ExprShape.root ++ c.top s.root :: r.map ExprShape.root := by simp
    have hmem : ∀ t, t ∈ l ++ c.fill s :: r ↔ t ∈ l ++ r ∨ t = c.fill s := by
      intro t
      simp only [List.mem_append, List.mem_cons]
      tauto
    rw [hmap]
    constructor
    · rintro ⟨live, ops, par, below⟩
      obtain ⟨hc, hs⟩ := ih.1 (below _ ((hmem _).2 (.inr rfl)))
      refine ⟨⟨live, ops, ?_, fun t ht => ⟨par t ((hmem t).2 (.inl ht)),
        below t ((hmem t).2 (.inl ht))⟩, hc⟩, hs⟩
      simpa using par _ ((hmem _).2 (.inr rfl))
    · rintro ⟨⟨live, ops, pc, hlr, hc⟩, hs⟩
      refine ⟨live, ops, fun t ht => ?_, fun t ht => ?_⟩ <;> rcases (hmem t).1 ht with ht | rfl
      · exact (hlr t ht).1
      · simpa using pc
      · exact (hlr t ht).2
      · exact ih.2 ⟨hc, hs⟩

/-- A context stays held around a subtree with root `b` in place of one with root `a` when its
    nodes stay live, list what they listed with `b` in the place of `a`, and keep their
    parents, and `b` records the parent `a` recorded. -/
theorem Spans.frame {C : Ctx} {a b : ExprId} (h : C.Spans p a) (hnd : C.ids.Nodup)
    (ha : a ∉ C.ids) (hlive : ∀ x ∈ C.ids, p.isLive x → p'.isLive x)
    (hops : ∀ x ∈ C.ids,
      (p'.node x).operands = (p.node x).operands.map fun o => if o = a then b else o)
    (hpar : ∀ x ∈ C.ids, x ≠ C.top a → (p'.node x).parent = (p.node x).parent)
    (hb : (p'.node b).parent = (p.node a).parent) : C.Spans p' b := by
  induction C with
  | hole => trivial
  | node e l c r ih =>
    obtain ⟨live, ops, pc, hlr, hc⟩ := h
    -- what the distinct numbers of the context give: `e` is nowhere below it
    have hpre := hnd.of_append_left
    have he : e ∉ l.flatMap ExprShape.ids ++ c.ids ++ r.flatMap ExprShape.ids := fun hx =>
      List.disjoint_of_nodup_append hnd hx (List.mem_singleton_self e)
    have hmemc : ∀ x ∈ c.ids, x ∈ (node e l c r).ids := fun x hx => mem_ids_node.2 (.inr (.inl hx))
    have hmemt : ∀ t ∈ l ++ r, ∀ x ∈ t.ids, x ∈ (node e l c r).ids := fun t ht x hx =>
      mem_ids_node.2 (.inl ⟨t, ht, hx⟩)
    have hnet : ∀ t ∈ l ++ r, ∀ x ∈ t.ids, x ≠ e := by
      rintro t ht x hx rfl
      rcases List.mem_append.1 ht with ht | ht
      · exact he (List.mem_append_left _ (List.mem_append_left _ (List.mem_flatMap.2 ⟨t, ht, hx⟩)))
      · exact he (List.mem_append_right _ (List.mem_flatMap.2 ⟨t, ht, hx⟩))
    have hnec : ∀ x ∈ c.ids, x ≠ e := by
      rintro x hx rfl
      exact he (List.mem_append_left _ (List.mem_append_right _ hx))
    have hnda : ∀ t ∈ l ++ r, t.ids.Nodup := by
      intro t ht
      rcases List.mem_append.1 ht with ht | ht
      · exact (List.nodup_flatMap.1 hpre.of_append_left.of_append_left).1 t ht
      · exact (List.nodup_flatMap.1 hpre.of_append_right).1 t ht
    have hswap : ∀ o ∈ (node e l c r).ids, (if o = a then b else o) = o := fun o ho =>
      if_neg fun hoa : o = a => ha (hoa ▸ ho)
    have htop : (if c.top a = a then b else c.top a) = c.top b := by
      cases c with
      | hole => exact if_pos rfl
      | node e' _ _ _ => exact hswap e' (hmemc e' (by simp [ids]))
    refine ⟨hlive e (by simp [ids]) live, ?_, ?_, fun t ht => ⟨?_, ?_⟩,
      ih hc hpre.of_append_left.of_append_right (fun hx => ha (hmemc a hx))
        (fun x hx => hlive x (hmemc x hx)) (fun x hx => hops x (hmemc x hx))
        (fun x hx _ => hpar x (hmemc x hx) (hnec x hx))⟩
    · rw [hops e (by simp [ids]), ops, List.map_append, List.map_cons, htop]
      congr 1
      · exact (List.map_congr_left (g := id) fun o ho => by
          obtain ⟨t, ht, rfl⟩ := List.mem_map.1 ho
          exact hswap _ (hmemt t (List.mem_append_left _ ht) _ t.root_mem_ids)).trans
            (List.map_id _)
      · congr 1
        exact (List.map_congr_left (g := id) fun o ho => by
          obtain ⟨t, ht, rfl⟩ := List.mem_map.1 ho
          exact hswap _ (hmemt t (List.mem_append_right _ ht) _ t.root_mem_ids)).trans
            (List.map_id _)
    · cases c with
      | hole => exact hb.trans pc
      | node e' l' c' r' =>
        have he' : e' ∈ (node e' l' c' r').ids := by simp [ids]
        exact (hpar e' (hmemc e' he') (hnec e' he')).trans pc
    · rw [hpar t.root (hmemt t ht _ t.root_mem_ids) (hnet t ht _ t.root_mem_ids)]
      exact (hlr t ht).1
    · refine (hlr t ht).2.frame (hnda t ht) (fun x hx => hlive x (hmemt t ht x hx))
        (fun x hx => ?_) (fun x hx _ => hpar x (hmemt t ht x hx) (hnet t ht x hx))
      rw [hops x (hmemt t ht x hx)]
      exact (List.map_congr_left (g := id) fun o ho =>
        hswap o (hmemt t ht o ((hlr t ht).2.operand_mem hx ho))).trans (List.map_id _)

theorem sum_weight_frame {l : List ExprShape} {C : Ctx}
    (hk : ∀ x ∈ C.ids, (p'.node x).kind = (p.node x).kind)
    (hts : ∀ t ∈ l, ∀ x ∈ t.ids, x ∈ C.ids) :
    (l.map (ExprShape.weight p')).sum = (l.map (ExprShape.weight p)).sum :=
  congrArg List.sum (List.map_congr_left fun t ht =>
    ExprShape.weight_frame fun x hx => hk x (hts t ht x hx))

theorem sum_negs_frame {l : List ExprShape} {C : Ctx}
    (hk : ∀ x ∈ C.ids, (p'.node x).kind = (p.node x).kind)
    (hts : ∀ t ∈ l, ∀ x ∈ t.ids, x ∈ C.ids) :
    (l.map (ExprShape.negs p')).sum = (l.map (ExprShape.negs p)).sum :=
  congrArg List.sum (List.map_congr_left fun t ht =>
    ExprShape.negs_frame fun x hx => hk x (hts t ht x hx))

/-- The second operand decides whether an addition turns around, and only through whether it is
    a negative literal. -/
theorem turned_fill {e : ExprId} {l r : List ExprShape} {x y : ExprShape}
    (he : (p'.node e).kind = (p.node e).kind)
    (hlr : ∀ t ∈ l ++ r, (p'.node t.root).kind = (p.node t.root).kind)
    (hxy : (p'.node x.root).kind.negativeLiteral = (p.node y.root).kind.negativeLiteral) :
    ExprShape.turned p' e (l ++ x :: r) = ExprShape.turned p e (l ++ y :: r) := by
  rcases l with _ | ⟨a, _ | ⟨b, l⟩⟩
  · cases r with
    | nil => rfl
    | cons b r => simp [ExprShape.turned, he, hlr b (by simp)]
  · simp [ExprShape.turned, ExprKind.addsNegative, he, hxy]
  · simp [ExprShape.turned, he, hlr b (by simp)]

section Measure

variable {C : Ctx} {W S : ExprShape} (hk : ∀ x ∈ C.ids, (p'.node x).kind = (p.node x).kind)
include hk

theorem weight_fill_lt (h : W.weight p' < S.weight p) :
    (C.fill W).weight p' < (C.fill S).weight p := by
  induction C with
  | hole => exact h
  | node e l c r ih =>
    have hc := ih fun x hx => hk x (mem_ids_node.2 (.inr (.inl hx)))
    have hl := sum_weight_frame (l := l) hk fun t ht x hx =>
      mem_ids_node.2 (.inl ⟨t, List.mem_append_left _ ht, hx⟩)
    have hr := sum_weight_frame (l := r) hk fun t ht x hx =>
      mem_ids_node.2 (.inl ⟨t, List.mem_append_right _ ht, hx⟩)
    rw [fill, fill, ExprShape.weight_node, ExprShape.weight_node, hk e (by simp [ids])]
    apply ExprKind.weight_lt_weight
    simp only [List.map_append, List.map_cons, List.sum_append, List.sum_cons]
    omega

theorem weight_fill_eq (h : W.weight p' = S.weight p) :
    (C.fill W).weight p' = (C.fill S).weight p := by
  induction C with
  | hole => exact h
  | node e l c r ih =>
    have hc := ih fun x hx => hk x (mem_ids_node.2 (.inr (.inl hx)))
    have hl := sum_weight_frame (l := l) hk fun t ht x hx =>
      mem_ids_node.2 (.inl ⟨t, List.mem_append_left _ ht, hx⟩)
    have hr := sum_weight_frame (l := r) hk fun t ht x hx =>
      mem_ids_node.2 (.inl ⟨t, List.mem_append_right _ ht, hx⟩)
    rw [fill, fill, ExprShape.weight_node, ExprShape.weight_node, hk e (by simp [ids])]
    simp only [List.map_append, List.map_cons, List.sum_append, List.sum_cons]
    rw [hl, hr, hc]

theorem negs_fill_lt (h : W.negs p' < S.negs p)
    (hlit : (p'.node W.root).kind.negativeLiteral = (p.node S.root).kind.negativeLiteral) :
    (C.fill W).negs p' < (C.fill S).negs p := by
  induction C with
  | hole => exact h
  | node e l c r ih =>
    have hc := ih fun x hx => hk x (mem_ids_node.2 (.inr (.inl hx)))
    have hl := sum_negs_frame (l := l) hk fun t ht x hx =>
      mem_ids_node.2 (.inl ⟨t, List.mem_append_left _ ht, hx⟩)
    have hr := sum_negs_frame (l := r) hk fun t ht x hx =>
      mem_ids_node.2 (.inl ⟨t, List.mem_append_right _ ht, hx⟩)
    -- the root on the path below `e` is the new filling's only where the path ends
    have htop : (p'.node (c.top W.root)).kind.negativeLiteral =
        (p.node (c.top S.root)).kind.negativeLiteral := by
      cases c with
      | hole => exact hlit
      | node e' _ _ _ => rw [top, top, hk e' (mem_ids_node.2 (.inr (.inl (by simp [ids]))))]
    have hturned := turned_fill (l := l) (r := r) (x := c.fill W) (y := c.fill S)
      (hk e (by simp [ids])) (fun t ht => hk _ (mem_ids_node.2 (.inl ⟨t, ht, t.root_mem_ids⟩)))
      (by simpa using htop)
    rw [fill, fill, ExprShape.negs_node, ExprShape.negs_node, hturned]
    simp only [List.map_append, List.map_cons, List.sum_append, List.sum_cons]
    omega

/-- Filling a context with a subtree below the one it held lowers the rank of the whole. -/
theorem rank_fill_lt (h : ExprShape.Below p' W p S) : (C.fill W).rank p' < (C.fill S).rank p := by
  apply ExprShape.rank_lt_of_lex
  rcases h with hw | ⟨hw, hn, hlit⟩
  · exact .inl (weight_fill_lt hk hw)
  · exact .inr ⟨weight_fill_eq hk hw, negs_fill_lt hk hn hlit⟩

end Measure

end Ctx

end Decompilation
