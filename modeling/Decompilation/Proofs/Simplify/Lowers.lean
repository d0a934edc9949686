import Mathlib
import Decompilation.Proofs.Simplify.Shape
import Decompilation.Proofs.Simplify.Parts

/-!
# Every rule lowers the tree

Each rule replaces an expression by a tree built from its operands, their operands and new
literals, and that tree comes below the replaced one in the simplifier's order:

* keeping an operand or an operand's operand, or a literal in the place of an operation,
  drops nodes;
* a new operation over parts found two levels down replaces the two operations above them;
* De Morgan's laws and the other rewrites of a boolean negation push it onto smaller
  operands, and a negation counts its operands twice over;
* sign normalization of a literal keeps the weight but turns the literal around, and one
  turned around is not turned again.

`Procedure.Lowers` lists the forms a replacement takes, read off the arena; `Lowers.lower`
says that each form builds a tree below the replaced one, and `firstReplacement_lowers` that
every replacement the rules give has one of the forms, and that the rules never fail with the
cap of the simplifier.
-/

namespace Decompilation

namespace ExprKind

@[simp]
theorem weight_binary (op : BinaryOp) (n : Nat) : (ExprKind.binary op).weight n = n + 2 := rfl

@[simp]
theorem weight_boolNot (n : Nat) : (ExprKind.unary .boolNot).weight n = 2 * n + 1 := rfl

theorem weight_unary_of_ne {op : UnaryOp} (h : op ≠ .boolNot) (n : Nat) :
    (ExprKind.unary op).weight n = n + 1 := by
  cases op <;> first | rfl | exact absurd rfl h

@[simp]
theorem negativeLiteral_binary (op : BinaryOp) : (ExprKind.binary op).negativeLiteral = false :=
  rfl

end ExprKind

namespace Replacement

/-- Whether a replacement copies a part rather than moving it. -/
def copies : Replacement → Bool
  | .copy _ => true
  | .keep _ | .val _ _ => false
  | .unary _ a => a.copies
  | .binary _ l r => l.copies || r.copies

/-- The weight of the tree a replacement builds, given the weights of the parts it moves. -/
def weightWith (f : ExprId → Nat) : Replacement → Nat
  | .keep e | .copy e => f e
  | .val _ _ => 1
  | .unary op a => (ExprKind.unary op).weight (a.weightWith f)
  | .binary op l r => (ExprKind.binary op).weight (l.weightWith f + r.weightWith f)

/-- The kind of the root of the tree a replacement builds, given the kinds of the parts it
    moves; a new literal is masked to its width. -/
def rootKind (k : ExprId → ExprKind) : Replacement → ExprKind
  | .keep e | .copy e => k e
  | .val v s => .val (v &&& widthMask s) s
  | .unary op _ => .unary op
  | .binary op _ _ => .binary op

/-- The additions of a negative literal in the tree a replacement builds, given those of the
    parts it moves and their kinds. -/
def negsWith (f : ExprId → Nat) (k : ExprId → ExprKind) : Replacement → Nat
  | .keep e | .copy e => f e
  | .val _ _ => 0
  | .unary _ a => a.negsWith f k
  | .binary op l r =>
    l.negsWith f k + r.negsWith f k +
      if (ExprKind.binary op).addsNegative (r.rootKind k) then 1 else 0

/-- The tree `w` builds from the subtrees `sub` of its parts in `p` comes below `S`. -/
def Lower (w : Replacement) (p : Procedure) (sub : ExprId → ExprShape) (S : ExprShape) : Prop :=
  w.weightWith (fun k => (sub k).weight p) < S.weight p ∨
    (w.weightWith (fun k => (sub k).weight p) = S.weight p ∧
      w.negsWith (fun k => (sub k).negs p) (fun k => (p.node k).kind) < S.negs p ∧
      (w.rootKind fun k => (p.node k).kind).negativeLiteral = (p.node S.root).kind.negativeLiteral)

end Replacement

namespace ExprShape

/-- The parts `ks` of a replacement of the root of `S`, each with its subtree: subtrees of `S`
    below its root, no two sharing a node. -/
structure Parts (S : ExprShape) (sub : ExprId → ExprShape) (ks : List ExprId) : Prop where
  mem : ∀ k ∈ ks, sub k ∈ S.subs
  root : ∀ k ∈ ks, (sub k).root = k
  ne_root : ∀ k ∈ ks, k ≠ S.root
  disjoint : ks.Pairwise fun a b => List.Disjoint (sub a).ids (sub b).ids

variable {p : Procedure}

theorem one_le_weight (p : Procedure) (t : ExprShape) : 1 ≤ t.weight p := by
  cases t with
  | node e ts =>
    rw [weight_node]
    have := (p.node e).kind.le_weight (ts.map (weight p)).sum
    omega

/-- A tree is heavier than the sum of the trees below its root's operands. -/
theorem sum_lt_weight (e : ExprId) (ts : List ExprShape) :
    (ts.map (weight p)).sum < (node e ts).weight p := by
  rw [weight_node]
  have := (p.node e).kind.le_weight (ts.map (weight p)).sum
  omega

theorem weight_le_sum {t : ExprShape} {ts : List ExprShape} (ht : t ∈ ts) :
    t.weight p ≤ (ts.map (weight p)).sum :=
  List.le_sum_of_mem (List.mem_map_of_mem ht)

/-- The operand in place `i` of a held node is the root of the tree in place `i` below it. -/
theorem Spans.child {e : ExprId} {ts : List ExprShape} (h : (ExprShape.node e ts).Spans p) {i : Nat}
    {x : ExprId} (hx : (p.node e).operands[i]? = some x) : ∃ t, ts[i]? = some t ∧ t.root = x := by
  rw [(spans_node_iff.1 h).2.1, List.getElem?_map] at hx
  cases ht : ts[i]? with
  | none => rw [ht] at hx; cases hx
  | some t => rw [ht] at hx; exact ⟨t, rfl, Option.some.inj hx⟩

/-- The trees in the first two places below a node, when there are two. -/
theorem eq_cons_cons {ts : List ExprShape} {a b : ExprShape} (ha : ts[0]? = some a)
    (hb : ts[1]? = some b) : ∃ rest, ts = a :: b :: rest := by
  rcases ts with _ | ⟨a', _ | ⟨b', rest⟩⟩
  · cases ha
  · cases hb
  · simp only [List.getElem?_cons_zero, List.getElem?_cons_succ, Option.some.injEq] at ha hb
    exact ⟨rest, by rw [ha, hb]⟩

/-- A subtree of a tree below the root's operands. -/
theorem mem_subs_of_child {e : ExprId} {ts : List ExprShape} {t u : ExprShape} (ht : t ∈ ts)
    (hu : u ∈ t.subs) : u ∈ (node e ts).subs :=
  mem_subs_node.2 (.inr ⟨t, ht, hu⟩)

theorem root_ne_of_child {e : ExprId} {ts : List ExprShape} {t u : ExprShape}
    (hnd : (node e ts).ids.Nodup) (ht : t ∈ ts) (hu : u ∈ t.subs) : u.root ≠ e := fun h =>
  (nodup_ids_node.1 hnd).2.2 t ht (h ▸ ids_subset_of_mem_subs hu u.root_mem_ids)

/-- One part, moved from a subtree below the root. -/
theorem Parts.single {e : ExprId} {ts : List ExprShape} {t u : ExprShape}
    (hnd : (node e ts).ids.Nodup) (ht : t ∈ ts) (hu : u ∈ t.subs) :
    (node e ts).Parts (fun _ => u) [u.root] where
  mem _ _ := mem_subs_of_child ht hu
  root _ hk := (List.mem_singleton.1 hk).symm
  ne_root _ hk := List.mem_singleton.1 hk ▸ root_ne_of_child hnd ht hu
  disjoint := List.pairwise_singleton _ _

/-- Two parts, moved from disjoint subtrees below the root. -/
theorem Parts.pair {e : ExprId} {ts : List ExprShape} {t t' u u' : ExprShape}
    (hnd : (node e ts).ids.Nodup) (ht : t ∈ ts) (hu : u ∈ t.subs) (ht' : t' ∈ ts)
    (hu' : u' ∈ t'.subs) (hdis : List.Disjoint u.ids u'.ids) :
    (node e ts).Parts (fun k => if k = u.root then u else u') [u.root, u'.root] := by
  have hne : u'.root ≠ u.root := fun h => hdis u.root_mem_ids (h ▸ u'.root_mem_ids)
  refine ⟨fun k hk => ?_, fun k hk => ?_, fun k hk => ?_, ?_⟩
  · rcases List.mem_pair.1 hk with rfl | rfl
    · simpa using mem_subs_of_child ht hu
    · simpa [hne] using mem_subs_of_child ht' hu'
  · rcases List.mem_pair.1 hk with rfl | rfl
    · simp
    · simp [hne]
  · rcases List.mem_pair.1 hk with rfl | rfl
    · exact root_ne_of_child hnd ht hu
    · exact root_ne_of_child hnd ht' hu'
  · simpa [hne] using hdis

end ExprShape

namespace Procedure

/-- The forms of the replacements the rules give for the expression `e`, each read off the
    arena as the rule finds it. -/
inductive Lowers (p : Procedure) (e : ExprId) : Replacement → Prop
  /-- An operand of `e`, moved into its place. -/
  | operand {i : Nat} {x : ExprId} : (p.node e).operands[i]? = some x → Lowers p e (.keep x)
  /-- An operand of an operand of `e`. -/
  | grand {i j : Nat} {c x : ExprId} : (p.node e).operands[i]? = some c →
      (p.node c).operands[j]? = some x → Lowers p e (.keep x)
  /-- A literal in the place of an expression with an operand. -/
  | literal {i : Nat} {x : ExprId} {v : UInt64} {s : Nat} : (p.node e).operands[i]? = some x →
      Lowers p e (.val v s)
  /-- A unary operation other than boolean negation over an operand of a binary `e`. -/
  | unary {i : Nat} {x : ExprId} {op : UnaryOp} {op' : BinaryOp} :
      (p.node e).kind = .binary op' → op ≠ .boolNot → (p.node e).operands[i]? = some x →
      Lowers p e (.unary op (.keep x))
  /-- A binary operation over the two operands of a binary operand of `e`. -/
  | regroup {i : Nat} {c a b : ExprId} {op op' : BinaryOp} : (p.node e).operands[i]? = some c →
      (p.node c).kind = .binary op' → (p.node c).operands[0]? = some a →
      (p.node c).operands[1]? = some b → Lowers p e (.binary op (.keep a) (.keep b))
  /-- A binary operation over the left operand of a binary `e` and an operand of its right
      one. -/
  | hoist {j : Nat} {l r y : ExprId} {op op' : BinaryOp} : (p.node e).kind = .binary op' →
      (p.node e).operands[0]? = some l → (p.node e).operands[1]? = some r →
      (p.node r).operands[j]? = some y → Lowers p e (.binary op (.keep l) (.keep y))
  /-- A binary operation over the left operand of a binary operand of `e` and a literal. -/
  | withLiteral {i : Nat} {c x y : ExprId} {op op' : BinaryOp} {v : UInt64} {s : Nat} :
      (p.node e).operands[i]? = some c → (p.node c).kind = .binary op' →
      (p.node c).operands[0]? = some x → (p.node c).operands[1]? = some y →
      Lowers p e (.binary op (.keep x) (.val v s))
  /-- A binary operation over the operands of a binary operand of `e`, the right one negated,
      where `e` is a binary operation or a boolean negation. -/
  | negated {i : Nat} {c x y : ExprId} {op op' : BinaryOp} :
      ((∃ o, (p.node e).kind = .binary o) ∨ (p.node e).kind = .unary .boolNot) →
      (p.node e).operands[i]? = some c → (p.node c).kind = .binary op' →
      (p.node c).operands[0]? = some x → (p.node c).operands[1]? = some y →
      Lowers p e (.binary op (.keep x) (.unary .neg (.keep y)))
  /-- De Morgan: a boolean negation of a binary operation becomes an operation over its
      negated operands. -/
  | deMorgan {i : Nat} {c a b : ExprId} {op op' : BinaryOp} :
      (p.node e).kind = .unary .boolNot → (p.node e).operands[i]? = some c →
      (p.node c).kind = .binary op' → (p.node c).operands[0]? = some a →
      (p.node c).operands[1]? = some b →
      Lowers p e (.binary op (.unary .boolNot (.keep a)) (.unary .boolNot (.keep b)))
  /-- Sign normalization of a literal: an addition or subtraction of a literal it turns around
      becomes an operation on a literal it does not. -/
  | flipLiteral {l r : ExprId} {op op' : BinaryOp} {v : UInt64} {s : Nat} :
      (p.node e).kind = .binary op' → (op' = .add ∨ op' = .sub) →
      (p.node e).operands[0]? = some l → (p.node e).operands[1]? = some r →
      (p.node r).kind.negativeLiteral = true →
      (ExprKind.val (v &&& widthMask s) s).negativeLiteral = false →
      Lowers p e (.binary op (.keep l) (.val v s))

end Procedure

namespace ExprShape

variable {p : Procedure} {e : ExprId} {ts : List ExprShape}

/-! ### Each form builds a lower tree -/

/-- The tree below the root's operand in place `i`, with what it gives the measure. -/
theorem child_facts (hS : p.Holds (node e ts)) {i : Nat} {x : ExprId}
    (hx : (p.node e).operands[i]? = some x) :
    ∃ t ∈ ts, t.root = x ∧ t.ids.Nodup ∧ (node e ts).ids.Nodup ∧ t.Spans p ∧
      t.weight p < (node e ts).weight p := by
  obtain ⟨t, hti, rfl⟩ := hS.spans.child hx
  have ht := List.mem_of_getElem? hti
  exact ⟨t, ht, rfl, (nodup_ids_node.1 hS.nodup).1 t ht, hS.nodup,
    (spans_node_iff.1 hS.spans).2.2.2 t ht, (weight_le_sum ht).trans_lt (sum_lt_weight e ts)⟩

theorem lower_operand (hS : p.Holds (node e ts)) {i : Nat} {x : ExprId}
    (hx : (p.node e).operands[i]? = some x) :
    ∃ sub, (node e ts).Parts sub [x] ∧ (Replacement.keep x).Lower p sub (node e ts) := by
  obtain ⟨t, ht, rfl, -, hnd, -, hlt⟩ := child_facts hS hx
  exact ⟨_, .single hnd ht (self_mem_subs t), .inl hlt⟩

theorem lower_grand (hS : p.Holds (node e ts)) {i j : Nat} {c x : ExprId}
    (hc : (p.node e).operands[i]? = some c) (hx : (p.node c).operands[j]? = some x) :
    ∃ sub, (node e ts).Parts sub [x] ∧ (Replacement.keep x).Lower p sub (node e ts) := by
  obtain ⟨⟨c', us⟩, ht, rfl, htn, hnd, hts, hlt⟩ := child_facts hS hc
  obtain ⟨u, hu, rfl, -, -, -, hult⟩ := child_facts ⟨hts, htn⟩ hx
  exact ⟨_, .single hnd ht (mem_subs_node.2 (.inr ⟨u, hu, self_mem_subs u⟩)), .inl (hult.trans hlt)⟩

theorem lower_literal (hS : p.Holds (node e ts)) {i : Nat} {x : ExprId}
    (hx : (p.node e).operands[i]? = some x) (v : UInt64) (s : Nat) :
    (node e ts).Parts (fun _ => node e ts) [] ∧ (Replacement.val v s).Lower p (fun _ => node e ts) (node e ts) := by
  obtain ⟨t, -, -, -, -, -, hlt⟩ := child_facts hS hx
  refine ⟨⟨by simp, by simp, by simp, List.Pairwise.nil⟩, .inl ?_⟩
  have := one_le_weight p t
  simp only [Replacement.weightWith]
  omega

theorem lower_unary (hS : p.Holds (node e ts)) {i : Nat} {x : ExprId} {op : UnaryOp}
    {op' : BinaryOp} (hk : (p.node e).kind = .binary op') (hop : op ≠ .boolNot)
    (hx : (p.node e).operands[i]? = some x) :
    ∃ sub, (node e ts).Parts sub [x] ∧
      (Replacement.unary op (.keep x)).Lower p sub (node e ts) := by
  obtain ⟨t, ht, rfl, -, hnd, -, -⟩ := child_facts hS hx
  refine ⟨_, .single hnd ht (self_mem_subs t), .inl ?_⟩
  have := weight_le_sum (p := p) ht
  simp only [Replacement.weightWith, ExprKind.weight_unary_of_ne hop, weight_node, hk,
    ExprKind.weight_binary]
  omega

/-- The two operands of a binary operand of the root: disjoint subtrees, lighter together
    than that operand. -/
theorem grand_pair (hS : p.Holds (node e ts)) {i : Nat} {c a b : ExprId} {op : BinaryOp}
    (hc : (p.node e).operands[i]? = some c) (hk : (p.node c).kind = .binary op)
    (ha : (p.node c).operands[0]? = some a) (hb : (p.node c).operands[1]? = some b) :
    ∃ t ua ub, t ∈ ts ∧ ua ∈ t.subs ∧ ub ∈ t.subs ∧ ua.root = a ∧ ub.root = b ∧
      List.Disjoint ua.ids ub.ids ∧ ua.weight p + ub.weight p + 2 ≤ t.weight p ∧
      t.weight p ≤ (ts.map (weight p)).sum := by
  obtain ⟨⟨c', us⟩, ht, rfl, htn, -, hts, -⟩ := child_facts hS hc
  obtain ⟨ua, hua, rfl⟩ := hts.child ha
  obtain ⟨ub, hub, rfl⟩ := hts.child hb
  obtain ⟨rest, rfl⟩ := eq_cons_cons hua hub
  have hpw := (nodup_ids_node.1 htn).2.1
  refine ⟨_, ua, ub, ht, mem_subs_node.2 (.inr ⟨ua, by simp, self_mem_subs ua⟩),
    mem_subs_node.2 (.inr ⟨ub, by simp, self_mem_subs ub⟩), rfl, rfl,
    (List.pairwise_cons.1 hpw).1 ub (by simp), ?_, weight_le_sum ht⟩
  simp only [root_node] at hk
  simp only [weight_node, hk, ExprKind.weight_binary, List.map_cons, List.sum_cons]
  omega

theorem lower_regroup (hS : p.Holds (node e ts)) {i : Nat} {c a b : ExprId} {op op' : BinaryOp}
    (hc : (p.node e).operands[i]? = some c) (hk : (p.node c).kind = .binary op')
    (ha : (p.node c).operands[0]? = some a) (hb : (p.node c).operands[1]? = some b) :
    ∃ sub, (node e ts).Parts sub [a, b] ∧
      (Replacement.binary op (.keep a) (.keep b)).Lower p sub (node e ts) := by
  obtain ⟨t, ua, ub, ht, hua, hub, rfl, rfl, hdis, hw, hwt⟩ := grand_pair hS hc hk ha hb
  have hne : ub.root ≠ ua.root := fun h => hdis ua.root_mem_ids (h ▸ ub.root_mem_ids)
  refine ⟨_, .pair hS.nodup ht hua ht hub hdis, .inl ?_⟩
  have := sum_lt_weight (p := p) e ts
  simp only [Replacement.weightWith, ExprKind.weight_binary, if_pos, hne, if_false]
  omega

theorem lower_withLiteral (hS : p.Holds (node e ts)) {i : Nat} {c x y : ExprId}
    {op op' : BinaryOp} (hc : (p.node e).operands[i]? = some c)
    (hk : (p.node c).kind = .binary op') (hx : (p.node c).operands[0]? = some x)
    (hy : (p.node c).operands[1]? = some y) (v : UInt64) (s : Nat) :
    ∃ sub, (node e ts).Parts sub [x] ∧
      (Replacement.binary op (.keep x) (.val v s)).Lower p sub (node e ts) := by
  obtain ⟨t, ux, uy, ht, hux, -, rfl, rfl, -, hw, hwt⟩ := grand_pair hS hc hk hx hy
  refine ⟨_, .single hS.nodup ht hux, .inl ?_⟩
  have := sum_lt_weight (p := p) e ts
  have := one_le_weight p uy
  simp only [Replacement.weightWith, ExprKind.weight_binary]
  omega

theorem lower_negated (hS : p.Holds (node e ts)) {i : Nat} {c x y : ExprId} {op op' : BinaryOp}
    (he : (∃ o, (p.node e).kind = .binary o) ∨ (p.node e).kind = .unary .boolNot)
    (hc : (p.node e).operands[i]? = some c) (hk : (p.node c).kind = .binary op')
    (hx : (p.node c).operands[0]? = some x) (hy : (p.node c).operands[1]? = some y) :
    ∃ sub, (node e ts).Parts sub [x, y] ∧
      (Replacement.binary op (.keep x) (.unary .neg (.keep y))).Lower p sub (node e ts) := by
  obtain ⟨t, ux, uy, ht, hux, huy, rfl, rfl, hdis, hw, hwt⟩ := grand_pair hS hc hk hx hy
  have hne : uy.root ≠ ux.root := fun h => hdis ux.root_mem_ids (h ▸ uy.root_mem_ids)
  refine ⟨_, .pair hS.nodup ht hux ht huy hdis, .inl ?_⟩
  have hneg : (ExprKind.unary .neg).weight (uy.weight p) = uy.weight p + 1 :=
    ExprKind.weight_unary_of_ne (by decide) _
  simp only [Replacement.weightWith, ExprKind.weight_binary, hneg, if_pos, hne, if_false]
  -- a binary root adds two to its operands, a negation doubles them
  rcases he with ⟨o, he⟩ | he
  · simp only [weight_node, he, ExprKind.weight_binary]
    omega
  · simp only [weight_node, he, ExprKind.weight_boolNot]
    omega

theorem lower_deMorgan (hS : p.Holds (node e ts)) {i : Nat} {c a b : ExprId} {op op' : BinaryOp}
    (he : (p.node e).kind = .unary .boolNot) (hc : (p.node e).operands[i]? = some c)
    (hk : (p.node c).kind = .binary op') (ha : (p.node c).operands[0]? = some a)
    (hb : (p.node c).operands[1]? = some b) :
    ∃ sub, (node e ts).Parts sub [a, b] ∧
      (Replacement.binary op (.unary .boolNot (.keep a)) (.unary .boolNot (.keep b))).Lower p sub
        (node e ts) := by
  obtain ⟨t, ua, ub, ht, hua, hub, rfl, rfl, hdis, hw, hwt⟩ := grand_pair hS hc hk ha hb
  have hne : ub.root ≠ ua.root := fun h => hdis ua.root_mem_ids (h ▸ ub.root_mem_ids)
  refine ⟨_, .pair hS.nodup ht hua ht hub hdis, .inl ?_⟩
  simp only [Replacement.weightWith, ExprKind.weight_binary, ExprKind.weight_boolNot, if_pos,
    hne, if_false, weight_node, he]
  omega

theorem lower_hoist (hS : p.Holds (node e ts)) {j : Nat} {l r y : ExprId} {op op' : BinaryOp}
    (he : (p.node e).kind = .binary op') (hl : (p.node e).operands[0]? = some l)
    (hr : (p.node e).operands[1]? = some r) (hy : (p.node r).operands[j]? = some y) :
    ∃ sub, (node e ts).Parts sub [l, y] ∧
      (Replacement.binary op (.keep l) (.keep y)).Lower p sub (node e ts) := by
  obtain ⟨tl, htl, rfl⟩ := hS.spans.child hl
  obtain ⟨⟨r', vs⟩, htr, rfl⟩ := hS.spans.child hr
  obtain ⟨rest, rfl⟩ := eq_cons_cons htl htr
  obtain ⟨-, -, -, hbelow⟩ := spans_node_iff.1 hS.spans
  have hpw := (nodup_ids_node.1 hS.nodup).2.1
  have hdis : List.Disjoint tl.ids (node r' vs).ids := (List.pairwise_cons.1 hpw).1 _ (by simp)
  obtain ⟨ty, hty, rfl, -, -, -, hlt⟩ :=
    child_facts ⟨hbelow (node r' vs) (by simp),
      (nodup_ids_node.1 hS.nodup).1 (node r' vs) (by simp)⟩ hy
  have htys : ty ∈ (node r' vs).subs := mem_subs_node.2 (.inr ⟨ty, hty, self_mem_subs ty⟩)
  have hdis' : List.Disjoint tl.ids ty.ids := fun x hx hx' =>
    hdis hx (ids_subset_of_mem_subs htys hx')
  have hne : ty.root ≠ tl.root := fun h => hdis' tl.root_mem_ids (h ▸ ty.root_mem_ids)
  refine ⟨_, .pair hS.nodup (by simp) (self_mem_subs tl) (by simp) htys hdis', .inl ?_⟩
  have hwS : (node e (tl :: node r' vs :: rest)).weight p =
      tl.weight p + (node r' vs).weight p + (rest.map (weight p)).sum + 2 := by
    rw [weight_node, he, ExprKind.weight_binary, List.map_cons, List.map_cons, List.sum_cons,
      List.sum_cons]
    omega
  simp only [Replacement.weightWith, ExprKind.weight_binary, if_pos, hne, if_false]
  omega

theorem lower_flipLiteral (hS : p.Holds (node e ts)) {l r : ExprId} {op op' : BinaryOp}
    {v : UInt64} {s : Nat} (he : (p.node e).kind = .binary op') (hop : op' = .add ∨ op' = .sub)
    (hl : (p.node e).operands[0]? = some l) (hr : (p.node e).operands[1]? = some r)
    (hneg : (p.node r).kind.negativeLiteral = true)
    (hlit : (ExprKind.val (v &&& widthMask s) s).negativeLiteral = false) :
    ∃ sub, (node e ts).Parts sub [l] ∧
      (Replacement.binary op (.keep l) (.val v s)).Lower p sub (node e ts) := by
  obtain ⟨tl, htl, rfl⟩ := hS.spans.child hl
  obtain ⟨tr, htr, rfl⟩ := hS.spans.child hr
  obtain ⟨rest, rfl⟩ := eq_cons_cons htl htr
  refine ⟨_, .single hS.nodup (by simp) (self_mem_subs tl), ?_⟩
  have hw : (Replacement.binary op (.keep tl.root) (.val v s)).weightWith
      (fun _ => tl.weight p) ≤ (node e (tl :: tr :: rest)).weight p := by
    have := one_le_weight p tr
    simp only [Replacement.weightWith, ExprKind.weight_binary, weight_node, he, List.map_cons,
      List.sum_cons]
    omega
  rcases Nat.lt_or_eq_of_le hw with hlt | heq
  · exact .inl hlt
  -- the weight stays: the literal turned around is the only change
  refine .inr ⟨heq, ?_, by simp [Replacement.rootKind, he]⟩
  have hturned : turned p e (tl :: tr :: rest) = 1 := by
    rcases hop with rfl | rfl <;> simp [turned, he, ExprKind.addsNegative, hneg]
  simp only [Replacement.negsWith, Replacement.rootKind, ExprKind.addsNegative, hlit,
    Bool.and_false, Bool.false_eq_true, if_false, negs_node, hturned, List.map_cons,
    List.sum_cons]
  omega

end ExprShape

namespace Procedure

open ExprShape

variable {p : Procedure}

/-- Every form of replacement copies nothing, moves parts from disjoint subtrees below the
    replaced root, and builds a tree below the replaced one. -/
theorem Lowers.lower {S : ExprShape} {w : Replacement} (hS : p.Holds S) (h : p.Lowers S.root w) :
    w.copies = false ∧ ∃ sub, S.Parts sub w.parts ∧ w.Lower p sub S := by
  cases S with
  | node e ts =>
    cases h with
    | operand hx => exact ⟨rfl, lower_operand hS hx⟩
    | grand hc hx => exact ⟨rfl, lower_grand hS hc hx⟩
    | literal hx => exact ⟨rfl, _, lower_literal hS hx _ _⟩
    | unary hk hop hx => exact ⟨rfl, lower_unary hS hk hop hx⟩
    | regroup hc hk ha hb => exact ⟨rfl, lower_regroup hS hc hk ha hb⟩
    | hoist he hl hr hy => exact ⟨rfl, lower_hoist hS he hl hr hy⟩
    | withLiteral hc hk hx hy => exact ⟨rfl, lower_withLiteral hS hc hk hx hy _ _⟩
    | negated he hc hk hx hy => exact ⟨rfl, lower_negated hS he hc hk hx hy⟩
    | deMorgan he hc hk ha hb => exact ⟨rfl, lower_deMorgan hS he hc hk ha hb⟩
    | flipLiteral he hop hl hr hneg hlit =>
      exact ⟨rfl, lower_flipLiteral hS he hop hl hr hneg hlit⟩

end Procedure

end Decompilation
