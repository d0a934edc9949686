import Mathlib
import Decompilation.Proofs.Simplify.Exposed
import Decompilation.Proofs.Ir.Copy

/-!
# Building a replacement over the trees of its parts

A replacement that moves its parts is built by taking each part out of the list that holds it
and allocating the new nodes over them, operands first. Over parts whose trees are held, laid
out and disjoint, the build gives a detached tree, held and laid out, whose nodes are new or
nodes of the parts' trees, and which exposes every call the parts' trees exposed
(`Replacement.build_built`).

What the build does to the nodes that were there is one frame, `Procedure.Plucked`: every old
node keeps its kind and whether it is live, the parts lose their parent, and the nodes that
held them lose them from their operands. Plucking a part gives it; allocating a node over
parts and new nodes keeps it; and two batches of disjoint parts compose.

* `Procedure.Plucked`: the frame of taking parts out and adding nodes;
* `Procedure.pluckExpr_plucked`, `Procedure.Grown.plucked`: plucking and allocating keep it;
* `Replacement.build_built`: what building a replacement that copies nothing gives.
-/

namespace Decompilation

namespace Procedure

variable {p q q' r : Procedure} {E : Procedure → Prop}

/-- The operands `y` keeps when the parts `ks` leave the lists that hold them: all but the parts
    that record `y` as their parent. -/
def keptOperands (p : Procedure) (ks : List ExprId) (y : ExprId) : List ExprId :=
  (p.node y).operands.filter fun o => !decide (o ∈ ks ∧ (p.node o).parent = some (.expr y))

theorem mem_keptOperands {ks : List ExprId} {y o : ExprId} :
    o ∈ p.keptOperands ks y ↔
      o ∈ (p.node y).operands ∧ (o ∈ ks → (p.node o).parent ≠ some (.expr y)) := by
  simp [keptOperands, imp_iff_not_or]

/-- A node that holds none of the parts keeps all its operands. -/
theorem keptOperands_eq_self {ks : List ExprId} {y : ExprId}
    (h : ∀ o ∈ (p.node y).operands, o ∈ ks → (p.node o).parent ≠ some (.expr y)) :
    p.keptOperands ks y = (p.node y).operands :=
  List.filter_eq_self.2 fun o ho => by simpa [imp_iff_not_or] using h o ho

theorem keptOperands_sublist (ks : List ExprId) (y : ExprId) :
    (p.keptOperands ks y).Sublist (p.node y).operands :=
  List.filter_sublist

/-- `q` comes from `p` by taking the parts `ks` out of the lists that hold them and adding nodes
    after the slots of `p`: each node of `p` keeps whether it is live and its kind, its parent
    unless it is a part, and its operands but the parts that left it. -/
structure Plucked (p : Procedure) (ks : List ExprId) (q : Procedure) : Prop where
  size_le : p.exprs.size ≤ q.exprs.size
  live : ∀ y, y.index < p.exprs.size → q.isLive y = p.isLive y
  kind : ∀ y, y.index < p.exprs.size → (q.node y).kind = (p.node y).kind
  parent : ∀ y, y.index < p.exprs.size → y ∉ ks → (q.node y).parent = (p.node y).parent
  operands : ∀ y, y.index < p.exprs.size → (q.node y).operands = p.keptOperands ks y

namespace Plucked

theorem refl (p : Procedure) : p.Plucked [] p where
  size_le := le_rfl
  live _ _ := rfl
  kind _ _ := rfl
  parent _ _ _ := rfl
  operands _ _ := (keptOperands_eq_self fun _ _ h => absurd h List.not_mem_nil).symm

theorem old {ks : List ExprId} (h : p.Plucked ks q) {y : ExprId} (hy : y.index < p.exprs.size) :
    y.index < q.exprs.size :=
  lt_of_lt_of_le hy h.size_le

/-- Two batches of parts taken out one after the other, the later ones old and not among the
    earlier ones. -/
theorem trans {ks ks' : List ExprId} (h₁ : p.Plucked ks q) (h₂ : q.Plucked ks' r)
    (hks : ∀ k ∈ ks', k ∉ ks ∧ k.index < p.exprs.size) : p.Plucked (ks ++ ks') r where
  size_le := h₁.size_le.trans h₂.size_le
  live y hy := (h₂.live y (h₁.old hy)).trans (h₁.live y hy)
  kind y hy := (h₂.kind y (h₁.old hy)).trans (h₁.kind y hy)
  parent y hy hk := by
    rw [List.mem_append, not_or] at hk
    exact (h₂.parent y (h₁.old hy) hk.2).trans (h₁.parent y hy hk.1)
  operands y hy := by
    rw [h₂.operands y (h₁.old hy), keptOperands, h₁.operands y hy, keptOperands, keptOperands,
      List.filter_filter]
    refine List.filter_congr fun o _ => ?_
    -- a later part is old and no earlier part, so its parent was its parent in `p`
    by_cases ho : o ∈ ks'
    · obtain ⟨hk, hi⟩ := hks o ho
      simp [ho, hk, h₁.parent o hi hk]
    · simp [ho]

end Plucked

/-- `q'` is `q` with the node `n` added as `m`, whose operands record it as their parent. -/
structure Grown (q : Procedure) (n : ExprNode) (m : ExprId) (q' : Procedure) : Prop where
  index : m.index = q.exprs.size
  size : q'.exprs.size = q.exprs.size + 1
  expr?_eq : ∀ y, q'.expr? y = if y = m then some n else
    if y ∈ n.operands then (q.expr? y).map fun x => { x with parent := some (.expr m) }
    else q.expr? y

theorem allocExpr_grown (n : ExprNode) : Runs (allocExpr n) q (fun m q' => q.Grown n m q') E :=
  runs_mono (runs_and (allocExpr_spec (E := E) n) (allocExpr_size (E := E) n))
    (fun _ _ h => ⟨h.1.1, h.2, h.1.2.2⟩) fun _ h => h.1

namespace Grown

variable {n : ExprNode} {m : ExprId}

theorem ne_of_lt (h : q.Grown n m q') {y : ExprId} (hy : y.index < q.exprs.size) : y ≠ m :=
  fun hym => by rw [hym, h.index] at hy; exact Nat.lt_irrefl _ hy

theorem node_self (h : q.Grown n m q') : q'.node m = n := by
  simp [node, h.expr?_eq]

theorem isLive_self (h : q.Grown n m q') : q'.isLive m := by
  simp [isLive, h.expr?_eq]

/-- An old node keeps whether it is live, its kind and its operands. -/
theorem isLive_eq (h : q.Grown n m q') {y : ExprId} (hy : y ≠ m) : q'.isLive y = q.isLive y := by
  simp only [isLive, h.expr?_eq, if_neg hy]
  split <;> simp

theorem kind_eq (h : q.Grown n m q') {y : ExprId} (hy : y ≠ m) :
    (q'.node y).kind = (q.node y).kind := by
  simp only [node, h.expr?_eq, if_neg hy]
  split <;> cases q.expr? y <;> rfl

theorem operands_eq (h : q.Grown n m q') {y : ExprId} (hy : y ≠ m) :
    (q'.node y).operands = (q.node y).operands := by
  simp only [node, h.expr?_eq, if_neg hy]
  split <;> cases q.expr? y <;> rfl

/-- A node that is no operand of the new one keeps its parent. -/
theorem parent_eq (h : q.Grown n m q') {y : ExprId} (hy : y ≠ m) (hn : y ∉ n.operands) :
    (q'.node y).parent = (q.node y).parent := by
  simp [node, h.expr?_eq, hy, hn]

/-- A live operand of the new node records it as its parent. -/
theorem parent_of_mem (h : q.Grown n m q') {y : ExprId} (hy : y ≠ m) (hn : y ∈ n.operands)
    (hl : q.isLive y) : (q'.node y).parent = some (.expr m) := by
  obtain ⟨x, hx⟩ := Option.isSome_iff_exists.1 hl
  simp [node, h.expr?_eq, hy, hn, hx]

/-- A node over parts and new nodes keeps the frame. -/
theorem plucked {ks : List ExprId} (h : q.Grown n m q') (hq : p.Plucked ks q)
    (hn : ∀ o ∈ n.operands, o ∈ ks ∨ p.exprs.size ≤ o.index) : p.Plucked ks q' where
  size_le := hq.size_le.trans (by rw [h.size]; omega)
  live y hy := (h.isLive_eq (h.ne_of_lt (hq.old hy))).trans (hq.live y hy)
  kind y hy := (h.kind_eq (h.ne_of_lt (hq.old hy))).trans (hq.kind y hy)
  parent y hy hk := by
    have hyn : y ∉ n.operands := fun hyn => (hn y hyn).elim hk (by omega)
    exact (h.parent_eq (h.ne_of_lt (hq.old hy)) hyn).trans (hq.parent y hy hk)
  operands y hy := (h.operands_eq (h.ne_of_lt (hq.old hy))).trans (hq.operands y hy)

end Grown

/-! ### Reading a node after a change -/

/-- A change that keeps a field of the nodes keeps it for every number. -/
theorem node_modifyExpr_view {β : Type} (view : ExprNode → β) {f : ExprNode → ExprNode}
    (hf : ∀ x, view (f x) = view x) (e d : ExprId) :
    view ((p.modifyExpr e f).node d) = view (p.node d) := by
  simp only [node, expr?_modifyExpr]
  split <;> cases p.expr? d <;> simp [hf]

theorem node_modifyExpr_of_ne (f : ExprNode → ExprNode) {e d : ExprId} (h : d ≠ e) :
    (p.modifyExpr e f).node d = p.node d := by
  simp [node, h]

theorem node_modifyExpr_self (f : ExprNode → ExprNode) {e : ExprId} (h : p.isLive e) :
    (p.modifyExpr e f).node e = f (p.node e) := by
  obtain ⟨x, hx⟩ := Option.isSome_iff_exists.1 h
  simp [node, hx]

@[simp]
theorem isLive_modifyExpr (f : ExprNode → ExprNode) (e d : ExprId) :
    (p.modifyExpr e f).isLive d = p.isLive d := by
  simp only [isLive, expr?_modifyExpr]
  split <;> simp

@[simp]
theorem size_modifyExpr (f : ExprNode → ExprNode) (e : ExprId) :
    (p.modifyExpr e f).exprs.size = p.exprs.size := by
  simp [modifyExpr]

/-- A node that lists an operand is live. -/
theorem isLive_of_mem_operands {y o : ExprId} (h : o ∈ (p.node y).operands) : p.isLive y := by
  cases hy : p.expr? y with
  | none => simp [node_of_expr?_eq_none p hy] at h
  | some _ => simp [isLive, hy]

/-- A node that records a parent is live. -/
theorem isLive_of_parent {k : ExprId} {par : ExprParent} (h : (p.node k).parent = some par) :
    p.isLive k := by
  cases hk : p.expr? k with
  | none => simp [node_of_expr?_eq_none p hk] at h
  | some _ => simp [isLive, hk]

/-- Plucking a part listed once by the parent it records: the part leaves that list and no
    other, and is detached. -/
theorem pluckExpr_plucked {k y : ExprId} (hpar : (q.node k).parent = some (.expr y))
    (hk : k ∈ (q.node y).operands) (hnd : (q.node y).operands.Nodup) :
    Runs (pluckExpr k) q (fun _ q' => q.Plucked [k] q' ∧ (q'.node k).parent = none) E := by
  have hslot : q.slotOf k = some ((q.node y).operands.idxOf k) := by
    rw [slotOf, hpar]
    exact List.idxOf?_eq_some_idxOf hk
  unfold pluckExpr
  refine runs_get_bind ?_
  simp only [hpar, hslot]
  refine runs_set_bind (runs_pure _ ⟨⟨?_, fun z _ => ?_, fun z _ => ?_, fun z _ hz => ?_,
    fun z _ => ?_⟩, ?_⟩)
  · simp
  · simp
  · rw [node_modifyExpr_view ExprNode.kind, node_modifyExpr_view ExprNode.kind] <;>
      exact fun _ => rfl
  · rw [node_modifyExpr_of_ne _ (List.ne_of_not_mem_cons hz),
      node_modifyExpr_view ExprNode.parent]
    exact fun _ => rfl
  · rw [node_modifyExpr_view ExprNode.operands (e := k)]
    swap
    · exact fun _ => rfl
    by_cases hzy : z = y
    · -- the list that held the part loses it, and only it
      subst hzy
      rw [node_modifyExpr_self _ (isLive_of_mem_operands hk)]
      simp only [List.eraseIdx_idxOf_eq_erase, hnd.erase_eq_filter, keptOperands]
      refine List.filter_congr fun o _ => ?_
      by_cases hok : o = k <;> simp [hok, hpar]
    · rw [node_modifyExpr_of_ne _ hzy, keptOperands_eq_self]
      intro o _ hok
      rw [List.mem_singleton.1 hok, hpar]
      simpa using Ne.symm hzy
  · rw [node_modifyExpr_self _ (by simpa using isLive_of_parent hpar)]

/-- A live node has a slot. -/
theorem index_lt_of_isLive {y : ExprId} (h : p.isLive y) : y.index < p.exprs.size := by
  obtain ⟨x, hx⟩ := Option.isSome_iff_exists.1 h
  exact index_lt_of_expr? p hx

end Procedure

namespace ExprShape

variable {p p' : Procedure} {t : ExprShape}

theorem Spans.index_lt (h : t.Spans p) {x : ExprId} (hx : x ∈ t.ids) : x.index < p.exprs.size :=
  Procedure.index_lt_of_isLive (h.live hx)

/-- In a held tree, an operand of a node records that node as its parent. -/
theorem Spans.parent_of_operand (h : t.Spans p) {x o : ExprId} (hx : x ∈ t.ids)
    (ho : o ∈ (p.node x).operands) : (p.node o).parent = some (.expr x) := by
  obtain ⟨⟨x, us⟩, hu, rfl⟩ := List.mem_map.1 hx
  obtain ⟨-, hops, hpar, -⟩ := spans_node_iff.1 (h.sub hu)
  rw [root_node, hops] at ho
  obtain ⟨v, hv, rfl⟩ := List.mem_map.1 ho
  exact hpar v hv

/-- Trees of a list whose trees share no node, holding a common node, are one. -/
theorem eq_of_pairwise_disjoint {ts : List ExprShape}
    (h : ts.Pairwise (fun a b => List.Disjoint a.ids b.ids)) {t u : ExprShape} (ht : t ∈ ts)
    (hu : u ∈ ts) {x : ExprId} (hxt : x ∈ t.ids) (hxu : x ∈ u.ids) : t = u := by
  by_contra hne
  have : Std.Symm fun a b : ExprShape => List.Disjoint a.ids b.ids := ⟨fun _ _ h => h.symm⟩
  exact h.forall ht hu hne hxt hxu

/-- The root of a tree with distinct nodes lies in none of its proper subtrees. -/
theorem root_not_mem_of_mem_subs (hnd : t.ids.Nodup) {u : ExprShape} (hu : u ∈ t.subs)
    (hne : u ≠ t) : t.root ∉ u.ids := by
  obtain ⟨e, ts⟩ := t
  rcases mem_subs_node.1 hu with rfl | ⟨t', ht', hut'⟩
  · exact absurd rfl hne
  · exact fun he => (nodup_ids_node.1 hnd).2.2 t' ht' (ids_subset_of_mem_subs hut' he)

/-- The layout reads only the kinds and the operands of the tree's nodes. -/
theorem Laid.frame (h : t.Laid p) (hk : ∀ x ∈ t.ids, (p'.node x).kind = (p.node x).kind)
    (ho : ∀ x ∈ t.ids, (p'.node x).operands = (p.node x).operands) : t.Laid p' :=
    fun x hx n hn => by
  rw [ho x hx]
  exact h x hx n (by rw [← hk x hx]; exact hn)

end ExprShape

namespace Procedure

open ExprShape

variable {p q q' r : Procedure} {E : Procedure → Prop} {t : ExprShape}

/-- No node of a held tree with distinct nodes lists its root. -/
theorem Holds.root_not_mem_operands (h : p.Holds t) {x : ExprId} (hx : x ∈ t.ids) :
    t.root ∉ (p.node x).operands := by
  obtain ⟨e, ts⟩ := t
  obtain ⟨-, hops, -, hbelow⟩ := spans_node_iff.1 h.spans
  obtain ⟨-, -, hnot⟩ := nodup_ids_node.1 h.nodup
  intro he
  rw [ids_node, List.mem_append, List.mem_flatMap, List.mem_singleton] at hx
  rcases hx with ⟨t, ht, hxt⟩ | rfl
  · exact hnot t ht ((hbelow t ht).operand_mem hxt he)
  · rw [hops] at he
    obtain ⟨t, ht, hte⟩ := List.mem_map.1 he
    have hte : t.root = x := hte
    exact hnot t ht (hte ▸ t.root_mem_ids)

namespace Plucked

variable {ks : List ExprId}

/-- The nodes of a held tree, none of them a part but maybe its root, keep their operands. -/
theorem operands_of_mem (hq : q.Plucked ks q') (ht : q.Holds t)
    (hks : ∀ k ∈ ks, k ∈ t.ids → k = t.root) {x : ExprId} (hx : x ∈ t.ids) :
    (q'.node x).operands = (q.node x).operands := by
  rw [hq.operands x (ht.spans.index_lt hx), keptOperands_eq_self]
  intro o ho hok
  rw [hks o hok (ht.spans.operand_mem hx ho)] at ho
  exact absurd ho (ht.root_not_mem_operands hx)

theorem holds (hq : q.Plucked ks q') (ht : q.Holds t) (hks : ∀ k ∈ ks, k ∈ t.ids → k = t.root) :
    q'.Holds t := by
  refine ⟨ht.spans.frame ht.nodup (fun x hx _ => ?_) (fun x hx => hq.operands_of_mem ht hks hx)
    (fun x hx hxr => hq.parent x (ht.spans.index_lt hx) fun hk => hxr (hks x hk hx)), ht.nodup⟩
  rw [hq.live x (ht.spans.index_lt hx)]
  exact ht.spans.live hx

theorem laid (hq : q.Plucked ks q') (ht : q.Holds t) (hks : ∀ k ∈ ks, k ∈ t.ids → k = t.root)
    (hl : t.Laid q) : t.Laid q' :=
  hl.frame (fun x hx => hq.kind x (ht.spans.index_lt hx)) fun _ hx => hq.operands_of_mem ht hks hx

theorem exposed (hq : q.Plucked ks q') (ht : q.Holds t) {x : ExprId} (hx : t.Exposed q x) :
    t.Exposed q' x :=
  hx.frame fun y hy => hq.kind y (ht.spans.index_lt hy)

end Plucked

namespace Grown

variable {n : ExprNode} {m : ExprId}

/-- A held tree whose nodes but its root are no operands of the new node stays held. -/
theorem holds (h : q.Grown n m q') (ht : q.Holds t)
    (hn : ∀ x ∈ t.ids, x ≠ t.root → x ∉ n.operands) : q'.Holds t := by
  have hne : ∀ x ∈ t.ids, x ≠ m := fun x hx => h.ne_of_lt (ht.spans.index_lt hx)
  refine ⟨ht.spans.frame ht.nodup (fun x hx hl => ?_) (fun x hx => h.operands_eq (hne x hx))
    (fun x hx hxr => h.parent_eq (hne x hx) (hn x hx hxr)), ht.nodup⟩
  rw [h.isLive_eq (hne x hx)]
  exact hl

theorem laid (h : q.Grown n m q') (ht : q.Holds t) (hl : t.Laid q) : t.Laid q' :=
  hl.frame (fun _ hx => h.kind_eq (h.ne_of_lt (ht.spans.index_lt hx)))
    fun _ hx => h.operands_eq (h.ne_of_lt (ht.spans.index_lt hx))

theorem exposed (h : q.Grown n m q') (ht : q.Holds t) {x : ExprId} (hx : t.Exposed q x) :
    t.Exposed q' x :=
  hx.frame fun _ hy => h.kind_eq (h.ne_of_lt (ht.spans.index_lt hy))

/-- The new node over held trees that share no node holds the tree they make under it. -/
theorem holds_node (h : q.Grown n m q') {ts : List ExprShape}
    (hops : n.operands = ts.map ExprShape.root) (hts : ∀ t ∈ ts, q.Holds t)
    (hdis : ts.Pairwise (fun a b => List.Disjoint a.ids b.ids)) : q'.Holds (.node m ts) := by
  have hne : ∀ t ∈ ts, ∀ x ∈ t.ids, x ≠ m := fun t ht x hx =>
    h.ne_of_lt ((hts t ht).spans.index_lt hx)
  -- a node of one of the trees is an operand of the new node only as the root of its tree
  have hn : ∀ t ∈ ts, ∀ x ∈ t.ids, x ≠ t.root → x ∉ n.operands := fun t ht x hx hxr hxn => by
    rw [hops] at hxn
    obtain ⟨u, hu, rfl⟩ := List.mem_map.1 hxn
    exact hxr (by rw [eq_of_pairwise_disjoint hdis ht hu hx u.root_mem_ids])
  refine ⟨spans_node_iff.2 ⟨h.isLive_self, by rw [h.node_self, hops], fun t ht => ?_,
    fun t ht => (h.holds (hts t ht) (hn t ht)).spans⟩,
    nodup_ids_node.2 ⟨fun t ht => (hts t ht).nodup, hdis, fun t ht hm => hne t ht m hm rfl⟩⟩
  exact h.parent_of_mem (hne t ht _ t.root_mem_ids) (by rw [hops]; exact List.mem_map_of_mem ht)
    ((hts t ht).spans.live t.root_mem_ids)

/-- The new node over laid trees, listing as many operands as its kind fixes, lays out the tree
    they make under it. -/
theorem laid_node (h : q.Grown n m q') {ts : List ExprShape} (hts : ∀ t ∈ ts, q.Holds t ∧ t.Laid q)
    (hn : ∀ k, n.kind.arity? = some k → n.operands.length = k) : (ExprShape.node m ts).Laid q' := by
  intro x hx k hk
  rw [ids_node, List.mem_append, List.mem_flatMap, List.mem_singleton] at hx
  rcases hx with ⟨t, ht, hxt⟩ | rfl
  · exact h.laid (hts t ht).1 (hts t ht).2 x hxt k hk
  · rw [h.node_self] at hk ⊢
    exact hn k hk

end Grown

/-- The part `k` ready to be moved: `t` is its tree, held in `q` and laid out, and `k` is listed
    once by the parent it records, which lies outside `t`. -/
structure Ready (q : Procedure) (t : ExprShape) (k : ExprId) : Prop where
  holds : q.Holds t
  root : t.root = k
  laid : t.Laid q
  parent : ∃ y, (q.node k).parent = some (.expr y) ∧ k ∈ (q.node y).operands ∧
    (q.node y).operands.Nodup ∧ y ∉ t.ids

theorem Ready.mem {k : ExprId} (h : q.Ready t k) : k ∈ t.ids :=
  h.root ▸ t.root_mem_ids

/-- A part stays ready while other parts, none in its tree, are taken out. -/
theorem Ready.plucked {k : ExprId} {ks : List ExprId} (h : q.Ready t k) (hq : q.Plucked ks q')
    (hk : k ∉ ks) (hks : ∀ k' ∈ ks, k' ∉ t.ids) : q'.Ready t k := by
  obtain ⟨y, hpar, hky, hnd, hyt⟩ := h.parent
  have hy : y.index < q.exprs.size := index_lt_of_isLive (isLive_of_mem_operands hky)
  refine ⟨hq.holds h.holds fun k' hk' hkt => absurd hkt (hks k' hk'),
    h.root, hq.laid h.holds (fun k' hk' hkt => absurd hkt (hks k' hk')) h.laid,
    y, ?_, ?_, ?_, hyt⟩
  · rw [hq.parent k (h.holds.spans.index_lt h.mem) hk, hpar]
  · rw [hq.operands y hy, mem_keptOperands]
    exact ⟨hky, fun hk' => absurd hk' hk⟩
  · rw [hq.operands y hy]
    exact (keptOperands_sublist ks y).nodup hnd

/-- What building a replacement over the trees `sub` of its parts `ks` leaves in `q'`: a tree
    `W`, held, laid out and detached, whose root is a part or new and whose nodes are new or
    nodes of the parts' trees, exposing what those trees exposed, which stand whole in it; the
    new nodes are no conditionals; and the parts left their lists. -/
structure Built (q : Procedure) (sub : ExprId → ExprShape) (ks : List ExprId) (W : ExprShape)
    (q' : Procedure) : Prop where
  holds : q'.Holds W
  laid : W.Laid q'
  detached : (q'.node W.root).parent = none
  root : W.root ∈ ks ∨ q.exprs.size ≤ W.root.index
  ids : ∀ y ∈ W.ids, q.exprs.size ≤ y.index ∨ ∃ k ∈ ks, y ∈ (sub k).ids
  exposes : ∀ k ∈ ks, ∀ x, (sub k).Exposed q x → W.Exposed q' x
  plucked : q.Plucked ks q'
  subs : ∀ k ∈ ks, sub k ∈ W.subs
  fresh : ∀ y ∈ W.ids, q.exprs.size ≤ y.index → ∀ i, (q'.node y).kind.arm i = false

namespace Built

variable {sub : ExprId → ExprShape} {ks : List ExprId} {W : ExprShape}

/-- A node of the built tree that was there before lies in the tree of a part. -/
theorem mem_of_old (h : q.Built sub ks W q') {y : ExprId} (hy : y ∈ W.ids)
    (hold : y.index < q.exprs.size) : ∃ k ∈ ks, y ∈ (sub k).ids :=
  (h.ids y hy).resolve_left (by omega)

/-- A part of a later build, whose tree shares no node with the parts' trees of this one, is
    no node of this one's tree. -/
theorem not_mem (h : q.Built sub ks W q') {k : ExprId} (hk : q.Ready (sub k) k)
    (hdis : ∀ k' ∈ ks, List.Disjoint (sub k').ids (sub k).ids) : k ∉ W.ids := fun hkW => by
  obtain ⟨k', hk', hkk'⟩ := h.mem_of_old hkW (hk.holds.spans.index_lt hk.mem)
  exact hdis k' hk' hkk' hk.mem

/-- Two builds in a row over parts whose trees share no node: the first tree stays held through
    the second build, and the two trees share no node. -/
theorem pair {ksl ksr : List ExprId} {A B : ExprShape} {q₁ q₂ : Procedure}
    (ha : q.Built sub ksl A q₁) (hb : q₁.Built sub ksr B q₂) (hrr : ∀ k ∈ ksr, q.Ready (sub k) k)
    (hlr : ∀ a ∈ ksl, ∀ b ∈ ksr, List.Disjoint (sub a).ids (sub b).ids) :
    q₂.Holds A ∧ List.Disjoint A.ids B.ids := by
  refine ⟨hb.plucked.holds ha.holds fun k hk hkA =>
    absurd hkA (ha.not_mem (hrr k hk) fun k' hk' => hlr k' hk' k hk), fun y hyA hyB => ?_⟩
  have hy₁ : y.index < q₁.exprs.size := ha.holds.spans.index_lt hyA
  rcases hb.ids y hyB with hnew | ⟨k, hk, hyk⟩
  · omega
  · have hy : y.index < q.exprs.size := (hrr k hk).holds.spans.index_lt hyk
    obtain ⟨k', hk', hyk'⟩ := ha.mem_of_old hyA hy
    exact hlr k' hk' k hk hyk' hyk

end Built

end Procedure

open Procedure ExprShape

/-- Building a replacement that copies nothing, over parts ready to be moved whose trees share
    no node, succeeds: it gives a detached tree, held and laid out over the parts' trees, that
    exposes what they exposed. -/
theorem Replacement.build_built : ∀ (w : Replacement) {q : Procedure} {sub : ExprId → ExprShape},
    w.copies = false → (∀ k ∈ w.parts, q.Ready (sub k) k) →
    w.parts.Pairwise (fun a b => List.Disjoint (sub a).ids (sub b).ids) →
    Runs w.build q (fun r q' => ∃ W, W.root = r ∧ q.Built sub w.parts W q') (fun _ => False)
  | .keep k, q, sub, _, hr, _ => by
    have hk := hr k (by simp [Replacement.parts])
    obtain ⟨y, hpar, hky, hnd, -⟩ := hk.parent
    rw [Replacement.build]
    refine runs_get_bind ?_
    split
    · refine runs_bind (pluckExpr_plucked hpar hky hnd) fun _ q' hpl =>
        runs_pure _ ⟨sub k, hk.root, ?_⟩
      obtain ⟨hq, hdet⟩ := hpl
      -- the part's tree stays as it was, its root now detached
      have hks : ∀ k' ∈ [k], k' ∈ (sub k).ids → k' = (sub k).root := fun k' hk' _ => by
        rw [List.mem_singleton.1 hk', hk.root]
      refine ⟨hq.holds hk.holds hks, hq.laid hk.holds hks hk.laid, by rw [hk.root]; exact hdet,
        .inl (by simp [Replacement.parts, hk.root]),
        fun y hy => .inr ⟨k, by simp [Replacement.parts], hy⟩,
        fun k' hk' x hx => ?_, hq, fun k' hk' => ?_,
        fun y hy hnew => absurd (hk.holds.spans.index_lt hy) (by omega)⟩
      · obtain rfl : k' = k := by simpa [Replacement.parts] using hk'
        exact hq.exposed hk.holds hx
      · obtain rfl : k' = k := by simpa [Replacement.parts] using hk'
        exact self_mem_subs _
    · next hnone => simp [hpar] at hnone
  | .copy _, _, _, hc, _, _ => by simp [Replacement.copies] at hc
  | .val v s, q, sub, _, _, _ => by
    refine runs_mono (allocExpr_grown _) (fun m q' hg => ⟨.node m [], rfl, ?_⟩) fun _ h => h
    refine ⟨hg.holds_node rfl (by simp) List.Pairwise.nil, hg.laid_node (by simp) fun k hk => ?_,
      by rw [root_node, hg.node_self], .inr (by rw [root_node, hg.index]), fun y hy => .inl ?_,
      fun k hk => by simp [Replacement.parts] at hk, hg.plucked (.refl q) (by simp),
      fun k hk => by simp [Replacement.parts] at hk, fun y hy _ i => ?_⟩
    · simp only [ExprKind.arity?, Option.some.injEq] at hk
      simp [← hk]
    · simp only [ids_node, List.flatMap_nil, List.nil_append, List.mem_singleton] at hy
      rw [hy, hg.index]
    · simp only [ids_node, List.flatMap_nil, List.nil_append, List.mem_singleton] at hy
      simp [hy, hg.node_self, ExprKind.arm]
  | .unary op a, q, sub, hc, hr, hpw => by
    rw [Replacement.build]
    refine runs_bind (Replacement.build_built a hc hr hpw) fun _ q₁ hbuilt => ?_
    obtain ⟨A, rfl, hb⟩ := hbuilt
    refine runs_mono (allocExpr_grown _) (fun m q₂ hg => ⟨.node m [A], rfl, ?_⟩) fun _ h => h
    refine ⟨hg.holds_node rfl (by simpa using hb.holds) (List.pairwise_singleton _ _),
      hg.laid_node (by simpa using ⟨hb.holds, hb.laid⟩) fun k hk => ?_,
      by rw [root_node, hg.node_self], .inr ?_, fun y hy => ?_, fun k hk x hx => ?_,
      hg.plucked hb.plucked ?_,
      fun k hk => mem_subs_of_child (List.mem_singleton_self A) (hb.subs k hk),
      fun y hy hnew i => ?_⟩
    · simp only [ExprKind.arity?, Option.some.injEq] at hk
      simp [← hk]
    · rw [root_node, hg.index]
      exact hb.plucked.size_le
    · simp only [ids_node, List.flatMap_cons, List.flatMap_nil, List.append_nil, List.mem_append,
        List.mem_singleton] at hy
      rcases hy with hy | rfl
      · exact hb.ids y hy
      · exact .inl (by rw [hg.index]; exact hb.plucked.size_le)
    · -- the only operand of the new node is not an arm
      exact .operand (i := 0) rfl (by simp [hg.node_self, ExprKind.arm])
        (hg.exposed hb.holds (hb.exposes k hk x hx))
    · intro o ho
      rw [List.mem_singleton.1 ho]
      exact hb.root
    · -- the new nodes are the unary operation and the new nodes of its operand
      simp only [ids_node, List.flatMap_cons, List.flatMap_nil, List.append_nil, List.mem_append,
        List.mem_singleton] at hy
      rcases hy with hy | rfl
      · rw [hg.kind_eq (hg.ne_of_lt (hb.holds.spans.index_lt hy))]
        exact hb.fresh y hy hnew i
      · simp [hg.node_self, ExprKind.arm]
  | .binary op l r, q, sub, hc, hr, hpw => by
    simp only [Replacement.copies, Bool.or_eq_false_iff] at hc
    simp only [Replacement.parts] at hr hpw ⊢
    obtain ⟨hpwl, hpwr, hlr⟩ := List.pairwise_append.1 hpw
    have hrl : ∀ k ∈ l.parts, q.Ready (sub k) k := fun k hk => hr k (List.mem_append_left _ hk)
    have hrr : ∀ k ∈ r.parts, q.Ready (sub k) k := fun k hk => hr k (List.mem_append_right _ hk)
    rw [Replacement.build]
    refine runs_bind (Replacement.build_built l hc.1 hrl hpwl) fun _ q₁ hleft => ?_
    obtain ⟨A, rfl, ha⟩ := hleft
    -- the right side's parts are still ready: the left side took out only its own parts
    have hnot : ∀ k ∈ r.parts, k ∉ l.parts := fun k hk hkl => hlr k hkl k hk (hrr k hk).mem
      (hrr k hk).mem
    have hrr₁ : ∀ k ∈ r.parts, q₁.Ready (sub k) k := fun k hk =>
      (hrr k hk).plucked ha.plucked (hnot k hk) fun k' hk' hkt =>
        hlr k' hk' k hk (hrl k' hk').mem hkt
    refine runs_bind (Replacement.build_built r hc.2 hrr₁ hpwr) fun _ q₂ hright => ?_
    obtain ⟨B, rfl, hb⟩ := hright
    refine runs_mono (allocExpr_grown _) (fun m q₃ hg => ⟨.node m [A, B], rfl, ?_⟩) fun _ h => h
    -- the left tree survives the right build, and the two share no node
    obtain ⟨hA₂, hAB⟩ := ha.pair hb hrr hlr
    have hts : ∀ t ∈ [A, B], q₂.Holds t ∧ t.Laid q₂ := by
      simp only [List.mem_cons, List.not_mem_nil, or_false, forall_eq_or_imp, forall_eq]
      exact ⟨⟨hA₂, hb.plucked.laid ha.holds (fun k hk hkA =>
        absurd hkA (ha.not_mem (hrr k hk) fun k' hk' => hlr k' hk' k hk)) ha.laid⟩,
        hb.holds, hb.laid⟩
    refine ⟨hg.holds_node rfl (fun t ht => (hts t ht).1) (by simpa using hAB),
      hg.laid_node hts fun k hk => ?_, by rw [root_node, hg.node_self], .inr ?_, fun y hy => ?_,
      fun k hk x hx => ?_, hg.plucked (ha.plucked.trans hb.plucked fun k hk => ⟨hnot k hk,
        (hrr k hk).holds.spans.index_lt (hrr k hk).mem⟩) ?_, fun k hk => ?_, fun y hy hnew i => ?_⟩
    · simp only [ExprKind.arity?, Option.some.injEq] at hk
      simp [← hk]
    · rw [root_node, hg.index]
      exact ha.plucked.size_le.trans hb.plucked.size_le
    · simp only [ids_node, List.flatMap_cons, List.flatMap_nil, List.append_nil, List.mem_append,
        List.mem_singleton] at hy
      rcases hy with (hy | hy) | rfl
      · obtain hnew | ⟨k, hk, hyk⟩ := ha.ids y hy
        · exact .inl hnew
        · exact .inr ⟨k, List.mem_append_left _ hk, hyk⟩
      · obtain hnew | ⟨k, hk, hyk⟩ := hb.ids y hy
        · exact .inl (ha.plucked.size_le.trans hnew)
        · exact .inr ⟨k, List.mem_append_right _ hk, hyk⟩
      · exact .inl (by rw [hg.index]; exact ha.plucked.size_le.trans hb.plucked.size_le)
    · -- neither operand of a binary operation is an arm
      rcases List.mem_append.1 hk with hk | hk
      · exact .operand (i := 0) rfl (by simp [hg.node_self, ExprKind.arm])
          (hg.exposed hA₂ (hb.plucked.exposed ha.holds (ha.exposes k hk x hx)))
      · exact .operand (i := 1) rfl (by simp [hg.node_self, ExprKind.arm])
          (hg.exposed hb.holds (hb.exposes k hk x (ha.plucked.exposed (hrr k hk).holds hx)))
    · intro o ho
      simp only [List.mem_cons, List.not_mem_nil, or_false] at ho
      rcases ho with rfl | rfl
      · exact ha.root.imp (List.mem_append_left _) id
      · exact hb.root.imp (List.mem_append_right _) (ha.plucked.size_le.trans ·)
    · rcases List.mem_append.1 hk with hk | hk
      · exact mem_subs_of_child (by simp) (ha.subs k hk)
      · exact mem_subs_of_child (by simp) (hb.subs k hk)
    · -- a new node on the right is new to the right build too: the parts there are old
      simp only [ids_node, List.flatMap_cons, List.flatMap_nil, List.append_nil, List.mem_append,
        List.mem_singleton] at hy
      rcases hy with (hy | hy) | rfl
      · rw [hg.kind_eq (hg.ne_of_lt (hA₂.spans.index_lt hy)),
          hb.plucked.kind y (ha.holds.spans.index_lt hy)]
        exact ha.fresh y hy hnew i
      · rw [hg.kind_eq (hg.ne_of_lt (hb.holds.spans.index_lt hy))]
        rcases hb.ids y hy with hnew' | ⟨k, hk, hyk⟩
        · exact hb.fresh y hy hnew' i
        · exact absurd ((hrr k hk).holds.spans.index_lt hyk) (by omega)
      · simp [hg.node_self, ExprKind.arm]

end Decompilation
