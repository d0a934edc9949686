import Decompilation.Proofs.Simplify.Shape
import Decompilation.Proofs.DefUse.Linking

/-!
# Copies of expression trees

`Procedure.cloneExpr` copies the tree below a node, operands first, each copy a new node at the
end of the slots. For a tree the procedure holds (`Procedure.Holds`), the copy is a tree of its
own, held and detached, made of nodes that were not there before and of the form of the tree
(`ExprShape.Along`). Each node of the copy has the kind of the node at its place, is no
definition position, and keeps the subscript, the no-alias mark, the implicit-definition mark
and the link of that node only where the tags ask for them (`Procedure.CopiedNode`). A copied
link makes the copy one more reader of the definition, appended once to its readers; the nodes
that were there before change in nothing else (`Procedure.AppendsReaders`).

* `Procedure.compare_go_along`: trees of one form and of the same kinds compare alike, and
  equal exactly when they agree on the subscripts;
* `Procedure.ClonedAll.append`: copies made one after another copy the trees together;
* `Procedure.cloneExpr_go_copies`: a node copied over the copies of its operands, and so the
  whole tree;
* `Procedure.cloneExpr_faithful`: the copy, what it keeps, and what it leaves as it was.
-/

namespace Decompilation

namespace ExprShape

/-- `t'` has the form of `t`, and `R` relates each node of `t` to the node at its place in
    `t'`. -/
inductive Along (R : ExprId → ExprId → Prop) : ExprShape → ExprShape → Prop
  | node {e e' : ExprId} {ts ts' : List ExprShape} (root : R e e')
      (length : ts'.length = ts.length) (below : ∀ u ∈ ts.zip ts', Along R u.1 u.2) :
      Along R (.node e ts) (.node e' ts')

variable {R S : ExprId → ExprId → Prop}

theorem along_node_iff {e e' : ExprId} {ts ts' : List ExprShape} :
    Along R (.node e ts) (.node e' ts') ↔
      R e e' ∧ ts'.length = ts.length ∧ ∀ u ∈ ts.zip ts', Along R u.1 u.2 := by
  constructor
  · rintro ⟨root, length, below⟩
    exact ⟨root, length, below⟩
  · rintro ⟨root, length, below⟩
    exact .node root length below

/-- The roots of trees of one form are related. -/
theorem Along.root {t t' : ExprShape} (h : Along R t t') : R t.root t'.root := by
  cases h with
  | node root => exact root

/-- A relation implied by the first on the nodes of the two trees holds along them too. -/
theorem Along.mono {t t' : ExprShape} (h : Along R t t') :
    (∀ x x', x ∈ t.ids → x' ∈ t'.ids → R x x' → S x x') → Along S t t' := by
  induction h with
  | node root length below ih =>
    intro hRS
    refine .node (hRS _ _ (by simp) (by simp) root) length fun u hu =>
      ih u hu fun x x' hx hx' => hRS x x' ?_ ?_
    · exact mem_ids_node_of_mem (List.of_mem_zip hu).1 hx
    · exact mem_ids_node_of_mem (List.of_mem_zip hu).2 hx'

/-- Over a list and one of its length, a property of every first component is one of every
    member of the list. -/
theorem forall_mem_zip_fst {ts ts' : List ExprShape} (hlen : ts'.length = ts.length)
    (P : ExprShape → Prop) : (∀ u ∈ ts.zip ts', P u.1) ↔ ∀ t ∈ ts, P t := by
  have hmap := List.map_fst_zip (Nat.le_of_eq hlen.symm)
  calc (∀ u ∈ ts.zip ts', P u.1) ↔ ∀ t ∈ (ts.zip ts').map Prod.fst, P t := List.forall_mem_map.symm
    _ ↔ ∀ t ∈ ts, P t := by rw [hmap]

/-- Along trees of one form, a relation that only reads a property of the node of the first
    tree holds exactly when every node of the first tree has the property. -/
theorem Along.iff_forall {t t' : ExprShape} {P : ExprId → Prop} (h : Along R t t')
    (hS : ∀ x x', R x x' → (S x x' ↔ P x)) : Along S t t' ↔ ∀ x ∈ t.ids, P x := by
  induction h with
  | @node e e' ts ts' root length below ih =>
    have hsub : (∀ u ∈ ts.zip ts', Along S u.1 u.2) ↔ ∀ t ∈ ts, ∀ x ∈ t.ids, P x :=
      (forall₂_congr fun u hu => ih u hu).trans
        (forall_mem_zip_fst length fun t => ∀ x ∈ t.ids, P x)
    rw [along_node_iff, hsub, hS e e' root, ids_node]
    simp only [List.mem_append, List.mem_flatMap, List.mem_singleton]
    constructor
    · rintro ⟨he, -, hts⟩ x (⟨t, ht, hx⟩ | rfl)
      · exact hts t ht x hx
      · exact he
    · intro h
      exact ⟨h e (.inr rfl), length, fun t ht x hx => h x (.inl ⟨t, ht, hx⟩)⟩

/-- A subtree has fewer nodes than the tree. -/
theorem length_ids_lt_of_mem {e : ExprId} {ts : List ExprShape} {u : ExprShape} (hu : u ∈ ts) :
    u.ids.length < (node e ts).ids.length := by
  rw [ids_node, List.length_append, List.length_singleton, Nat.lt_succ_iff, List.length_flatMap]
  exact List.le_sum_of_mem (List.mem_map_of_mem hu)

end ExprShape

namespace Procedure

open ExprShape

variable {R : ExprId → ExprId → Prop} {tags : CloneTags} {p q q' : Procedure}

/-! ### Comparing trees of one form -/

/-- Two held trees of one form, with the same kinds at the same places, compare alike; they
    compare equal exactly when they also agree on the subscripts. The comparison walks both
    trees together, so its fuel need only exceed the height of the first. -/
theorem compare_go_along (hk : ∀ x x', R x x' → (q.node x').kind = (q.node x).kind)
    (wi : Bool) {t t' : ExprShape} (h : t.Along R t') (ht : t.Spans q) (ht' : t'.Spans q)
    {n : Nat} (hn : t.ids.length ≤ n) :
    compare.go q wi n t.root t'.root = true ↔
      (wi = false ∨ t.Along (fun x x' => (q.node x).idx = (q.node x').idx) t') := by
  induction h generalizing n with
  | @node e e' ts ts' root length below ih =>
    obtain ⟨-, hops, -, hbelow⟩ := spans_node_iff.1 ht
    obtain ⟨-, hops', -, hbelow'⟩ := spans_node_iff.1 ht'
    obtain ⟨m, rfl⟩ : ∃ m, n = m + 1 :=
      ⟨n - 1, by have := List.length_pos_of_mem (ExprShape.node e ts).root_mem_ids; omega⟩
    -- the operands pair off as the trees below them do
    have hsub : ∀ u ∈ ts.zip ts', compare.go q wi m u.1.root u.2.root = true ↔
        (wi = false ∨ u.1.Along (fun x x' => (q.node x).idx = (q.node x').idx) u.2) :=
      fun u hu => ih u hu (hbelow _ (List.of_mem_zip hu).1) (hbelow' _ (List.of_mem_zip hu).2)
        (by
          have : u.1.ids.length < (ExprShape.node e ts).ids.length :=
            length_ids_lt_of_mem (List.of_mem_zip hu).1
          omega)
    rw [compare.go, root_node, root_node, hops, hops', List.zip_map, List.all_map]
    simp only [Bool.and_eq_true, beq_iff_eq, hk _ _ root, List.length_map, length, List.all_eq_true,
      Function.comp_def, Prod.map]
    rw [along_node_iff]
    cases wi with
    | false => simpa using fun u hu => (hsub u hu).2 (.inl rfl)
    | true =>
      simp only [Bool.not_true, Bool.false_or, true_and, Bool.true_eq_false, false_or] at hsub ⊢
      rw [beq_iff_eq, forall₂_congr hsub]
      constructor
      · rintro ⟨hidx, hts⟩
        exact ⟨hidx, length, hts⟩
      · rintro ⟨hidx, -, hts⟩
        exact ⟨hidx, hts⟩

/-! ### What a copy leaves as it was -/

/-- `q'` keeps every node of `q` as it was, but for readers appended to its readers. -/
def ReadersAdded (q q' : Procedure) : Prop :=
  q.exprs.size ≤ q'.exprs.size ∧ ∀ x, x.index < q.exprs.size →
    ∃ l, q'.expr? x = (q.expr? x).map fun n => { n with uses := n.uses ++ l }

/-- `q'` keeps every node of `q` as it was, but for the readers among `new` appended to the
    readers of the definition each reads, once each and in the order of `new`. -/
def AppendsReaders (q q' : Procedure) (new : List ExprId) : Prop :=
  q.exprs.size ≤ q'.exprs.size ∧ ∀ x, x.index < q.exprs.size →
    q'.expr? x = (q.expr? x).map fun n =>
      { n with uses := n.uses ++ new.filter fun y => (q'.node y).defLink = some x }

theorem ReadersAdded.refl (q : Procedure) : q.ReadersAdded q :=
  ⟨Nat.le_refl _, fun x _ => ⟨[], by cases q.expr? x <;> simp⟩⟩

theorem ReadersAdded.trans {q'' : Procedure} (h₁ : q.ReadersAdded q') (h₂ : q'.ReadersAdded q'') :
    q.ReadersAdded q'' := by
  refine ⟨h₁.1.trans h₂.1, fun x hx => ?_⟩
  obtain ⟨l₁, hl₁⟩ := h₁.2 x hx
  obtain ⟨l₂, hl₂⟩ := h₂.2 x (Nat.lt_of_lt_of_le hx h₁.1)
  refine ⟨l₁ ++ l₂, ?_⟩
  rw [hl₂, hl₁]
  cases q.expr? x <;> simp

theorem AppendsReaders.readersAdded {new : List ExprId} (h : q.AppendsReaders q' new) :
    q.ReadersAdded q' :=
  ⟨h.1, fun x hx => ⟨_, h.2 x hx⟩⟩

/-- A node kept, but for its readers. -/
theorem ReadersAdded.node_eq (h : q.ReadersAdded q') {x : ExprId} (hx : x.index < q.exprs.size) :
    ∃ l, q'.node x = { q.node x with uses := (q.node x).uses ++ l } := by
  obtain ⟨l, hl⟩ := h.2 x hx
  cases hq : q.expr? x with
  | none =>
    rw [hq, Option.map_none] at hl
    exact ⟨[], by simp [node_of_expr?_eq_none q' hl, node_of_expr?_eq_none q hq]; rfl⟩
  | some n =>
    rw [hq, Option.map_some] at hl
    exact ⟨l, by rw [node_of_expr? q' hl, node_of_expr? q hq]⟩

theorem ReadersAdded.isLive (h : q.ReadersAdded q') {x : ExprId} (hx : x.index < q.exprs.size) :
    q'.isLive x = q.isLive x := by
  obtain ⟨l, hl⟩ := h.2 x hx
  rw [Procedure.isLive, Procedure.isLive, hl, Option.isSome_map]

/-- A tree held stays held when its nodes only gain readers. -/
theorem Holds.readersAdded (h : q.ReadersAdded q') {t : ExprShape} (ht : q.Holds t) :
    q'.Holds t := by
  have hlt : ∀ x ∈ t.ids, x.index < q.exprs.size := fun x hx => by
    obtain ⟨n, hn⟩ := Option.isSome_iff_exists.1 (ht.spans.live hx)
    exact index_lt_of_expr? q hn
  have hnode : ∀ x ∈ t.ids, ∃ l, q'.node x = { q.node x with uses := (q.node x).uses ++ l } :=
    fun x hx => h.node_eq (hlt x hx)
  refine ⟨ht.spans.frame ht.nodup (fun x hx hl => by rwa [h.isLive (hlt x hx)]) (fun x hx => ?_)
    (fun x hx _ => ?_), ht.nodup⟩
  · obtain ⟨l, hl⟩ := hnode x hx
    rw [hl]
  · obtain ⟨l, hl⟩ := hnode x hx
    rw [hl]

/-- Readers appended one batch after another: the first batch, made of nodes of the middle
    state, keeps its links through the second. -/
theorem AppendsReaders.trans {q₂ : Procedure} {a b : List ExprId} (h₁ : q.AppendsReaders q' a)
    (h₂ : q'.AppendsReaders q₂ b) (ha : ∀ y ∈ a, y.index < q'.exprs.size) :
    q.AppendsReaders q₂ (a ++ b) := by
  refine ⟨h₁.1.trans h₂.1, fun x hx => ?_⟩
  have hlinks : a.filter (fun y => (q'.node y).defLink = some x) =
      a.filter fun y => (q₂.node y).defLink = some x := List.filter_congr fun y hy => by
    obtain ⟨l, hl⟩ := h₂.readersAdded.node_eq (ha y hy)
    rw [hl]
  rw [h₂.2 x (Nat.lt_of_lt_of_le hx h₁.1), h₁.2 x hx, hlinks, List.filter_append]
  cases q.expr? x <;> simp

/-! ### Copies -/

/-- The node `x'` of `q` is a copy under `tags` of the node `x` of `p`: of the same kind, no
    definition position, with the subscript, the no-alias mark, the implicit-definition mark and
    the link to a live definition that the tags keep, and none of those they do not. -/
structure CopiedNode (tags : CloneTags) (p q : Procedure) (x x' : ExprId) : Prop where
  kind : (q.node x').kind = (p.node x).kind
  notDef : (q.node x').isDef = false
  idx : (q.node x').idx = if tags.index then (p.node x).idx else none
  safe : (q.node x').safe = (tags.safe && (p.node x).safe)
  weak : (q.node x').weak = (tags.weak && (p.node x).weak)
  defLink : (q.node x').defLink = if tags.defLink then (p.node x).defLink.filter p.isLive else none

/-- A copy stays a copy while its node changes only its parent and its readers. -/
theorem CopiedNode.frame {x x' : ExprId} (h : CopiedNode tags p q x x')
    (hq : ∃ par l, q'.node x' = { q.node x' with parent := par, uses := l }) :
    CopiedNode tags p q' x x' := by
  obtain ⟨par, l, hx⟩ := hq
  constructor <;> rw [hx]
  exacts [h.kind, h.notDef, h.idx, h.safe, h.weak, h.defLink]

/-- Runs from `q` to `q'` copied the trees `ts` of `p`, one after another, into the trees
    `ts'`: each is held in `q'` and detached, of the form of the tree at its place with each
    node a copy of the node at its place; their nodes are distinct and were not in `q`; and the
    nodes of `q` only gained the new readers. -/
structure ClonedAll (tags : CloneTags) (p q q' : Procedure) (ts ts' : List ExprShape) :
    Prop where
  length : ts'.length = ts.length
  holds : ∀ u ∈ ts', q'.Holds u
  detached : ∀ u ∈ ts', (q'.node u.root).parent = none
  fresh : ∀ y ∈ ts'.flatMap ids, q.exprs.size ≤ y.index ∧ y.index < q'.exprs.size
  nodup : (ts'.flatMap ids).Nodup
  along : ∀ u ∈ ts.zip ts', u.1.Along (CopiedNode tags p q') u.2
  appends : q.AppendsReaders q' (ts'.flatMap ids)

theorem ClonedAll.nil (tags : CloneTags) (p q : Procedure) : ClonedAll tags p q q [] [] :=
  ⟨rfl, by simp, by simp, by simp, List.nodup_nil, by simp,
    ⟨Nat.le_refl _, fun x _ => by cases q.expr? x <;> simp⟩⟩

/-- Copies made one after another are copies of the trees together: the later runs only add
    readers to the nodes of the earlier copies, which are below the size the later ones start
    from. -/
theorem ClonedAll.append {q₂ : Procedure} {as as' bs bs' : List ExprShape}
    (h₁ : ClonedAll tags p q q' as as') (h₂ : ClonedAll tags p q' q₂ bs bs') :
    ClonedAll tags p q q₂ (as ++ bs) (as' ++ bs') := by
  have hadd := h₂.appends.readersAdded
  have hlt : ∀ y ∈ as'.flatMap ids, y.index < q'.exprs.size := fun y hy => (h₁.fresh y hy).2
  refine ⟨by simp [h₁.length, h₂.length], ?_, ?_, ?_, ?_, ?_, ?_⟩
  · intro u hu
    rcases List.mem_append.1 hu with hu | hu
    · exact (h₁.holds u hu).readersAdded hadd
    · exact h₂.holds u hu
  · intro u hu
    rcases List.mem_append.1 hu with hu | hu
    · obtain ⟨l, hl⟩ := hadd.node_eq (hlt _ (List.mem_flatMap.2 ⟨u, hu, u.root_mem_ids⟩))
      rw [hl]
      exact h₁.detached u hu
    · exact h₂.detached u hu
  · intro y hy
    rw [List.flatMap_append, List.mem_append] at hy
    rcases hy with hy | hy
    · exact ⟨(h₁.fresh y hy).1, Nat.lt_of_lt_of_le (h₁.fresh y hy).2 h₂.appends.1⟩
    · exact ⟨Nat.le_trans h₁.appends.1 (h₂.fresh y hy).1, (h₂.fresh y hy).2⟩
  · -- the first copies are below the size of `q'`, the later ones from it on
    rw [List.flatMap_append, List.nodup_append]
    refine ⟨h₁.nodup, h₂.nodup, fun y hy z hz hyz => ?_⟩
    have hy' := (h₁.fresh y hy).2
    have hz' := (h₂.fresh z hz).1
    rw [hyz] at hy'
    omega
  · rw [List.zip_append h₁.length.symm]
    intro u hu
    rcases List.mem_append.1 hu with hu | hu
    · refine (h₁.along u hu).mono fun x x' _ hx' hc => hc.frame ?_
      obtain ⟨l, hl⟩ := hadd.node_eq (hlt x' (List.mem_flatMap.2 ⟨u.2, (List.of_mem_zip hu).2, hx'⟩))
      exact ⟨_, _, hl⟩
    · exact h₂.along u hu
  · rw [List.flatMap_append]
    exact h₁.appends.trans h₂.appends hlt

/-! ### One node copied -/

/-- Makes `u` a reader of the definition `o`, when there is one. -/
def linkTo (q : Procedure) (u : ExprId) : Option ExprId → Procedure
  | some d => q.linkUse u d
  | none => q

section LinkTo

variable {u y : ExprId} {o : Option ExprId}

theorem size_linkTo (q : Procedure) (u : ExprId) (o : Option ExprId) :
    (q.linkTo u o).exprs.size = q.exprs.size := by
  cases o <;> simp [linkTo, linkUse, modifyExpr]

theorem expr?_linkTo_of_ne (q : Procedure) (hyu : y ≠ u) (hyo : ∀ d, o = some d → y ≠ d) :
    (q.linkTo u o).expr? y = q.expr? y := by
  cases o with
  | none => rfl
  | some d => simp [linkTo, linkUse, expr?_modifyExpr, hyu, hyo d rfl]

/-- The reader gets the link, when it had none. -/
theorem expr?_linkTo_self (q : Procedure) {n : ExprNode} (hn : q.expr? u = some n)
    (hnl : n.defLink = none) (hu : ∀ d, o = some d → u ≠ d) :
    (q.linkTo u o).expr? u = some { n with defLink := o } := by
  cases o with
  | none =>
    show q.expr? u = _
    rw [hn]
    cases n
    simp_all
  | some d => simp [linkTo, linkUse, expr?_modifyExpr, hn, hu d rfl]

/-- The definition gets the reader, last. -/
theorem expr?_linkTo_target (q : Procedure) {d : ExprId} (hu : u ≠ d) :
    (q.linkTo u (some d)).expr? d = (q.expr? d).map fun x => { x with uses := x.uses ++ [u] } := by
  simp [linkTo, linkUse, expr?_modifyExpr, Ne.symm hu]

end LinkTo

theorem allocExpr_size {E : Procedure → Prop} (n : ExprNode) :
    Runs (allocExpr n) q (fun _ q' => q'.exprs.size = q.exprs.size + 1) E :=
  runs_modifyGet (by simp [size_foldl_modifyExpr])

/-- The node `cloneExpr` adds over the copies `ops` of the operands of `src`. -/
def copyNode (tags : CloneTags) (src : ExprNode) (ops : List ExprId) : ExprNode :=
  { kind := src.kind, operands := ops, idx := if tags.index then src.idx else none,
    safe := tags.safe && src.safe, weak := tags.weak && src.weak }

section NodeStep

/-! The state after the copies of the operands (`q_m`), after the new node `N` over them
    (`q_a`), and after its link to the definition `o`, if any. The copies stand from the size of
    `q` on and below `N`; the definition stands below the size of `q`. -/

variable {e N : ExprId} {ts ts' : List ExprShape} {q_m q_a : Procedure} {o : Option ExprId}

/-- The nodes of the copies of the operands keep all but the parents of their roots, which is
    the new node. -/
theorem expr?_linkTo_copies (hcl : ClonedAll tags p q q_m ts ts') (hN : N.index = q_m.exprs.size)
    (hexpr : ∀ y, q_a.expr? y = if y = N then some (copyNode tags (q.node e) (ts'.map root))
      else if y ∈ ts'.map root then (q_m.expr? y).map fun x => { x with parent := some (.expr N) }
      else q_m.expr? y)
    (hod : ∀ d, o = some d → d.index < q.exprs.size) {y : ExprId} (hy : y ∈ ts'.flatMap ids) :
    (q_a.linkTo N o).expr? y = if y ∈ ts'.map root
      then (q_m.expr? y).map fun x => { x with parent := some (.expr N) } else q_m.expr? y := by
  have hyN : y ≠ N := fun h => by
    have := (hcl.fresh y hy).2
    rw [h, hN] at this
    omega
  have hyd : ∀ d, o = some d → y ≠ d := fun d hd h => by
    have := (hcl.fresh y hy).1
    have := hod d hd
    rw [h] at *
    omega
  rw [expr?_linkTo_of_ne _ hyN hyd, hexpr, if_neg hyN]

/-- So the nodes of the copies of the operands change only their parents. -/
theorem node_linkTo_copies (hview : ∀ y ∈ ts'.flatMap ids, (q_a.linkTo N o).expr? y =
      if y ∈ ts'.map root then (q_m.expr? y).map fun x => { x with parent := some (.expr N) }
      else q_m.expr? y) {y : ExprId} (hy : y ∈ ts'.flatMap ids) :
    ∃ par l, (q_a.linkTo N o).node y = { q_m.node y with parent := par, uses := l } := by
  unfold Procedure.node
  rw [hview y hy]
  split <;> cases q_m.expr? y <;> exact ⟨_, _, rfl⟩

/-- The copy of a node: over the copies of its operands, made from `q` to `q_m`, the new node
    `N` added, then linked to the definition `o` the tags keep, make the copy of the tree. -/
theorem ClonedAll.node (hq : p.ReadersAdded q) (he : e.index < p.exprs.size)
    (hcl : ClonedAll tags p q q_m ts ts') (hN : N.index = q_m.exprs.size)
    (hsize : q_a.exprs.size = q_m.exprs.size + 1)
    (hexpr : ∀ y, q_a.expr? y = if y = N then some (copyNode tags (q.node e) (ts'.map root))
      else if y ∈ ts'.map root then (q_m.expr? y).map fun x => { x with parent := some (.expr N) }
      else q_m.expr? y)
    (ho : o = if tags.defLink then (p.node e).defLink.filter p.isLive else none)
    (hod : ∀ d, o = some d → d.index < q.exprs.size) :
    ClonedAll tags p q (q_a.linkTo N o) [.node e ts] [.node N ts'] := by
  have hview := fun y (hy : y ∈ ts'.flatMap ids) => expr?_linkTo_copies hcl hN hexpr hod hy
  have hkeep := fun y (hy : y ∈ ts'.flatMap ids) => node_linkTo_copies hview hy
  have hqN : q.exprs.size ≤ N.index := hN ▸ hcl.appends.1
  have hNd : ∀ d, o = some d → N ≠ d := fun d hd h => by
    have := hod d hd
    rw [← h] at this
    omega
  -- the new node, linked
  have hnew : (q_a.linkTo N o).expr? N = some { copyNode tags (q.node e) (ts'.map root) with defLink := o } :=
    expr?_linkTo_self q_a (by rw [hexpr, if_pos rfl]) rfl hNd
  have hnewNode := node_of_expr? _ hnew
  -- a node of a copy below that is not its root keeps its parent: the roots had none
  have hpar : ∀ u' ∈ ts', ∀ y ∈ u'.ids, y ≠ u'.root → y ∉ ts'.map root := by
    intro u' hu' y hy hyr hmem
    obtain ⟨v', hv', rfl⟩ := List.mem_map.1 hmem
    obtain ⟨w, -, hw, -⟩ := (hcl.holds u' hu').spans.parent_mem hy hyr
    rw [hcl.detached v' hv'] at hw
    cases hw
  have hmemIds : ∀ u' ∈ ts', ∀ y ∈ u'.ids, y ∈ ts'.flatMap ids :=
    fun u' hu' y hy => List.mem_flatMap.2 ⟨u', hu', hy⟩
  have hnodup : (ExprShape.node N ts').ids.Nodup := by
    rw [ids_node, List.nodup_append]
    refine ⟨hcl.nodup, List.nodup_singleton N, fun y hy z hz hyz => ?_⟩
    have := (hcl.fresh y hy).2
    rw [hyz, List.mem_singleton.1 hz, hN] at this
    omega
  have hflat : [ExprShape.node N ts'].flatMap ids = (ExprShape.node N ts').ids := by simp
  refine ⟨rfl, ?_, ?_, ?_, hflat ▸ hnodup, ?_, ?_⟩
  · -- the new node over the copies below, each now listed by it
    simp only [List.mem_singleton, forall_eq]
    refine ⟨spans_node_iff.2 ⟨by simp [isLive, hnew], by rw [hnewNode]; rfl, fun u' hu' => ?_,
      fun u' hu' => ?_⟩, hnodup⟩
    · obtain ⟨x, hx⟩ := Option.isSome_iff_exists.1 ((hcl.holds u' hu').spans.live u'.root_mem_ids)
      have := hview _ (hmemIds u' hu' _ u'.root_mem_ids)
      rw [if_pos (List.mem_map_of_mem hu'), hx, Option.map_some] at this
      rw [node_of_expr? _ this]
    · have hu := hcl.holds u' hu'
      refine hu.spans.frame hu.nodup (fun y hy hl => ?_) (fun y hy => ?_) (fun y hy hyr => ?_)
      · rw [isLive, hview y (hmemIds u' hu' y hy)]
        split <;> simpa [isLive] using hl
      · obtain ⟨par, l, h⟩ := hkeep y (hmemIds u' hu' y hy)
        rw [h]
      · unfold Procedure.node
        rw [hview y (hmemIds u' hu' y hy), if_neg (hpar u' hu' y hy hyr)]
  · simp [hnewNode, copyNode]
  · -- the copies below stand from the size of `q` on and below `N`, the last new node
    rw [hflat, ids_node, size_linkTo, hsize]
    intro y hy
    rcases List.mem_append.1 hy with hy | hy
    · exact ⟨(hcl.fresh y hy).1, Nat.lt_succ_of_lt (hcl.fresh y hy).2⟩
    · rw [List.mem_singleton.1 hy, hN]
      exact ⟨hN ▸ hqN, Nat.lt_succ_self _⟩
  · -- the new node copies the node, and the copies below keep their copies
    simp only [List.zip_cons_cons, List.zip_nil_left, List.mem_singleton, forall_eq]
    obtain ⟨l, hl⟩ := hq.node_eq he
    refine .node ⟨by rw [hnewNode, hl]; rfl, by rw [hnewNode]; rfl, by rw [hnewNode, hl]; rfl,
      by rw [hnewNode, hl]; rfl, by rw [hnewNode, hl]; rfl, by rw [hnewNode]; exact ho⟩
      hcl.length fun u hu => ?_
    · refine (hcl.along u hu).mono fun x x' _ hx' hc => hc.frame (hkeep x' ?_)
      exact List.mem_flatMap.2 ⟨u.2, (List.of_mem_zip hu).2, hx'⟩
  · -- the nodes of `q` kept their readers through the new node, but the definition it reads
    rw [hflat, ids_node]
    refine ⟨hcl.appends.1.trans (by rw [size_linkTo, hsize]; exact Nat.le_succ _), fun x hx => ?_⟩
    have hxN : x ≠ N := fun h => by
      rw [h] at hx
      omega
    have hxcs : x ∉ ts'.map root := fun h => by
      obtain ⟨u', hu', rfl⟩ := List.mem_map.1 h
      have := (hcl.fresh _ (hmemIds u' hu' _ u'.root_mem_ids)).1
      omega
    have ha : q_a.expr? x = q_m.expr? x := by rw [hexpr, if_neg hxN, if_neg hxcs]
    have hfilter : (ts'.flatMap ids).filter (fun y => ((q_a.linkTo N o).node y).defLink = some x) =
        (ts'.flatMap ids).filter fun y => (q_m.node y).defLink = some x :=
      List.filter_congr fun y hy => by
        obtain ⟨par, l, h⟩ := hkeep y hy
        rw [h]
    rw [List.filter_append, hfilter, List.filter_singleton, hnewNode]
    by_cases hox : o = some x
    · subst hox
      rw [expr?_linkTo_target _ (Ne.symm hxN), ha, hcl.appends.2 x hx]
      cases q.expr? x <;> simp
    · rw [expr?_linkTo_of_ne _ hxN fun d hd h => hox (h ▸ hd), ha, hcl.appends.2 x hx]
      cases q.expr? x <;> simp [hox]

end NodeStep

/-! ### The whole tree -/

/-- A tree held has no more nodes than there are slots. -/
theorem Holds.length_ids_le {t : ExprShape} (ht : p.Holds t) : t.ids.length ≤ p.exprs.size := by
  have hnd : (t.ids.map ExprId.index).Nodup :=
    ht.nodup.map fun a b h => by rw [ExprId.ext_iff']; exact h
  have hsub : t.ids.map ExprId.index ⊆ List.range p.exprs.size := fun i hi => by
    obtain ⟨x, hx, rfl⟩ := List.mem_map.1 hi
    obtain ⟨n, hn⟩ := Option.isSome_iff_exists.1 (ht.spans.live hx)
    exact List.mem_range.2 (index_lt_of_expr? p hn)
  simpa using (hnd.subperm hsub).length_le

/-- The operands copied one after another, each from the state the ones before left. -/
theorem mapM_copies_cloned {m : Nat} {us : List ExprShape}
    (hgo : ∀ u ∈ us, ∀ q, p.ReadersAdded q → Runs (cloneExpr.go tags m u.root) q
      (fun c q' => ∃ u', u'.root = c ∧ ClonedAll tags p q q' [u] [u']) fun _ => False) :
    ∀ q, p.ReadersAdded q → Runs ((us.map root).mapM (cloneExpr.go tags m)) q
      (fun cs q' => ∃ us', cs = us'.map root ∧ ClonedAll tags p q q' us us') fun _ => False := by
  induction us with
  | nil => exact fun q _ => runs_pure _ ⟨[], rfl, .nil tags p q⟩
  | cons u us ih =>
    intro q hq
    rw [List.map_cons, List.mapM_cons]
    refine runs_bind (hgo u List.mem_cons_self q hq) fun c q₁ h₁ => ?_
    obtain ⟨u', hc, h₁⟩ := h₁
    refine runs_bind (ih (fun v hv => hgo v (.tail _ hv)) q₁ (hq.trans h₁.appends.readersAdded))
      fun cs q₂ h₂ => ?_
    obtain ⟨us', hcs, h₂⟩ := h₂
    exact runs_pure _ ⟨u' :: us', by rw [hcs, ← hc, List.map_cons], h₁.append h₂⟩

/-- The copy of a tree held in `p` whose links name live definitions, run from a state that
    only added readers to the nodes of `p`, with more fuel than the tree has nodes: it does not
    fail, and copies the tree. The induction follows the tree: the operands are copied first,
    one after another, then the node over them, then its link. -/
theorem cloneExpr_go_copies (tags : CloneTags) (t : ExprShape) : p.Holds t →
    (∀ x ∈ t.ids, ∀ d, (p.node x).defLink = some d → p.isLive d) →
    ∀ (m : Nat) (q : Procedure), t.ids.length ≤ m → p.ReadersAdded q →
      Runs (cloneExpr.go tags m t.root) q
        (fun c q' => ∃ t', t'.root = c ∧ ClonedAll tags p q q' [t] [t']) fun _ => False := by
  induction t with
  | node e ts ih =>
    intro ht hlinks m q hm hq
    obtain ⟨k, rfl⟩ : ∃ k, m = k + 1 :=
      ⟨m - 1, by have := List.length_pos_of_mem (ExprShape.node e ts).root_mem_ids; omega⟩
    obtain ⟨live, hops, -, -⟩ := spans_node_iff.1 ht.spans
    have he : e.index < p.exprs.size := by
      obtain ⟨n, hn⟩ := Option.isSome_iff_exists.1 live
      exact index_lt_of_expr? p hn
    obtain ⟨l, hsrc⟩ := hq.node_eq he
    have hlink : (q.node e).defLink = (p.node e).defLink := by rw [hsrc]
    rw [root_node, cloneExpr.go]
    refine runs_get_bind ?_
    dsimp only
    rw [show (q.node e).operands = ts.map root by rw [hsrc]; exact hops]
    -- the operands first, each a subtree with fewer nodes
    have hgo : ∀ u ∈ ts, ∀ q, p.ReadersAdded q → Runs (cloneExpr.go tags k u.root) q
        (fun c q' => ∃ u', u'.root = c ∧ ClonedAll tags p q q' [u] [u']) fun _ => False := by
      intro u hu
      have hlt : u.ids.length < (ExprShape.node e ts).ids.length := length_ids_lt_of_mem hu
      exact fun q hq => ih u hu (ht.sub (mem_subs_node.2 (.inr ⟨u, hu, self_mem_subs u⟩)))
        (fun x hx => hlinks x (mem_ids_node_of_mem hu hx)) k q (by omega) hq
    refine runs_bind (mapM_copies_cloned hgo q hq) fun cs q_m hcl => ?_
    obtain ⟨ts', rfl, hcl⟩ := hcl
    -- then the node over them
    refine runs_bind (runs_and_ok (allocExpr_spec (copyNode tags (q.node e) (ts'.map root)))
      (allocExpr_size _)) fun N q_a hN => ?_
    obtain ⟨⟨hN, -, hexpr⟩, hsize⟩ := hN
    -- and last its link, to the definition the node reads when the tags keep it
    have hfinal : ∀ o, o = (if tags.defLink then (p.node e).defLink.filter p.isLive else none) →
        Runs (pure N : Edit ExprId) (q_a.linkTo N o)
          (fun c q' => ∃ t', t'.root = c ∧ ClonedAll tags p q q' [.node e ts] [t']) fun _ => False := by
      intro o ho
      refine runs_pure _ ⟨.node N ts', rfl, ClonedAll.node hq he hcl hN hsize hexpr ho fun d hd => ?_⟩
      rw [ho] at hd
      split at hd
      · obtain ⟨-, hlive⟩ := Option.filter_eq_some_iff.1 hd
        obtain ⟨n, hn⟩ := Option.isSome_iff_exists.1 hlive
        exact Nat.lt_of_lt_of_le (index_lt_of_expr? p hn) hq.1
      · cases hd
    -- the definition a node of `p` reads is live in `p`, and still in `q_a`
    have hlive_a : ∀ d, (p.node e).defLink = some d → q_a.isLive d = true := by
      intro d hd
      have hpd := hlinks e (ExprShape.node e ts).root_mem_ids d hd
      obtain ⟨n, hn⟩ := Option.isSome_iff_exists.1 hpd
      have hdp := index_lt_of_expr? p hn
      have hdq := Nat.lt_of_lt_of_le hdp hq.1
      have hdN : d ≠ N := fun h => by
        have := hcl.appends.1
        rw [h, hN] at hdq
        omega
      have hdcs : d ∉ ts'.map root := fun h => by
        obtain ⟨u', hu', rfl⟩ := List.mem_map.1 h
        have := (hcl.fresh _ (List.mem_flatMap.2 ⟨u', hu', u'.root_mem_ids⟩)).1
        omega
      rw [isLive, hexpr, if_neg hdN,
        if_neg (show d ∉ (copyNode tags (q.node e) (ts'.map root)).operands from hdcs), ← isLive,
        hcl.appends.readersAdded.isLive hdq, hq.isLive hdp, hpd]
    split
    · next htags =>
      split
      · next d hd =>
        rw [hlink] at hd
        refine runs_get_bind ?_
        split
        · exact runs_modify_bind (hfinal (some d) (by
            rw [if_pos htags, hd, Option.filter_some, if_pos (hlinks e (ExprShape.node e ts).root_mem_ids d hd)]))
        · next hdead => exact absurd (hlive_a d hd) hdead
      · next hd =>
        rw [hlink] at hd
        have hnone : (p.node e).defLink = none := Option.eq_none_iff_forall_ne_some.2 hd
        exact hfinal none (by rw [if_pos htags, hnone, Option.filter_none])
    · next htags => exact hfinal none (by simp [htags])

/-- Copying a tree that `p` holds, whose links name live definitions (as every link of a
    consistent procedure does), does not fail and makes a faithful copy. The copy is a tree of
    its own, held and detached, none of whose nodes was there before. It has the form of the
    tree, each node a copy of the node at its place under the tags: of the same kind, no
    definition position, with the subscript, the no-alias mark and the implicit-definition mark
    kept exactly when the tags ask, and the link to a live definition only with the link tag.
    The copy compares alike to the tree, and equal exactly when the subscripts are kept or the
    tree has none. Every node that was there is as it was, but that a definition gains as
    readers the copies that read it, appended once each in the order of the copy. -/
theorem cloneExpr_faithful {t : ExprShape} (ht : p.Holds t)
    (hlinks : ∀ x ∈ t.ids, ∀ d, (p.node x).defLink = some d → p.isLive d) (tags : CloneTags) :
    Runs (cloneExpr t.root tags) p (fun c p' => ∃ t', t'.root = c ∧ p'.Holds t' ∧
      (p'.node c).parent = none ∧ (∀ y ∈ t'.ids, p.exprs.size ≤ y.index) ∧
      t.Along (CopiedNode tags p p') t' ∧ p'.like t.root c = true ∧
      (p'.equals t.root c = true ↔ tags.index = true ∨ ∀ x ∈ t.ids, (p.node x).idx = none) ∧
      ∀ x, x.index < p.exprs.size → p'.expr? x = (p.expr? x).map fun n =>
        { n with uses := n.uses ++ t'.ids.filter fun y => (p'.node y).defLink = some x })
      fun _ => False := by
  unfold cloneExpr
  refine runs_get_bind ?_
  have hfuel : t.ids.length ≤ p.depthBound := Nat.le_succ_of_le ht.length_ids_le
  refine runs_mono (cloneExpr_go_copies tags t ht hlinks _ p hfuel (.refl p)) ?_ fun _ h => h
  intro c p' hc
  obtain ⟨t', rfl, hcl⟩ := hc
  have hflat : [t'].flatMap ids = t'.ids := by simp
  have ht' : p'.Holds t' := hcl.holds t' List.mem_cons_self
  have htp : p'.Holds t := ht.readersAdded hcl.appends.readersAdded
  have halong : t.Along (CopiedNode tags p p') t' := hcl.along (t, t') List.mem_cons_self
  -- the nodes of the tree are nodes of `p`, kept in `p'` but for their readers
  have hnode : ∀ x ∈ t.ids, ∃ l, p'.node x = { p.node x with uses := (p.node x).uses ++ l } :=
    fun x hx => hcl.appends.readersAdded.node_eq (by
      obtain ⟨n, hn⟩ := Option.isSome_iff_exists.1 (ht.spans.live hx)
      exact index_lt_of_expr? p hn)
  have hfuel' : t.ids.length ≤ p'.depthBound := hfuel.trans (Nat.succ_le_succ hcl.appends.1)
  -- the comparisons walk the tree and the copy together
  have halong' : t.Along (fun x x' => x ∈ t.ids ∧ CopiedNode tags p p' x x') t' :=
    halong.mono fun x x' hx _ h => ⟨hx, h⟩
  have hcmp := fun wi => compare_go_along
    (fun x x' (h : x ∈ t.ids ∧ CopiedNode tags p p' x x') => by
      obtain ⟨l, hl⟩ := hnode x h.1
      rw [h.2.kind, hl])
    wi halong' htp.spans ht'.spans hfuel'
  refine ⟨t', rfl, ht', hcl.detached t' List.mem_cons_self,
    fun y hy => (hcl.fresh y (hflat ▸ hy)).1, halong, (hcmp false).2 (.inl rfl), ?_, ?_⟩
  · -- equal exactly when every subscript is kept: the copy keeps them all, or there are none
    have hidx : t.Along (fun x x' => (p'.node x).idx = (p'.node x').idx) t' ↔
        ∀ x ∈ t.ids, tags.index = true ∨ (p.node x).idx = none :=
      halong'.iff_forall fun x x' h => by
        obtain ⟨l, hl⟩ := hnode x h.1
        rw [hl, h.2.idx]
        cases tags.index <;> simp [eq_comm]
    rw [equals, compare, hcmp true, hidx]
    cases tags.index <;> simp
  · intro x hx
    rw [hcl.appends.2 x hx, hflat]

/-- A procedure holding the tree `x₁ + 2` alone: the register `x` read with subscript `1` and
    linked to no definition, the literal `2`, and their sum. -/
def plusTwo : Procedure where
  address := 0
  exprs := #[some { kind := .reg "x" 32, parent := some (.expr ⟨2⟩), idx := some 1 },
    some { kind := .val 2 32, parent := some (.expr ⟨2⟩) },
    some { kind := .binary .add, operands := [⟨0⟩, ⟨1⟩] }]

/-- The shape of that tree. -/
def plusTwoShape : ExprShape := .node ⟨2⟩ [.node ⟨0⟩ [], .node ⟨1⟩ []]

theorem ids_plusTwoShape : plusTwoShape.ids = [⟨0⟩, ⟨1⟩, ⟨2⟩] := by simp [plusTwoShape]

theorem plusTwo_holds : plusTwo.Holds plusTwoShape := by
  refine ⟨spans_node_iff.2 ⟨rfl, rfl, by decide, fun t ht => ?_⟩, by rw [ids_plusTwoShape]; decide⟩
  rcases List.mem_cons.1 ht with rfl | ht
  · exact spans_node_iff.2 ⟨rfl, rfl, by simp, by simp⟩
  · rw [List.mem_singleton.1 ht]
    exact spans_node_iff.2 ⟨rfl, rfl, by simp, by simp⟩

theorem plusTwo_unlinked : ∀ x ∈ plusTwoShape.ids, ∀ d,
    (plusTwo.node x).defLink = some d → plusTwo.isLive d := by
  intro x hx d hd
  have hnone : ∀ x ∈ plusTwoShape.ids, (plusTwo.node x).defLink = none := by
    rw [ids_plusTwoShape]
    decide
  rw [hnone x hx] at hd
  cases hd

theorem cloneExpr_faithful_plusTwo : plusTwo.Holds plusTwoShape ∧
    (∀ x ∈ plusTwoShape.ids, ∀ d, (plusTwo.node x).defLink = some d → plusTwo.isLive d) ∧
    Runs (cloneExpr plusTwoShape.root { safe := true, defLink := true }) plusTwo
      (fun c p' => ∃ t', t'.root = c ∧ p'.Holds t' ∧
        (p'.node c).parent = none ∧ (∀ y ∈ t'.ids, plusTwo.exprs.size ≤ y.index) ∧
        plusTwoShape.Along (CopiedNode { safe := true, defLink := true } plusTwo p') t' ∧
        p'.like plusTwoShape.root c = true ∧
        (p'.equals plusTwoShape.root c = true ↔
          ({ safe := true, defLink := true } : CloneTags).index = true ∨
            ∀ x ∈ plusTwoShape.ids, (plusTwo.node x).idx = none) ∧
        ∀ x, x.index < plusTwo.exprs.size → p'.expr? x = (plusTwo.expr? x).map fun n =>
          { n with uses := n.uses ++ t'.ids.filter fun y => (p'.node y).defLink = some x })
      fun _ => False :=
  ⟨plusTwo_holds, plusTwo_unlinked, cloneExpr_faithful plusTwo_holds plusTwo_unlinked _⟩

end Procedure

end Decompilation
