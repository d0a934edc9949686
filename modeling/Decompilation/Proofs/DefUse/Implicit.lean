import Mathlib
import Decompilation.Proofs.DefUse.Stale
import Decompilation.Proofs.Simplify.Built

/-!
# Implicit definitions and links

The linking pass of a rebuild of the chains changes a procedure in two ways only. It links a
read to a registered definition (`Procedure.linkUse`), which changes the chains of two nodes;
and, for a place read with no definition, it makes one up (`Procedure.defineUninit`): a copy of
the read, marked weak and registered, written `x_i = 0` by a new statement at the end of the
container of implicit definitions. Both keep what there was up to the chains
(`Procedure.Adds`), so that trees stay held and name the places they named.

* `Procedure.Adds`: what the linking pass keeps from one step to the next;
* `Procedure.cloneExpr_plain`: a copy that keeps no links adds nodes with no chains;
* `Procedure.keyOf_eq_of_along`: a copy of a tree with the kinds and subscripts of its nodes
  names the same place;
* `Procedure.defineUninit_implicit`: what making an implicit definition adds (`Implicit`);
* `Procedure.addUse_linkUse`: linking a read to a registered definition.
-/

namespace Decompilation

namespace Procedure

open ExprShape

variable {p q q' q'' : Procedure} {E : Procedure → Prop}

/-! ### What the linking pass keeps -/

/-- `q'` keeps what `q` holds, up to the chains: every node of `q` is as it was but for its link,
    its readers and its registration; every statement of `q`, every container but the one of
    implicit definitions, and the roots are as they were, and there are no new containers. -/
structure Adds (q q' : Procedure) : Prop where
  size : q.exprs.size ≤ q'.exprs.size
  expr : ∀ x, x.index < q.exprs.size →
    (q'.expr? x).map ExprNode.unlinked = (q.expr? x).map ExprNode.unlinked
  stmts_size : q.stmts.size ≤ q'.stmts.size
  stmt : ∀ s, s.index < q.stmts.size → q'.stmt? s = q.stmt? s
  cntrs_size : q'.cntrs.size = q.cntrs.size
  cntr : ∀ c, c ≠ uninitContainer → q'.cntr? c = q.cntr? c
  blocks : q'.blocks = q.blocks
  body : q'.body = q.body

namespace Adds

theorem refl (q : Procedure) : q.Adds q :=
  ⟨le_rfl, fun _ _ => rfl, le_rfl, fun _ _ => rfl, rfl, fun _ _ => rfl, rfl, rfl⟩

theorem trans (h₁ : q.Adds q') (h₂ : q'.Adds q'') : q.Adds q'' where
  size := h₁.size.trans h₂.size
  expr x hx := (h₂.expr x (Nat.lt_of_lt_of_le hx h₁.size)).trans (h₁.expr x hx)
  stmts_size := h₁.stmts_size.trans h₂.stmts_size
  stmt s hs := (h₂.stmt s (Nat.lt_of_lt_of_le hs h₁.stmts_size)).trans (h₁.stmt s hs)
  cntrs_size := h₂.cntrs_size.trans h₁.cntrs_size
  cntr c hc := (h₂.cntr c hc).trans (h₁.cntr c hc)
  blocks := h₂.blocks.trans h₁.blocks
  body := h₂.body.trans h₁.body

variable (h : q.Adds q')
include h

theorem node {x : ExprId} (hx : x.index < q.exprs.size) :
    (q'.node x).unlinked = (q.node x).unlinked :=
  node_unlinked_eq (h.expr x hx)

theorem stmtNode {s : StmtId} (hs : s.index < q.stmts.size) : q'.stmtNode s = q.stmtNode s := by
  rw [Procedure.stmtNode, Procedure.stmtNode, h.stmt s hs]

theorem isLive {x : ExprId} (hx : q.isLive x) : q'.isLive x := by
  obtain ⟨y, hy⟩ := Option.isSome_iff_exists.1 hx
  have h2 := congrArg Option.isSome (h.expr x (index_lt_of_expr? q hy))
  simpa [Procedure.isLive, hy] using h2

/-- A tree of `q` stays held in `q'`, naming the same place at its root. -/
theorem holds {t : ExprShape} (ht : q.Holds t) :
    q'.Holds t ∧ q'.keyOf t.root = q.keyOf t.root :=
  have hx : ∀ x ∈ t.ids, (q'.expr? x).map ExprNode.unlinked = (q.expr? x).map ExprNode.unlinked :=
    fun x hx => h.expr x (ht.spans.index_lt hx)
  ⟨ht.of_unlinked hx, ht.keyOf_eq hx⟩

end Adds

/-- A change of the chains of one node keeps everything else. -/
theorem adds_modifyExpr (e : ExprId) {f : ExprNode → ExprNode}
    (hf : ∀ y, (f y).unlinked = y.unlinked) : q.Adds (q.modifyExpr e f) where
  size := (size_modifyExpr f e).ge
  expr x _ := by
    rw [expr?_modifyExpr]
    split
    · cases q.expr? x <;> simp [hf]
    · rfl
  stmts_size := le_rfl
  stmt _ _ := rfl
  cntrs_size := rfl
  cntr _ _ := rfl
  blocks := rfl
  body := rfl

/-- Linking a read changes the chains only. -/
theorem adds_linkUse (u d : ExprId) : q.Adds (q.linkUse u d) :=
  (adds_modifyExpr (f := fun x => { x with defLink := some d }) u fun _ => rfl).trans
    (adds_modifyExpr (f := fun x => { x with uses := x.uses ++ [u] }) d fun _ => rfl)

/-! ### Copies that keep no links -/

@[simp]
theorem expr?_setStmts (st : Array (Option Stmt)) (x : ExprId) :
    ({ q with stmts := st } : Procedure).expr? x = q.expr? x := rfl

@[simp]
theorem cntr?_setStmts (st : Array (Option Stmt)) (c : CntrId) :
    ({ q with stmts := st } : Procedure).cntr? c = q.cntr? c := rfl

/-- The nodes of `q` numbered `n` and up have no chains and are not registered. -/
def PlainFrom (n : Nat) (q : Procedure) : Prop :=
  ∀ x y, n ≤ x.index → q.expr? x = some y → y.defLink = none ∧ y.uses = [] ∧ y.tracked = false

/-- There is no node past the slots. -/
theorem plainFrom_size (q : Procedure) : PlainFrom q.exprs.size q := fun _ _ hx hy =>
  absurd (index_lt_of_expr? q hy) (Nat.not_lt.2 hx)

/-- Changing expression slots only. -/
theorem foldl_modifyExpr_exprs (l : List ExprId) (f : ExprNode → ExprNode) :
    ∃ xs, l.foldl (fun p e => p.modifyExpr e f) q = { q with exprs := xs } := by
  induction l generalizing q with
  | nil => exact ⟨q.exprs, rfl⟩
  | cons e l ih => exact ih (q := q.modifyExpr e f)

/-- A new node with no chains, of which the operands change their parents only. -/
theorem allocExpr_plain {N : Nat} (n : ExprNode)
    (hn : n.defLink = none ∧ n.uses = [] ∧ n.tracked = false) (hq : PlainFrom N q) :
    Runs (allocExpr n) q (fun r q' => r.index = q.exprs.size ∧ PlainFrom N q' ∧
      q'.exprs.size = q.exprs.size + 1 ∧ ∃ xs, q' = { q with exprs := xs }) E := by
  obtain ⟨xs, hxs⟩ := foldl_modifyExpr_exprs (q := q) n.operands
    fun x => { x with parent := some (.expr ⟨q.exprs.size⟩) }
  refine runs_modifyGet ⟨rfl, fun x y hx hy => ?_, by simp [size_foldl_modifyExpr], ?_⟩
  · -- the new node, or an old one whose parent changed at most
    dsimp only at hy
    rw [expr?_push, expr?_foldl_modifyExpr q n.operands
      (fun x => { x with parent := some (.expr ⟨q.exprs.size⟩) }) (fun _ => rfl)] at hy
    split_ifs at hy
    · cases hy
      exact hn
    · obtain ⟨y₀, hy₀, rfl⟩ := Option.map_eq_some_iff.1 hy
      exact hq x y₀ hx hy₀
    · exact hq x y hx hy
  · dsimp only
    rw [hxs]
    exact ⟨_, rfl⟩

/-- A copy that keeps no links adds nodes with no chains, and changes the expression slots
    only. -/
theorem cloneExpr_go_plain {tags : CloneTags} (htags : tags.defLink = false) {N : Nat} :
    ∀ (n : Nat) (c : ExprId) (q : Procedure), PlainFrom N q →
      Runs (cloneExpr.go tags n c) q
        (fun _ q' => PlainFrom N q' ∧ ∃ xs, q' = { q with exprs := xs }) E
  | 0, c, q, hq => by
    rw [cloneExpr.go]
    exact runs_pure _ ⟨hq, q.exprs, rfl⟩
  | n + 1, c, q, hq => by
    rw [cloneExpr.go]
    refine runs_get_bind ?_
    dsimp only
    -- the operands are copied first, each from the state the one before left
    refine runs_bind (runs_mapM (PlainFrom N) (fun q₁ q₂ => ∃ xs, q₂ = { q₁ with exprs := xs })
      (fun q => ⟨q.exprs, rfl⟩) ?_ (fun _ _ _ => True) (fun _ _ => trivial)
      (fun o _ q₁ h₁ => runs_mono (cloneExpr_go_plain htags n o q₁ h₁)
        (fun _ _ h => ⟨h.1, h.2, trivial⟩) fun _ h => h) hq) ?_
    · rintro _ _ _ ⟨xs, rfl⟩ ⟨ys, rfl⟩
      exact ⟨ys, rfl⟩
    rintro ops _ ⟨hq₁, ⟨xs₁, rfl⟩, -⟩
    refine runs_bind (allocExpr_plain _ ⟨rfl, rfl, rfl⟩ hq₁) ?_
    rintro new _ ⟨-, hq₂, -, xs₂, rfl⟩
    simp only [htags, Bool.false_eq_true, ↓reduceIte]
    exact runs_pure _ ⟨hq₂, xs₂, rfl⟩

theorem cloneExpr_plain {tags : CloneTags} (htags : tags.defLink = false) (e : ExprId) :
    Runs (cloneExpr e tags) q
      (fun _ q' => PlainFrom q.exprs.size q' ∧ ∃ xs, q' = { q with exprs := xs }) E := by
  unfold cloneExpr
  exact runs_get_bind (cloneExpr_go_plain htags _ e q (plainFrom_size q))

/-! ### Places of copies -/

/-- A copy of a tree, each node of the kind and subscript of the node at its place, names the
    place the tree names. -/
theorem keyOf_eq_of_along {t t' : ExprShape} (ht : p.Holds t) (ht' : q.Holds t')
    (hal : t.Along (fun x x' => (q.node x').kind = (p.node x).kind ∧
      (q.node x').idx = (p.node x).idx) t')
    (hsize : p.exprs.size ≤ q.exprs.size) :
    q.keyOf t'.root = p.keyOf t.root := by
  have hn : t.ids.length ≤ p.depthBound := Nat.le_succ_of_le ht.length_ids_le
  have hn' : t.ids.length ≤ q.depthBound := hn.trans (Nat.succ_le_succ hsize)
  unfold Procedure.keyOf locationKey render
  rw [render_go_along ht.spans ht'.spans hal hn hn', hal.root.2]

/-! ### Statements writing implicit definitions -/

/-- The statement `s` writes `0` to `d` from the container of implicit definitions: it is live,
    has no bodies, and its one expression is an assignment of a constant to `d`, held as a tree
    of nodes numbered `n` and up. -/
structure WritesZero (q : Procedure) (n : Nat) (d : ExprId) (s : StmtId) : Prop where
  live : (q.stmt? s).isSome
  parent : (q.stmtNode s).parent = some uninitContainer
  children : (q.stmtNode s).children = []
  assign : ∃ a z w t, (q.stmtNode s).exprs = [a] ∧ (q.node a).kind = .assign ∧
    (q.node a).operands = [d, z] ∧ (q.node z).kind = .val 0 w ∧ q.Holds t ∧ t.root = a ∧
    ∀ y ∈ t.ids, n ≤ y.index

/-- What the linking pass keeps keeps the statements writing implicit definitions. -/
theorem WritesZero.adds {n : Nat} {d : ExprId} {s : StmtId} (hw : q.WritesZero n d s)
    (h : q.Adds q') : q'.WritesZero n d s := by
  obtain ⟨st, hst⟩ := Option.isSome_iff_exists.1 hw.live
  have hs : q'.stmtNode s = q.stmtNode s := h.stmtNode (index_lt_of_stmt? hst)
  obtain ⟨a, z, w, t, hex, hka, hoa, hkz, ht, hroot, hn⟩ := hw.assign
  -- the assignment and its constant are nodes of the tree, kept up to the chains
  have hz : z ∈ t.ids := ht.mem_of_below (.operand .refl (by simp [hroot, hoa]))
  have ha' := h.node (ht.spans.index_lt (hroot ▸ t.root_mem_ids))
  have hz' := h.node (ht.spans.index_lt hz)
  refine ⟨by rw [h.stmt s (index_lt_of_stmt? hst), hst]; rfl, hs ▸ hw.parent,
    hs ▸ hw.children, a, z, w, t, hs ▸ hex, ?_, ?_, ?_, (h.holds ht).1, hroot, hn⟩
  · rw [← hka]
    exact (congrArg ExprNode.kind ha' :)
  · rw [← hoa]
    exact (congrArg ExprNode.operands ha' :)
  · rw [← hkz]
    exact (congrArg ExprNode.kind hz' :)

/-! ### Implicit definitions -/

/-- A new expression statement takes the first free number and its expression as its own. -/
theorem exprStmt_fresh (address : UInt64) (e : ExprId) :
    Runs (exprStmt address e) q (fun s q' => s = q.freshStmt ∧
      q' = { q.modifyExpr e (fun x => { x with parent := some (.stmt q.freshStmt) }) with
        stmts := (q.modifyExpr e fun x => { x with parent := some (.stmt q.freshStmt) }).stmts.push
          (some { kind := .expr, address, exprs := [e], bodies := [] }) }) E :=
  runs_modifyGet ⟨rfl, rfl⟩

/-- An assignment is a new node over its two sides, the left one put in definition position. -/
theorem assign_new (l r : ExprId) :
    Runs (assign l r) q (fun a q' => a.index = q.exprs.size ∧ q'.exprs.size = q.exprs.size + 1 ∧
      (∃ xs, q' = { q with exprs := xs }) ∧ ∀ e, q'.expr? e =
        if e = a then some { kind := .assign, operands := [l, r] }
        else if e = l then (q.expr? e).map fun x => { x with isDef := true, parent := some (.expr a) }
        else if e = r then (q.expr? e).map fun x => { x with parent := some (.expr a) }
        else q.expr? e) E := by
  unfold assign
  refine runs_modify_bind (runs_mono (runs_and (allocExpr_spec (E := E) _)
    (allocExpr_plain (E := E) _ ⟨rfl, rfl, rfl⟩ (plainFrom_size _))) ?_ fun _ h => h.1)
  rintro a q' ⟨⟨ha, -, hex⟩, -, -, hsize, xs, rfl⟩
  refine ⟨by simpa using ha, by simpa using hsize, ⟨xs, rfl⟩, fun e => ?_⟩
  rw [hex e, expr?_modifyExpr]
  by_cases hea : e = a
  · simp only [hea, if_true]
  by_cases hel : e = l
  · subst hel
    cases q.expr? e <;> simp [hea]
  by_cases her : e = r
  · subst her
    cases q.expr? e <;> simp [hea, hel]
  · simp [hea, hel, her]


/-- What making the implicit definition `d` of the place read at `u` adds to `q` in `q'`. Every
    node of `q` is as it was, and the new nodes have no chains; but for `d`, none is registered.
    `d` is new, registered, marked weak and in definition position, of the kind and subscript of
    `u`, and the root of a tree of new nodes naming the place `u` names. The one new statement
    writes `0` to `d` and is listed last in the container of implicit definitions; every other
    statement and container is as it was. -/
structure Implicit (q : Procedure) (u d : ExprId) (q' : Procedure) : Prop where
  adds : q.Adds q'
  kept : ∀ x, x.index < q.exprs.size → q'.expr? x = q.expr? x
  fresh : q.exprs.size ≤ d.index
  plain : ∀ x y, q.exprs.size ≤ x.index → q'.expr? x = some y →
    y.defLink = none ∧ y.uses = [] ∧ (y.tracked = true ↔ x = d)
  weak : (q'.node d).weak = true
  isDef : (q'.node d).isDef = true
  kind : (q'.node d).kind = (q.node u).kind
  idx : (q'.node d).idx = (q.node u).idx
  key : q'.keyOf d = q.keyOf u
  tree : ∃ t, q'.Holds t ∧ t.root = d ∧ ∀ y ∈ t.ids, q.exprs.size ≤ y.index
  stmts_size : q'.stmts.size = q.stmts.size + 1
  uninit : (q'.cntrNode uninitContainer).stmts = (q.cntrNode uninitContainer).stmts ++ [q.freshStmt]
  uninit_live : (q'.cntr? uninitContainer).isSome
  writes : q'.WritesZero q.exprs.size d q.freshStmt

/-- What `defineUninit` adds, from a read at the root of a held tree whose links name live
    definitions, with the container of implicit definitions live. -/
theorem defineUninit_implicit {t : ExprShape} (ht : q.Holds t)
    (hlinks : ∀ x ∈ t.ids, ∀ d, (q.node x).defLink = some d → q.isLive d)
    (hlive : (q.cntr? uninitContainer).isSome) :
    Runs (defineUninit t.root) q (fun d q' => q.Implicit t.root d q') (fun _ => False) := by
  unfold defineUninit
  -- the written side: a copy of the tree read, of new nodes with no chains
  refine runs_bind (runs_mono (runs_and (cloneExpr_faithful ht hlinks _)
    (cloneExpr_plain (E := fun _ => False) rfl _)) (fun _ _ h => h) fun _ h => h.1) ?_
  rintro _ q₁ ⟨⟨t', rfl, ht', hpar', hfresh', halong, -, -, hold⟩, hplain₁, xs₁, hq₁⟩
  refine runs_modify_bind ?_
  generalize hq₂ : q₁.modifyExpr t'.root (fun x => { x with weak := true }) = q₂
  refine runs_get_bind ?_
  refine runs_bind (val_fresh 0 _) ?_
  rintro z q₃ ⟨rfl, hq₃⟩
  refine runs_bind (assign_new _ _) ?_
  rintro a q₄ ⟨ha, hsize₄, ⟨xs₄, hq₄⟩, hex₄⟩
  refine runs_get_bind ?_
  refine runs_bind (exprStmt_fresh _ _) ?_
  rintro s q₅ ⟨rfl, hq₅⟩
  refine runs_bind (pushStmt_detached ?_) ?_
  rotate_left
  · rintro _ q₆ hq₆
    refine runs_modify_bind (runs_pure _ ?_)
    set d := t'.root with hd
    set q₇ := q₆.modifyExpr d fun x => { x with tracked := true }
    have hdq : q.exprs.size ≤ d.index := hfresh' d t'.root_mem_ids
    have hd₁ : d.index < q₁.exprs.size := ht'.spans.index_lt t'.root_mem_ids
    have hsize₂ : q₂.exprs.size = q₁.exprs.size := by rw [← hq₂, size_modifyExpr]
    have hsize₃ : q₃.exprs.size = q₁.exprs.size + 1 := by rw [hq₃, Array.size_push, hsize₂]
    -- the copy adds no readers to the nodes there were
    have hkept₁ : ∀ x, x.index < q.exprs.size → q₁.expr? x = q.expr? x := fun x hx => by
      rw [hold x hx, List.filter_eq_nil_iff.2 fun y hy => ?_]
      · cases q.expr? x <;> simp
      · obtain ⟨n, hn⟩ := Option.isSome_iff_exists.1 (ht'.spans.live hy)
        simp [node_of_expr? _ hn, (hplain₁ y n (hfresh' y hy) hn).1]
    set z : ExprId := ⟨q₂.exprs.size⟩ with hz
    have hdz : d ≠ z := fun h => by
      have := congrArg ExprId.index h
      simp only [hz, hsize₂] at this
      omega
    have hda : d ≠ a := fun h => by
      have := congrArg ExprId.index h
      omega
    have hza : z ≠ a := fun h => by
      have := congrArg ExprId.index h
      simp only [hz, hsize₂] at this
      omega
    -- every node but the three new ones is the copy's
    have hexpr : ∀ x, q₇.expr? x = if x = d then
        ((q₄.modifyExpr a fun y => { y with parent := some (.stmt q₄.freshStmt) }).expr? x).map
          fun y => { y with tracked := true }
        else (q₄.modifyExpr a fun y => { y with parent := some (.stmt q₄.freshStmt) }).expr? x := by
      intro x
      simp only [q₇, hq₆, hq₅, expr?_modifyExpr, expr?_modifyStmt, expr?_modifyCntr, expr?_setStmts]
    have hd₇ : q₇.expr? d = (q₁.expr? d).map fun y =>
        { y with weak := true, isDef := true, parent := some (.expr a), tracked := true } := by
      have hdi : d.index ≠ q₂.exprs.size := by omega
      rw [hexpr, if_pos rfl, expr?_modifyExpr, if_neg hda, hex₄, if_neg hda, if_pos rfl, hq₃,
        expr?_push, if_neg hdi, ← hq₂, expr?_modifyExpr, if_pos rfl]
      cases q₁.expr? d <;> rfl
    have hz₇ : ∃ w, q₇.expr? z = some { kind := .val 0 w, parent := some (.expr a) } := by
      rw [hexpr, if_neg hdz.symm, expr?_modifyExpr, if_neg hza, hex₄, if_neg hza, if_neg hdz.symm,
        if_pos rfl, hq₃, expr?_push, if_pos rfl]
      rw [UInt64.zero_and]
      exact ⟨_, rfl⟩
    have ha₇ : q₇.expr? a =
        some { kind := .assign, operands := [d, z], parent := some (.stmt q₄.freshStmt) } := by
      rw [hexpr, if_neg (Ne.symm hda), expr?_modifyExpr, if_pos rfl, hex₄, if_pos rfl]
      rfl
    have hx₇ : ∀ x, x ≠ d → x ≠ z → x ≠ a → q₇.expr? x = q₁.expr? x := by
      intro x hxd hxz hxa
      have hxi : x.index ≠ q₂.exprs.size := fun h => hxz (by rw [hz]; exact (ExprId.ext_iff'.2 h))
      rw [hexpr, if_neg hxd, expr?_modifyExpr, if_neg hxa, hex₄, if_neg hxa, if_neg hxd,
        if_neg hxz, hq₃, expr?_push, if_neg hxi, ← hq₂, expr?_modifyExpr, if_neg hxd]
    obtain ⟨w, hz₇⟩ := hz₇
    obtain ⟨y₁, hy₁⟩ := Option.isSome_iff_exists.1 (ht'.spans.live t'.root_mem_ids)
    have hnd₇ : q₇.node d =
        { y₁ with weak := true, isDef := true, parent := some (.expr a), tracked := true } :=
      node_of_expr? _ (by rw [hd₇, hy₁]; rfl)
    -- the copy's other nodes are as the copy left them
    have hcopy : ∀ y ∈ t'.ids, y ≠ d → q₇.expr? y = q₁.expr? y := fun y hy hyd => by
      have hlt := ht'.spans.index_lt hy
      refine hx₇ y hyd (fun h => ?_) (fun h => ?_)
      · have := congrArg ExprId.index h
        simp only [hz, hsize₂] at this
        omega
      · have := congrArg ExprId.index h
        omega
    have hview : ∀ y ∈ t'.ids, (q₇.node y).operands = (q₁.node y).operands ∧
        (q₇.node y).kind = (q₁.node y).kind ∧ (q₇.node y).idx = (q₁.node y).idx ∧
        (y ≠ d → q₇.node y = q₁.node y) ∧ q₇.isLive y = q₁.isLive y := fun y hy => by
      by_cases hyd : y = d
      · subst hyd
        rw [hnd₇, node_of_expr? _ hy₁, isLive, isLive, hd₇, hy₁]
        exact ⟨rfl, rfl, rfl, fun h => absurd rfl h, rfl⟩
      · have he := hcopy y hy hyd
        rw [node, node, isLive, isLive, he]
        exact ⟨rfl, rfl, rfl, fun _ => rfl, rfl⟩
    have ht₇ : q₇.Holds t' := by
      refine ⟨ht'.spans.frame ht'.nodup (fun y hy hl => ?_) (fun y hy => (hview y hy).1)
        (fun y hy hyd => ?_), ht'.nodup⟩
      · rwa [(hview y hy).2.2.2.2]
      · rw [(hview y hy).2.2.2.1 hyd]
    -- the assignment over the copy and the constant
    have hqz : q.exprs.size ≤ z.index := by simp only [hz, hsize₂]; omega
    have hza' : z ∉ t'.ids := fun h => by
      have := ht'.spans.index_lt h
      simp only [hz, hsize₂] at this
      omega
    have haz' : a ∉ t'.ids := fun h => by
      have := ht'.spans.index_lt h
      omega
    have hta : q₇.Holds (.node a [t', .node z []]) := by
      have hzs : (ExprShape.node z []).Spans q₇ := spans_node_iff.2
        ⟨by rw [isLive, hz₇]; rfl, by rw [node_of_expr? _ hz₇]; rfl, by simp, by simp⟩
      refine ⟨spans_node_iff.2 ⟨by rw [isLive, ha₇]; rfl, by rw [node_of_expr? _ ha₇]; rfl, ?_, ?_⟩,
        nodup_ids_node.2 ⟨?_, ?_, ?_⟩⟩
      · intro u hu
        simp only [List.mem_cons, List.not_mem_nil, or_false] at hu
        rcases hu with rfl | rfl
        · rw [hnd₇]
        · rw [root_node, node_of_expr? _ hz₇]
      · intro u hu
        simp only [List.mem_cons, List.not_mem_nil, or_false] at hu
        rcases hu with rfl | rfl
        · exact ht₇.spans
        · exact hzs
      · intro u hu
        simp only [List.mem_cons, List.not_mem_nil, or_false] at hu
        rcases hu with rfl | rfl
        · exact ht'.nodup
        · simp
      · simpa using hza'
      · intro u hu
        simp only [List.mem_cons, List.not_mem_nil, or_false] at hu
        rcases hu with rfl | rfl
        · exact haz'
        · simpa using hza.symm
    -- the new statement, listed last by the container of implicit definitions
    have hq₄f : q₄.stmts = q.stmts ∧ q₄.cntrs = q.cntrs ∧ q₄.blocks = q.blocks ∧ q₄.body = q.body := by
      rw [hq₄, hq₃, ← hq₂, hq₁]
      exact ⟨rfl, rfl, rfl, rfl⟩
    have hfs : q₄.freshStmt = q.freshStmt := by simp [freshStmt, hq₄f.1]
    let st : Stmt := { kind := .expr, address := q₄.address, exprs := [a], bodies := [] }
    have hst₇ : ∀ x, q₇.stmt? x =
        if x = q.freshStmt then some { st with parent := some uninitContainer } else q.stmt? x := by
      intro x
      have hsz : (q₄.modifyExpr a fun y => { y with parent := some (.stmt q.freshStmt) }).stmts.size =
          q.stmts.size := by rw [← hq₄f.1]; rfl
      have hq₄s : q₄.stmt? x = q.stmt? x := by simp only [stmt?, hq₄f.1]
      simp only [q₇, hq₆, hq₅, stmt?_modifyExpr, stmt?_modifyStmt, stmt?_modifyCntr, stmt?_push, hsz,
        hfs, hq₄s]
      by_cases hx : x = q.freshStmt
      · rw [if_pos hx, if_pos hx, if_pos (by rw [hx]; rfl)]
        rfl
      · rw [if_neg hx, if_neg hx, if_neg fun h => hx (by cases x; simp_all [freshStmt])]
    have hcn₇ : ∀ c, q₇.cntr? c = if c = uninitContainer then (q.cntr? c).map
        (fun x => { x with stmts := x.stmts ++ [q.freshStmt] }) else q.cntr? c := by
      intro c
      have hq₄c : q₄.cntr? c = q.cntr? c := by simp only [cntr?, hq₄f.2.1]
      simp only [q₇, hq₆, hq₅, cntr?_modifyExpr, cntr?_modifyStmt, cntr?_modifyCntr, cntr?_setStmts,
        hq₄c, hfs]
    have hfields : q₇.stmts.size = q.stmts.size + 1 ∧ q₇.cntrs.size = q.cntrs.size ∧
        q₇.blocks = q.blocks ∧ q₇.body = q.body := by
      simp [q₇, hq₆, hq₅, modifyStmt, modifyCntr, modifyExpr, hq₄f]
    have hqa : q₁.exprs.size < a.index := by omega
    have hqd : q.exprs.size ≤ q₁.exprs.size := hdq.trans hd₁.le
    have hkept : ∀ x, x.index < q.exprs.size → q₇.expr? x = q.expr? x := fun x hx => by
      have hne : ∀ y : ExprId, q.exprs.size ≤ y.index → x ≠ y := fun y hy h => by
        rw [h] at hx
        omega
      rw [hx₇ x (hne d hdq) (hne z hqz) (hne a (by omega)), hkept₁ x hx]
    refine
      { adds := ⟨(show q.exprs.size < a.index by omega).le.trans (index_lt_of_expr? _ ha₇).le,
          fun x hx => by rw [hkept x hx], by omega, fun x hx => ?_, hfields.2.1,
          fun c hc => by rw [hcn₇, if_neg hc], hfields.2.2.1, hfields.2.2.2⟩
        kept := hkept
        fresh := hdq
        plain := ?_
        weak := by rw [hnd₇]
        isDef := by rw [hnd₇]
        kind := ?_
        idx := ?_
        key := keyOf_eq_of_along ht ht₇ (halong.mono fun x x' _ hx' h =>
          ⟨(hview x' hx').2.1.trans h.kind, (hview x' hx').2.2.1.trans (by simpa using h.idx)⟩)
          ((show q.exprs.size < a.index by omega).le.trans (index_lt_of_expr? _ ha₇).le)
        tree := ⟨t', ht₇, rfl, hfresh'⟩
        stmts_size := hfields.1
        uninit := ?_
        uninit_live := by rw [hcn₇, if_pos rfl, Option.isSome_map]; exact hlive
        writes := ?_ }
    · rw [hst₇, if_neg fun h => by rw [h] at hx; exact lt_irrefl _ hx]
    · intro x y hx hy
      by_cases hxd : x = d
      · rw [hxd, hd₇, hy₁] at hy
        cases hy
        obtain ⟨h1, h2, -⟩ := hplain₁ d y₁ hdq hy₁
        exact ⟨h1, h2, by simp [hxd]⟩
      by_cases hxz : x = z
      · rw [hxz, hz₇] at hy
        cases hy
        exact ⟨rfl, rfl, by simp [hxz, Ne.symm hdz]⟩
      by_cases hxa : x = a
      · rw [hxa, ha₇] at hy
        cases hy
        exact ⟨rfl, rfl, by simp [hxa, Ne.symm hda]⟩
      · rw [hx₇ x hxd hxz hxa] at hy
        obtain ⟨h1, h2, h3⟩ := hplain₁ x y hx hy
        exact ⟨h1, h2, by simp [h3, hxd]⟩
    · have hk := halong.root.kind
      rw [node_of_expr? _ hy₁] at hk
      rw [hnd₇]
      exact hk
    · have hi := halong.root.idx
      rw [node_of_expr? _ hy₁] at hi
      rw [hnd₇]
      simpa using hi
    · obtain ⟨ct, hct⟩ := Option.isSome_iff_exists.1 hlive
      rw [cntrNode, hcn₇, if_pos rfl, hct, cntrNode_of_cntr? hct]
      rfl
    · refine ⟨by rw [hst₇, if_pos rfl]; rfl, by rw [stmtNode, hst₇, if_pos rfl]; rfl,
        by rw [stmtNode, hst₇, if_pos rfl]; rfl, a, z, w, _, by rw [stmtNode, hst₇, if_pos rfl]; rfl,
        by rw [node_of_expr? _ ha₇], by rw [node_of_expr? _ ha₇], by rw [node_of_expr? _ hz₇], hta,
        rfl, fun y hy => ?_⟩
      simp only [ids_node, List.flatMap_cons, List.flatMap_nil, List.append_nil, List.mem_append,
        List.mem_singleton, List.nil_append] at hy
      rcases hy with (hy | rfl) | rfl
      · exact hfresh' y hy
      · exact hqz
      · omega
  · rw [hq₅, stmtNode, stmt?_push]
    split
    · rfl
    · next h => exact absurd rfl h

/-! ### Linking a read -/

/-- Linking `u` to `d`: `u` gets the link, `d` the reader, and every other node stays. -/
theorem node_linkUse {u d : ExprId} (hud : u ≠ d) (hu : q.isLive u) (hd : q.isLive d)
    (x : ExprId) :
    (q.linkUse u d).node x =
      if x = u then { q.node u with defLink := some d }
      else if x = d then { q.node d with uses := (q.node d).uses ++ [u] } else q.node x := by
  obtain ⟨yu, hyu⟩ := Option.isSome_iff_exists.1 hu
  obtain ⟨yd, hyd⟩ := Option.isSome_iff_exists.1 hd
  unfold linkUse node
  simp only [expr?_modifyExpr]
  by_cases hxu : x = u
  · subst hxu
    simp [hud, hyu]
  · by_cases hxd : x = d
    · subst hxd
      simp [hxu, hyd]
    · simp [hxu, hxd]

/-- Linking keeps the registrations. -/
theorem isTracked_linkUse (u d x : ExprId) : (q.linkUse u d).isTracked x = q.isTracked x := by
  unfold linkUse isTracked
  simp only [expr?_modifyExpr]
  split_ifs <;> cases q.expr? x <;> rfl

/-- Linking a read with no link to a registered definition. -/
theorem addUse_linkUse {u d : ExprId} (hd : q.isTracked d = true)
    (hu : (q.node u).defLink = none) :
    Runs (addUse u d) q (fun _ q' => q' = q.linkUse u d) E := by
  unfold addUse
  refine runs_get_bind ?_
  simp only [hd, Bool.not_true, Bool.false_eq_true, ↓reduceIte]
  refine runs_set ?_
  simp only [unlinkUse, hu]

end Procedure

end Decompilation
