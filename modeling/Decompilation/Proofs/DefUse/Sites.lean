import Mathlib
import Decompilation.Proofs.Ir.Traversal

/-!
# The sites the chains are rebuilt over

`Procedure.linkDefs` walks the expressions of the blocks' containers, in address order, and of
the body (`Procedure.linkOrder`). A *site* is a register or memory access with an SSA subscript;
one in definition position is registered, any other is a read to link. Each site names a place
and a subscript (`Procedure.keyOf`): the text of the place without its own subscript, and the
subscript. A read is linked to the last definition of its place and subscript in the walk, or,
when there is none, to an implicit definition made up for it.

The walk reads only what hangs below its roots: the statements below them, their bodies and the
trees of their expressions (`Procedure.Rooted`, `RootCntr`, `RootExpr`). A procedure that agrees
with another there, up to the chains, walks alike and names the same places
(`Procedure.ReadsAlike`).

* `Procedure.ChainsRebuilt`: the chains a rebuild leaves, read off the walk;
* `Procedure.Linkable`: what a rebuild needs of the arena: trees below the statements, a walk
  that meets no expression twice, and implicit definitions apart from the rest;
* `Procedure.ReadsAlike.linkOrder`, `ReadsAlike.keyOf`: procedures that read alike walk alike
  and name the same places.
-/

namespace Decompilation

namespace ExprNode

/-- A subscripted place: a register or a memory access carrying an SSA subscript. -/
def isSite (x : ExprNode) : Bool := x.isLocation && x.idx.isSome

/-- The node without its chains: no link, no readers, not registered. -/
def unlinked (x : ExprNode) : ExprNode := { x with defLink := none, uses := [], tracked := false }

/-- Whether a node is a site, and in definition position, does not depend on its chains. -/
theorem isSite_eq_of_unlinked {x y : ExprNode} (h : x.unlinked = y.unlinked) :
    x.isSite = y.isSite := by
  have hk : x.kind = y.kind := (congrArg ExprNode.kind h :)
  have hi : x.idx = y.idx := (congrArg ExprNode.idx h :)
  simp [isSite, isLocation, isReg, isDeref, hk, hi]

end ExprNode

namespace Procedure

open ExprShape

variable {p q r : Procedure}

/-! ### The walk and its sites -/

/-- The containers the chains are rebuilt from: those of the blocks in address order, then the
    body. -/
def linkRoots (p : Procedure) : List CntrId := p.blocks.map Block.container ++ p.body.toList

/-- The expressions the rebuild visits, in its order. -/
def linkOrder (p : Procedure) : List ExprId := p.linkRoots.flatMap p.exprsIn

/-- The place and subscript of a site: the text of the place without its own subscript, and
    the subscript; none when the text cannot be written or there is no subscript. -/
def keyOf (p : Procedure) (x : ExprId) : Option (String × Nat) :=
  match p.locationKey x, (p.node x).idx with
  | .ok s, some i => some (s, i)
  | _, _ => none

/-- The definitions a rebuild registers: the sites in definition position, in the walk's order. -/
def siteDefs (p : Procedure) : List ExprId :=
  p.linkOrder.filter fun d => (p.node d).isDef && (p.node d).isSite

/-- The reads a rebuild links: the other sites, in the walk's order. -/
def siteReads (p : Procedure) : List ExprId :=
  p.linkOrder.filter fun u => !(p.node u).isDef && (p.node u).isSite

/-- The last definition of a place and subscript in the walk. -/
def lastDef (p : Procedure) (k : String × Nat) : Option ExprId :=
  (p.siteDefs.filter fun d => p.keyOf d == some k).getLast?

/-- The places and subscripts read but never defined, in the order of their first reads. -/
def undefinedKeys (p : Procedure) : List (String × Nat) :=
  ((p.siteReads.filterMap p.keyOf).filter fun k => (p.lastDef k).isNone).eraseDups

/-- The definition a read is linked to: the last definition of its place and subscript, or else
    the implicit one `weak` names. -/
def defOf (p : Procedure) (weak : String × Nat → ExprId) (u : ExprId) : ExprId :=
  match p.keyOf u with
  | some k => (p.lastDef k).getD (weak k)
  | none => u

/-- The chains a rebuild of `p` leaves in `p'`, having made `n` links, with `weak k` the implicit
    definition made for the place and subscript `k`. Every site has a key; each read visited is
    linked to the last definition of its place and subscript, or to the implicit one, and no
    other expression is linked; each definition's readers are exactly its reads, once each, in
    the walk's order; the registered definitions are the definition sites visited and the
    implicit definitions; each implicit definition is a new subscripted place, of its key, marked
    weak and written `x_i = 0` by the only statement of its own in the container of implicit
    definitions, which holds nothing else; and the statements that container held are gone. -/
structure ChainsRebuilt (p : Procedure) (weak : String × Nat → ExprId) (n : Nat)
    (p' : Procedure) : Prop where
  keys : ∀ x ∈ p.linkOrder, (p.node x).isSite = true → (p.keyOf x).isSome
  links : ∀ u, (p'.node u).defLink = if u ∈ p.siteReads then some (p.defOf weak u) else none
  uses : ∀ d, (p'.node d).uses = p.siteReads.filter fun u => p.defOf weak u == d
  count : n = p.siteReads.length
  registered : ∀ d, p'.isTracked d = true ↔ d ∈ p.siteDefs ∨ ∃ k ∈ p.undefinedKeys, d = weak k
  implicit : ∀ k ∈ p.undefinedKeys, p.exprs.size ≤ (weak k).index ∧
    (p'.node (weak k)).weak = true ∧ (p'.node (weak k)).isDef = true ∧
    (p'.node (weak k)).isSite = true ∧ p'.keyOf (weak k) = some k
  uninit : List.Forall₂ (fun k s => ∃ a z w, (p'.stmtNode s).exprs = [a] ∧
    (p'.node a).kind = .assign ∧ (p'.node a).operands = [weak k, z] ∧
    (p'.node z).kind = .val 0 w) p.undefinedKeys (p'.cntrNode uninitContainer).stmts
  stale : ∀ s ∈ (p.cntrNode uninitContainer).stmts, p'.stmt? s = none

/-! ### What the walk reads -/

/-- A statement hanging below a root of the rebuild. -/
def Rooted (p : Procedure) (s : StmtId) : Prop := ∃ r ∈ p.linkRoots, p.Within r s

/-- A container the rebuild reads: a root, or a body of a statement below one. -/
def RootCntr (p : Procedure) (c : CntrId) : Prop :=
  c ∈ p.linkRoots ∨ ∃ s, p.Rooted s ∧ c ∈ (p.stmtNode s).children

/-- An expression the rebuild may read: one below an expression of a statement below a root. -/
def RootExpr (p : Procedure) (x : ExprId) : Prop :=
  ∃ s, p.Rooted s ∧ ∃ e ∈ (p.stmtNode s).exprs, p.Below e x

/-- A statement hanging below the container of implicit definitions. -/
def Stale (p : Procedure) (s : StmtId) : Prop := p.Within uninitContainer s

/-- The container of implicit definitions, or a body of a statement below it. -/
def StaleCntr (p : Procedure) (c : CntrId) : Prop :=
  c = uninitContainer ∨ ∃ s, p.Stale s ∧ c ∈ (p.stmtNode s).children

/-- An expression below an expression of a statement below the container of implicit
    definitions. -/
def StaleExpr (p : Procedure) (x : ExprId) : Prop :=
  ∃ s, p.Stale s ∧ ∃ e ∈ (p.stmtNode s).exprs, p.Below e x

/-- What a rebuild needs of the arena. The expressions of the statements below the roots are
    trees; the walk meets no expression twice; what hangs below the container of implicit
    definitions is apart from what the walk reads; that container is live, lists each of its
    statements once, each live and naming it, no body lists them, and no statement owns the
    container; and containers list statements that have slots. -/
structure Linkable (p : Procedure) : Prop where
  trees : ∀ s, p.Rooted s → ∀ e ∈ (p.stmtNode s).exprs, ∃ t, p.Holds t ∧ t.root = e
  nodup : p.linkOrder.Nodup
  stmts : ∀ s, p.Stale s → ¬ p.Rooted s
  cntrs : ∀ c, p.StaleCntr c → ¬ p.RootCntr c
  exprs : ∀ x, p.StaleExpr x → ¬ p.RootExpr x
  uninit_live : (p.cntr? uninitContainer).isSome
  uninit_nodup : (p.cntrNode uninitContainer).stmts.Nodup
  uninit_parent : ∀ s ∈ (p.cntrNode uninitContainer).stmts,
    ∃ st, p.stmt? s = some st ∧ st.parent = some uninitContainer
  uninit_once : ∀ s ∈ (p.cntrNode uninitContainer).stmts, ∀ t, ∀ c ∈ (p.stmtNode t).children,
    s ∉ (p.cntrNode c).stmts
  uninit_free : ∀ t, uninitContainer ∉ (p.stmtNode t).children
  listed : ∀ c, ∀ s ∈ (p.cntrNode c).stmts, s.index < p.stmts.size

/-- `q` reads like `p` where the rebuild of `p` reads: the same roots; the same containers and
    statements below them; the trees of their expressions up to the chains, with no fewer slots;
    and as many container slots. -/
structure ReadsAlike (p q : Procedure) : Prop where
  roots : q.linkRoots = p.linkRoots
  cntr : ∀ c, p.RootCntr c → q.cntr? c = p.cntr? c
  stmt : ∀ s, p.Rooted s → q.stmt? s = p.stmt? s
  expr : ∀ x, p.RootExpr x → (q.expr? x).map ExprNode.unlinked = (p.expr? x).map ExprNode.unlinked
  size : p.exprs.size ≤ q.exprs.size
  nesting : q.cntrs.size = p.cntrs.size

/-- Nodes equal up to the chains, where both are looked up, have the same fields but for the
    chains. -/
theorem node_unlinked_eq {x : ExprId}
    (hx : (q.expr? x).map ExprNode.unlinked = (p.expr? x).map ExprNode.unlinked) :
    (q.node x).unlinked = (p.node x).unlinked := by
  unfold node
  cases hq : q.expr? x <;> cases hp : p.expr? x <;> simp_all

/-- A tree stays held where its nodes stay the same up to the chains. -/
theorem Holds.of_unlinked {t : ExprShape} (ht : p.Holds t)
    (h : ∀ x ∈ t.ids, (q.expr? x).map ExprNode.unlinked = (p.expr? x).map ExprNode.unlinked) :
    q.Holds t := by
  have hn : ∀ x ∈ t.ids, (q.node x).unlinked = (p.node x).unlinked :=
    fun x hx => node_unlinked_eq (h x hx)
  refine ⟨ht.spans.frame ht.nodup (fun x hx hl => ?_)
    (fun x hx => (congrArg ExprNode.operands (hn x hx) :))
    (fun x hx _ => (congrArg ExprNode.parent (hn x hx) :)), ht.nodup⟩
  rwa [isLive, ← Option.isSome_map (f := ExprNode.unlinked), h x hx, Option.isSome_map]

/-- A tree kept up to the chains is written alike at its root. -/
theorem Holds.locationKey_eq {t : ExprShape} (ht : p.Holds t)
    (h : ∀ x ∈ t.ids, (q.expr? x).map ExprNode.unlinked = (p.expr? x).map ExprNode.unlinked) :
    q.locationKey t.root = p.locationKey t.root := by
  have hv : ∀ y ∈ t.ids, (q.node y).kind = (p.node y).kind ∧ (q.node y).idx = (p.node y).idx :=
    fun y hy => by
      have hn := node_unlinked_eq (h y hy)
      exact ⟨(congrArg ExprNode.kind hn :), (congrArg ExprNode.idx hn :)⟩
  exact ht.render_eq (ht.of_unlinked h) hv false

/-- A tree kept up to the chains names the same place and subscript at its root. -/
theorem Holds.keyOf_eq {t : ExprShape} (ht : p.Holds t)
    (h : ∀ x ∈ t.ids, (q.expr? x).map ExprNode.unlinked = (p.expr? x).map ExprNode.unlinked) :
    q.keyOf t.root = p.keyOf t.root := by
  have hi : (q.node t.root).idx = (p.node t.root).idx :=
    (congrArg ExprNode.idx (node_unlinked_eq (h t.root t.root_mem_ids)) :)
  unfold Procedure.keyOf
  rw [ht.locationKey_eq h, hi]

/-- The walk lists expressions below the expressions of statements below its roots. -/
theorem rootExpr_of_mem_linkOrder {x : ExprId} (hx : x ∈ p.linkOrder) : p.RootExpr x := by
  obtain ⟨r, hr, hx⟩ := List.mem_flatMap.1 hx
  obtain ⟨s, hw, e, he, hx⟩ := mem_exprsIn_go hx
  exact ⟨s, ⟨r, hr, hw⟩, e, he, below_of_mem_preOrder_go hx⟩

/-- What the walk reads below an expression stays below it. -/
theorem RootExpr.below {e x : ExprId} (he : p.RootExpr e) (hx : p.Below e x) : p.RootExpr x := by
  obtain ⟨s, hs, e₀, he₀, hb⟩ := he
  exact ⟨s, hs, e₀, he₀, hb.trans hx⟩

/-- A statement listed by a container the walk reads hangs below a root. -/
theorem RootCntr.rooted {c : CntrId} (hc : p.RootCntr c) {s : StmtId}
    (hs : s ∈ (p.cntrNode c).stmts) : p.Rooted s := by
  rcases hc with hc | ⟨t, ⟨r, hr, ht⟩, hb⟩
  · exact ⟨c, hc, .listed hs⟩
  · exact ⟨r, hr, .nested ht hb hs⟩

/-! ### Procedures that read alike -/

namespace ReadsAlike

variable (h : p.ReadsAlike q)
include h

theorem cntrNode {c : CntrId} (hc : p.RootCntr c) : q.cntrNode c = p.cntrNode c := by
  rw [Procedure.cntrNode, Procedure.cntrNode, h.cntr c hc]

theorem stmtNode {s : StmtId} (hs : p.Rooted s) : q.stmtNode s = p.stmtNode s := by
  rw [Procedure.stmtNode, Procedure.stmtNode, h.stmt s hs]

theorem node {x : ExprId} (hx : p.RootExpr x) : (q.node x).unlinked = (p.node x).unlinked :=
  node_unlinked_eq (h.expr x hx)

/-- Below a root, `q` hangs the statements `p` hangs. -/
theorem within {c : CntrId} (hc : c ∈ p.linkRoots) {s : StmtId} : q.Within c s ↔ p.Within c s := by
  constructor
  · intro hw
    induction hw with
    | listed hs => exact .listed (h.cntrNode (.inl hc) ▸ hs)
    | nested _ hb hs ih =>
      have ht : p.Rooted _ := ⟨c, hc, ih⟩
      rw [h.stmtNode ht] at hb
      exact .nested ih hb (h.cntrNode (.inr ⟨_, ht, hb⟩) ▸ hs)
  · intro hw
    induction hw with
    | listed hs => exact .listed ((h.cntrNode (.inl hc)).symm ▸ hs)
    | nested hw hb hs ih =>
      have ht : p.Rooted _ := ⟨c, hc, hw⟩
      refine .nested ih ((h.stmtNode ht).symm ▸ hb) ?_
      exact (h.cntrNode (.inr ⟨_, ht, hb⟩)).symm ▸ hs

theorem rooted {s : StmtId} : q.Rooted s ↔ p.Rooted s := by
  unfold Rooted
  rw [h.roots]
  exact exists_congr fun c => and_congr_right fun hc => h.within hc

theorem rootCntr {c : CntrId} : q.RootCntr c ↔ p.RootCntr c := by
  unfold RootCntr
  rw [h.roots]
  refine or_congr Iff.rfl (exists_congr fun s => ?_)
  constructor
  · rintro ⟨hs, hc⟩
    have hs' := h.rooted.1 hs
    exact ⟨hs', h.stmtNode hs' ▸ hc⟩
  · rintro ⟨hs, hc⟩
    exact ⟨h.rooted.2 hs, (h.stmtNode hs).symm ▸ hc⟩

/-- Below an expression the walk may read, `q` has the expressions `p` has. -/
theorem below {e : ExprId} (he : p.RootExpr e) {x : ExprId} : q.Below e x ↔ p.Below e x := by
  have hops : ∀ {w}, p.Below e w → (q.node w).operands = (p.node w).operands := fun hw =>
    (congrArg ExprNode.operands (h.node (he.below hw)) :)
  constructor
  · intro hb
    induction hb with
    | refl => exact .refl
    | operand _ ho ih => exact .operand ih (hops ih ▸ ho)
  · intro hb
    induction hb with
    | refl => exact .refl
    | operand hw ho ih => exact .operand ih ((hops hw).symm ▸ ho)

theorem rootExpr {x : ExprId} : q.RootExpr x ↔ p.RootExpr x := by
  unfold RootExpr
  constructor
  · rintro ⟨s, hs, e, he, hb⟩
    have hs' := h.rooted.1 hs
    rw [h.stmtNode hs'] at he
    exact ⟨s, hs', e, he, (h.below ⟨s, hs', e, he, .refl⟩).1 hb⟩
  · rintro ⟨s, hs, e, he, hb⟩
    refine ⟨s, h.rooted.2 hs, e, (h.stmtNode hs).symm ▸ he, ?_⟩
    exact (h.below ⟨s, hs, e, he, .refl⟩).2 hb

/-- A tree held below a statement the walk reads is held in `q` too. -/
theorem holds {t : ExprShape} (ht : p.Holds t) (hr : p.RootExpr t.root) : q.Holds t :=
  ht.of_unlinked fun x hx => h.expr x (hr.below (ht.spans.below_of_mem hx))

/-- The walks of `q` and `p` agree. -/
theorem linkOrder (hl : p.Linkable) : q.linkOrder = p.linkOrder := by
  unfold Procedure.linkOrder exprsIn
  rw [h.roots]
  refine List.flatMap_congr fun c hc => ?_
  rw [nestingBound, nestingBound, h.nesting]
  refine exprsIn_go_congr (C := p.RootCntr) (fun c hc => by rw [h.cntrNode hc])
    (fun c hc s hs => ?_) _ c (.inl hc)
  have hr := hc.rooted hs
  refine ⟨by rw [h.stmtNode hr], by rw [h.stmtNode hr], fun b hb => .inr ⟨s, hr, hb⟩,
    fun e he => ?_⟩
  obtain ⟨t, ht, rfl⟩ := hl.trees s hr e he
  rw [(h.holds ht ⟨s, hr, _, he, .refl⟩).preOrder, ht.preOrder]

/-- A site the walk may read names the same place and subscript in `q` as in `p`. -/
theorem keyOf (hl : p.Linkable) {x : ExprId} (hx : p.RootExpr x) : q.keyOf x = p.keyOf x := by
  obtain ⟨s, hs, e, he, hb⟩ := hx
  obtain ⟨t, ht, rfl⟩ := hl.trees s hs e he
  obtain ⟨u, hu, rfl⟩ := List.mem_map.1 (ht.mem_of_below hb)
  have hpu := ht.sub hu
  have hru : p.RootExpr u.root := ⟨s, hs, _, he, hb⟩
  exact hpu.keyOf_eq fun y hy => h.expr y (hru.below (hpu.spans.below_of_mem hy))

theorem flags {x : ExprId} (hx : x ∈ p.linkOrder) :
    (q.node x).isDef = (p.node x).isDef ∧ (q.node x).isSite = (p.node x).isSite := by
  have hn := h.node (rootExpr_of_mem_linkOrder hx)
  exact ⟨(congrArg ExprNode.isDef hn :), ExprNode.isSite_eq_of_unlinked hn⟩

theorem siteDefs (hl : p.Linkable) : q.siteDefs = p.siteDefs := by
  unfold Procedure.siteDefs
  rw [h.linkOrder hl]
  exact List.filter_congr fun x hx => by rw [(h.flags hx).1, (h.flags hx).2]

theorem siteReads (hl : p.Linkable) : q.siteReads = p.siteReads := by
  unfold Procedure.siteReads
  rw [h.linkOrder hl]
  exact List.filter_congr fun x hx => by rw [(h.flags hx).1, (h.flags hx).2]

theorem lastDef (hl : p.Linkable) (k : String × Nat) : q.lastDef k = p.lastDef k := by
  unfold Procedure.lastDef
  rw [h.siteDefs hl, List.filter_congr fun d hd => by
    rw [h.keyOf hl (rootExpr_of_mem_linkOrder (List.mem_of_mem_filter hd))]]

theorem undefinedKeys (hl : p.Linkable) : q.undefinedKeys = p.undefinedKeys := by
  unfold Procedure.undefinedKeys
  have hk : p.siteReads.filterMap q.keyOf = p.siteReads.filterMap p.keyOf :=
    List.filterMap_congr fun u hu =>
      h.keyOf hl (rootExpr_of_mem_linkOrder (List.mem_of_mem_filter hu))
  rw [h.siteReads hl, hk]
  simp only [h.lastDef hl]

theorem defOf (hl : p.Linkable) (weak : String × Nat → ExprId) {u : ExprId}
    (hu : u ∈ p.linkOrder) : q.defOf weak u = p.defOf weak u := by
  unfold Procedure.defOf
  rw [h.keyOf hl (rootExpr_of_mem_linkOrder hu)]
  simp only [h.lastDef hl]

end ReadsAlike

theorem ReadsAlike.refl (p : Procedure) : p.ReadsAlike p :=
  ⟨rfl, fun _ _ => rfl, fun _ _ => rfl, fun _ _ => rfl, le_rfl, rfl⟩

theorem ReadsAlike.trans (h : p.ReadsAlike q) (h' : q.ReadsAlike r) : p.ReadsAlike r where
  roots := h'.roots.trans h.roots
  cntr c hc := (h'.cntr c (h.rootCntr.2 hc)).trans (h.cntr c hc)
  stmt s hs := (h'.stmt s (h.rooted.2 hs)).trans (h.stmt s hs)
  expr x hx := (h'.expr x (h.rootExpr.2 hx)).trans (h.expr x hx)
  size := h.size.trans h'.size
  nesting := h'.nesting.trans h.nesting

/-- A rebuild of a procedure that reads like `p` is one of `p`, once the statements of `p`'s
    container of implicit definitions are gone too. -/
theorem ChainsRebuilt.of_readsAlike {weak : String × Nat → ExprId} {n : Nat} {p' : Procedure}
    (hl : p.Linkable) (h : p.ReadsAlike q) (hc : q.ChainsRebuilt weak n p')
    (hstale : ∀ s ∈ (p.cntrNode uninitContainer).stmts, p'.stmt? s = none) :
    p.ChainsRebuilt weak n p' where
  keys x hx hs := by
    have := hc.keys x (h.linkOrder hl ▸ hx) ((h.flags hx).2 ▸ hs)
    rwa [h.keyOf hl (rootExpr_of_mem_linkOrder hx)] at this
  links u := by
    rw [hc.links u, h.siteReads hl]
    split_ifs with hu
    · rw [h.defOf hl weak (List.mem_of_mem_filter hu)]
    · rfl
  uses d := by
    rw [hc.uses d, h.siteReads hl]
    exact List.filter_congr fun u hu => by rw [h.defOf hl weak (List.mem_of_mem_filter hu)]
  count := by rw [hc.count, h.siteReads hl]
  registered d := by rw [hc.registered d, h.siteDefs hl, h.undefinedKeys hl]
  implicit k hk := by
    obtain ⟨hsize, hrest⟩ := hc.implicit k (h.undefinedKeys hl ▸ hk)
    exact ⟨h.size.trans hsize, hrest⟩
  uninit := h.undefinedKeys hl ▸ hc.uninit
  stale := hstale

end Procedure

end Decompilation
