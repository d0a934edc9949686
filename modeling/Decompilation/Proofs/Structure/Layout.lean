import Mathlib
import Decompilation.Proofs.Optimize.Chains
import Decompilation.Proofs.Structure.Listing
import Decompilation.Proofs.Structure.Regions

/-!
# Steps that keep the layout

Before it builds loops, structuring links each block's container to the one that follows and
records each block's class: the block after it and, for an unresolved jump, a mark on the
jump. None of this touches what the nesting and the listing read, the layout: the live
statements up to their marks, the live containers up to their fall-through links, the
expressions, and the addresses and containers of the blocks, in order.

* `Stmt.unmark`, `Container.unlink`, `Block.unlink`: a node less what these steps change;
* `Procedure.SameLayout`: two procedures with one layout;
* `SameLayout.wellFormed`, `SameLayout.listing`: the invariants and the listing are those of
  the layout;
* `Procedure.Relinked`, `Relinked.loopRegions`: linking containers changes no plan, so no loop;
* `linkFallthroughs_relinked`, `applyPlan_sameLayout`: the two steps.
-/

namespace Decompilation

/-- A statement less its mark as an unresolved jump. -/
def Stmt.unmark (st : Stmt) : Stmt := { st with unresolved := false }

/-- A container less its fall-through link. -/
def Container.unlink (ct : Container) : Container := { ct with fallthrough := none }

/-- A block less the block that follows it and its mark. -/
def Block.unlink (b : Block) : Block := { b with next := none, unresolved := false }

theorem Stmt.eq_of_unmark {st st' : Stmt} (h : st'.unmark = st.unmark) :
    st'.kind = st.kind ∧ st'.parent = st.parent ∧ st'.exprs = st.exprs ∧
      st'.children = st.children := by
  simp only [Stmt.unmark, Stmt.mk.injEq] at h
  obtain ⟨hk, -, hpar, hex, hb, -⟩ := h
  exact ⟨hk, hpar, hex, by rw [Stmt.children, Stmt.children, hb]⟩

theorem Container.eq_of_unlink {ct ct' : Container} (h : ct'.unlink = ct.unlink) :
    ct'.parent = ct.parent ∧ ct'.stmts = ct.stmts := by
  simp only [Container.unlink, Container.mk.injEq] at h
  exact ⟨h.2.1, h.2.2.2⟩

theorem Block.eq_of_unlink {b b' : Block} (h : b'.unlink = b.unlink) :
    b'.address = b.address ∧ b'.container = b.container := by
  simp only [Block.unlink, Block.mk.injEq] at h
  exact ⟨h.1, h.2.1⟩

namespace Procedure

/-- `q` has the layout of `p`: the same live statements up to their marks, the same live
    containers up to their links, the same expressions, and the same blocks up to the block
    following each and its mark. -/
structure SameLayout (p q : Procedure) : Prop where
  stmt : ∀ s, (q.stmt? s).map Stmt.unmark = (p.stmt? s).map Stmt.unmark
  cntr : ∀ c, (q.cntr? c).map Container.unlink = (p.cntr? c).map Container.unlink
  expr : ∀ e, q.expr? e = p.expr? e
  blocks : q.blocks.map Block.unlink = p.blocks.map Block.unlink
  entry : q.entry = p.entry

namespace SameLayout

variable {p q q' : Procedure}

theorem refl (p : Procedure) : p.SameLayout p :=
  ⟨fun _ => rfl, fun _ => rfl, fun _ => rfl, rfl, rfl⟩

theorem symm (h : p.SameLayout q) : q.SameLayout p :=
  ⟨fun s => (h.stmt s).symm, fun c => (h.cntr c).symm, fun e => (h.expr e).symm, h.blocks.symm,
    h.entry.symm⟩

theorem trans (h : p.SameLayout q) (h' : q.SameLayout q') : p.SameLayout q' :=
  ⟨fun s => (h'.stmt s).trans (h.stmt s), fun c => (h'.cntr c).trans (h.cntr c),
    fun e => (h'.expr e).trans (h.expr e), h'.blocks.trans h.blocks, h'.entry.trans h.entry⟩

variable (h : p.SameLayout q)
include h

/-! ### Reading the layout -/

theorem stmt?_eq_some {s : StmtId} {st' : Stmt} (hs : q.stmt? s = some st') :
    ∃ st, p.stmt? s = some st ∧ st'.unmark = st.unmark := by
  have := h.stmt s
  rw [hs, Option.map_some] at this
  obtain ⟨st, hst, heq⟩ := Option.map_eq_some_iff.1 this.symm
  exact ⟨st, hst, heq.symm⟩

theorem cntr?_eq_some {c : CntrId} {ct' : Container} (hc : q.cntr? c = some ct') :
    ∃ ct, p.cntr? c = some ct ∧ ct'.unlink = ct.unlink := by
  have := h.cntr c
  rw [hc, Option.map_some] at this
  obtain ⟨ct, hct, heq⟩ := Option.map_eq_some_iff.1 this.symm
  exact ⟨ct, hct, heq.symm⟩

theorem stmtNode_unmark (s : StmtId) : (q.stmtNode s).unmark = (p.stmtNode s).unmark := by
  have := congrArg (·.getD (default : Stmt).unmark) (h.stmt s)
  simp only [Option.getD_map] at this
  exact this

theorem cntrNode_stmts (c : CntrId) : (q.cntrNode c).stmts = (p.cntrNode c).stmts := by
  have := congrArg (·.getD (default : Container).unlink) (h.cntr c)
  simp only [Option.getD_map] at this
  exact (Container.eq_of_unlink this).2

theorem kind (s : StmtId) : (q.stmtNode s).kind = (p.stmtNode s).kind :=
  (Stmt.eq_of_unmark (h.stmtNode_unmark s)).1

theorem children (s : StmtId) : (q.stmtNode s).children = (p.stmtNode s).children :=
  (Stmt.eq_of_unmark (h.stmtNode_unmark s)).2.2.2

theorem bodyStmts (s : StmtId) : q.bodyStmts s = p.bodyStmts s := by
  rw [Procedure.bodyStmts, Procedure.bodyStmts, h.children]
  exact List.flatMap_congr fun c _ => h.cntrNode_stmts c

theorem map_blocks {β : Type} (f : Block → β) (hf : ∀ b, f b.unlink = f b) :
    q.blocks.map f = p.blocks.map f := by
  have := congrArg (List.map f) h.blocks
  simpa only [List.map_map, Function.comp_def, hf] using this

theorem mem_blocks {b : Block} (hb : b ∈ q.blocks) :
    ∃ b' ∈ p.blocks, b'.address = b.address ∧ b'.container = b.container := by
  have : b.unlink ∈ p.blocks.map Block.unlink := h.blocks ▸ List.mem_map_of_mem hb
  obtain ⟨b', hb', heq⟩ := List.mem_map.1 this
  exact ⟨b', hb', Block.eq_of_unlink heq⟩

theorem blockStmts : q.blockStmts = p.blockStmts := by
  calc q.blockStmts = (q.blocks.map Block.container).flatMap fun c => (q.cntrNode c).stmts := by
        rw [List.flatMap_map]
        rfl
    _ = (p.blocks.map Block.container).flatMap fun c => (p.cntrNode c).stmts := by
        rw [h.map_blocks Block.container fun _ => rfl]
        exact List.flatMap_congr fun c _ => h.cntrNode_stmts c
    _ = p.blockStmts := by
        rw [List.flatMap_map]
        rfl

/-! ### What the layout decides -/

/-- A listing reads the layout only. -/
theorem flat {ss l : List StmtId} (hl : p.Flat ss l) : q.Flat ss l :=
  hl.frame fun s _ => ⟨h.kind s, h.bodyStmts s⟩

theorem listing {l : List StmtId} (hl : p.Listing l) : q.Listing l := by
  rw [Listing, h.blockStmts]
  exact h.flat hl

/-- The invariants of the arena read the layout only. -/
theorem wellFormed (hp : p.WellFormed) : q.WellFormed := by
  have h' := h.symm
  refine ⟨?listed, ?once, ?owned, ?owner, ?exprs, ?slots, ?operands, ?jumps, ?ranked, ?sorted,
    ?roots, ?distinct, ?entry⟩
  case listed =>
    intro c ct' s hc hs
    obtain ⟨ct, hct, hce⟩ := h.cntr?_eq_some hc
    obtain ⟨st, hst, hpar⟩ := hp.listed hct ((Container.eq_of_unlink hce).2 ▸ hs)
    obtain ⟨st', hst', hse⟩ := h'.stmt?_eq_some hst
    exact ⟨st', hst', (Stmt.eq_of_unmark hse.symm).2.1.trans hpar⟩
  case once =>
    intro s st' c hs hpar
    obtain ⟨st, hst, hse⟩ := h.stmt?_eq_some hs
    obtain ⟨ct, hct, hcount⟩ := hp.once hst ((Stmt.eq_of_unmark hse).2.1.symm.trans hpar)
    obtain ⟨ct', hct', hce⟩ := h'.cntr?_eq_some hct
    exact ⟨ct', hct', (Container.eq_of_unlink hce.symm).2 ▸ hcount⟩
  case owned =>
    intro s st' c hs hc
    obtain ⟨st, hst, hse⟩ := h.stmt?_eq_some hs
    obtain ⟨ct, hct, hpar⟩ := hp.owned hst ((Stmt.eq_of_unmark hse).2.2.2 ▸ hc)
    obtain ⟨ct', hct', hce⟩ := h'.cntr?_eq_some hct
    exact ⟨ct', hct', (Container.eq_of_unlink hce.symm).1.trans hpar⟩
  case owner =>
    intro c ct' s hc hpar
    obtain ⟨ct, hct, hce⟩ := h.cntr?_eq_some hc
    obtain ⟨st, hst, hcount⟩ := hp.owner hct ((Container.eq_of_unlink hce).1.symm.trans hpar)
    obtain ⟨st', hst', hse⟩ := h'.stmt?_eq_some hst
    exact ⟨st', hst', (Stmt.eq_of_unmark hse.symm).2.2.2 ▸ hcount⟩
  case exprs =>
    intro s st' e hs he
    obtain ⟨st, hst, hse⟩ := h.stmt?_eq_some hs
    obtain ⟨x, hx, hpar⟩ := hp.exprs hst ((Stmt.eq_of_unmark hse).2.2.1 ▸ he)
    exact ⟨x, (h.expr e).trans hx, hpar⟩
  case slots =>
    intro s st' hs
    obtain ⟨st, hst, hse⟩ := h.stmt?_eq_some hs
    exact (Stmt.eq_of_unmark hse).2.2.1 ▸ hp.slots hst
  case operands =>
    intro e x o he ho
    obtain ⟨y, hy, hpar⟩ := hp.operands ((h.expr e).symm.trans he) ho
    exact ⟨y, (h.expr o).trans hy, hpar⟩
  case jumps =>
    intro s st' hs hj
    obtain ⟨st, hst, hse⟩ := h.stmt?_eq_some hs
    obtain ⟨hk, -, -, hch⟩ := Stmt.eq_of_unmark hse
    exact hch ▸ hp.jumps hst (hk ▸ hj)
  case ranked =>
    obtain ⟨rank, hr⟩ := hp.ranked
    exact ⟨rank, fun hb hs => hr (h.children _ ▸ hb) (h.cntrNode_stmts _ ▸ hs)⟩
  case sorted =>
    have hs : (p.blocks.map Block.address).Pairwise (· < ·) := List.pairwise_map.2 hp.sorted
    rw [← h.map_blocks Block.address fun _ => rfl] at hs
    exact List.pairwise_map.1 hs
  case roots =>
    intro b hb
    obtain ⟨b', hb', -, hcb⟩ := h.mem_blocks hb
    obtain ⟨ct, hct, hpar⟩ := hp.roots b' hb'
    obtain ⟨ct', hct', hce⟩ := h'.cntr?_eq_some hct
    exact ⟨ct', hcb ▸ hct', (Container.eq_of_unlink hce.symm).1.trans hpar⟩
  case distinct =>
    rw [h.map_blocks Block.container fun _ => rfl]
    exact hp.distinct
  case entry =>
    intro hne
    have hlen := congrArg List.length h.blocks
    simp only [List.length_map] at hlen
    obtain ⟨b, hb, hentry⟩ := hp.entry fun hnil => hne (List.eq_nil_of_length_eq_zero
      (by rw [hlen, hnil, List.length_nil]))
    obtain ⟨b', hb', haddr, -⟩ := h'.mem_blocks hb
    exact ⟨b', hb', h.entry.trans (haddr ▸ hentry)⟩

end SameLayout

/-! ### Editing what the layout leaves out -/

variable (p : Procedure)

theorem sameLayout_modifyBlock (address : UInt64) (next : Option UInt64) (u : Bool) :
    p.SameLayout (p.modifyBlock address fun b => { b with next, unresolved := u }) := by
  refine ⟨fun _ => rfl, fun _ => rfl, fun _ => rfl, ?_, rfl⟩
  simp only [modifyBlock, List.map_map]
  refine List.map_congr_left fun b _ => ?_
  simp only [Function.comp_apply]
  split <;> rfl

theorem sameLayout_markUnresolved (j : StmtId) :
    p.SameLayout (p.modifyStmt j fun x => { x with unresolved := true }) := by
  refine ⟨fun s => ?_, fun _ => rfl, fun _ => rfl, rfl, rfl⟩
  rw [stmt?_modifyStmt]
  split
  · rw [Option.map_map]
    rfl
  · rfl

/-- `q` is `p` with other fall-through links between containers. -/
structure Relinked (q : Procedure) : Prop where
  stmts : q.stmts = p.stmts
  exprs : q.exprs = p.exprs
  cntr : ∀ c, (q.cntr? c).map Container.unlink = (p.cntr? c).map Container.unlink
  blocks : q.blocks = p.blocks
  entry : q.entry = p.entry

namespace Relinked

variable {p} {q q' : Procedure}

theorem refl : p.Relinked p := ⟨rfl, rfl, fun _ => rfl, rfl, rfl⟩

theorem trans (h : p.Relinked q) (h' : q.Relinked q') : p.Relinked q' :=
  ⟨h'.stmts.trans h.stmts, h'.exprs.trans h.exprs, fun c => (h'.cntr c).trans (h.cntr c),
    h'.blocks.trans h.blocks, h'.entry.trans h.entry⟩

theorem setFallthrough (c : CntrId) (next : Option CntrId) :
    p.Relinked (p.modifyCntr c fun x => { x with fallthrough := next }) := by
  refine ⟨rfl, rfl, fun d => ?_, rfl, rfl⟩
  rw [cntr?_modifyCntr]
  split
  · rw [Option.map_map]
    rfl
  · rfl

variable (h : p.Relinked q)
include h

theorem sameLayout : p.SameLayout q :=
  ⟨fun s => by simp only [stmt?, h.stmts], h.cntr, fun e => by simp only [expr?, h.exprs],
    by rw [h.blocks], h.entry⟩

/-! The plans read the statements, the expressions, the lists of the containers and the
    blocks, none of which relinking changes. -/

theorem stmtNode_eq (s : StmtId) : q.stmtNode s = p.stmtNode s := by
  simp only [stmtNode, stmt?, h.stmts]

theorem node_eq (e : ExprId) : q.node e = p.node e := by
  simp only [node, expr?, h.exprs]

theorem closingJump_eq (c : CntrId) : q.closingJump c = p.closingJump c := by
  simp only [closingJump, terminator, h.sameLayout.cntrNode_stmts, h.stmtNode_eq]

theorem jumpTarget_eq (j : StmtId) : q.jumpTarget j = p.jumpTarget j := by
  simp only [jumpTarget, h.stmtNode_eq, h.node_eq]

theorem hasBlock_eq : q.hasBlock = p.hasBlock := by
  funext a
  simp only [hasBlock, block?, h.blocks]

theorem loopTest_eq (origin target : UInt64) :
    q.loopTest origin target = p.loopTest origin target := by
  simp only [loopTest, block?, h.blocks, h.closingJump_eq, h.jumpTarget_eq, h.hasBlock_eq]

theorem plans_eq : q.plans = p.plans := by
  have hc : q.classifyBlock = p.classifyBlock := by
    funext acc b
    simp only [classifyBlock, h.closingJump_eq, h.jumpTarget_eq, h.hasBlock_eq, h.stmtNode_eq,
      h.loopTest_eq]
  simp only [plans, h.blocks, hc]

theorem loopRegions : q.loopRegions = p.loopRegions := by
  rw [Procedure.loopRegions, Procedure.loopRegions, h.plans_eq]

end Relinked

end Procedure

open Procedure Work

/-- Linking the containers changes nothing but their links. -/
theorem linkFallthroughs_relinked (p : Procedure) :
    Runs linkFallthroughs p (fun _ q => p.Relinked q) (fun _ => False) := by
  unfold linkFallthroughs
  refine runs_get_bind (runs_bind (runs_forIn_inv (fun _ q => p.Relinked q) .refl
    fun b _ _ q hq => ?_) fun _ _ h' => runs_pure _ h')
  exact runs_bind (runs_modify (hq.trans (.setFallthrough _ _))) fun _ _ h' => runs_pure _ h'

/-- Recording a block's class changes nothing of the layout, and never fails. -/
theorem applyPlan_sameLayout (s : Session) (address : UInt64) (plan : Plan) :
    Runs (applyPlan address plan) s (fun _ s' => s.proc.SameLayout s'.proc) (fun _ => False) := by
  unfold applyPlan
  refine current_bind ?_
  -- the class decides the block that follows, and whether the jump is marked
  cases plan.shape <;> simp only [pure_bind]
  case branch =>
    exact record_bind _ (runs_modify_bind (runs_pure _ (sameLayout_modifyBlock _ _ _ _)))
  case unresolved =>
    refine record_bind _ ?_
    split
    · exact runs_modify_bind (runs_modify_bind (runs_pure _
        ((sameLayout_markUnresolved _ _).trans (sameLayout_modifyBlock _ _ _ _))))
    · exact runs_modify_bind (runs_pure _ (sameLayout_modifyBlock _ _ _ _))
  all_goals exact runs_modify_bind (runs_pure _ (sameLayout_modifyBlock _ _ _ _))

end Decompilation
