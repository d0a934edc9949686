import Mathlib
import Decompilation.Proofs.Structure.Layout
import Decompilation.Proofs.Graph.Built

/-!
# Structuring keeps the control flow

The control flow graph of a procedure is built from its blocks, their addresses and
successors, and its entry. Structuring reads that graph but never changes it: the edits that
build loops move statements and expressions, linking records the containers' successors, and
planning records in each block only the block that follows it.

* `Procedure.SameFlow`: two procedures with the same blocks, up to what structuring records
  in them, and the same entry;
* `Procedure.FlowKept`, `Procedure.KeepsFlow`: an edit that ends, whatever its outcome, with
  the control flow it started with, and the lemmas that follow an edit's `do` block with it;
* `Procedure.buildLoop_keepsFlow`: building a loop keeps the flow;
* `Procedure.cfg_eq_of_sameFlow`, `Procedure.cfg_built`: the same flow gives the same graph,
  and the graph is one the edits of graphs build.
-/

namespace Decompilation

namespace Procedure

/-- `q` has the blocks of `p`, up to the block that follows each and the mark of an unresolved
    jump, and the entry of `p`. -/
structure SameFlow (p q : Procedure) : Prop where
  blocks : q.blocks.map Block.unlink = p.blocks.map Block.unlink
  entry : q.entry = p.entry

namespace SameFlow

variable {p q r : Procedure}

theorem refl (p : Procedure) : p.SameFlow p := ⟨rfl, rfl⟩

theorem symm (h : p.SameFlow q) : q.SameFlow p := ⟨h.blocks.symm, h.entry.symm⟩

theorem trans (h : p.SameFlow q) (h' : q.SameFlow r) : p.SameFlow r :=
  ⟨h'.blocks.trans h.blocks, h'.entry.trans h.entry⟩

/-- An edit of the statements, expressions or containers alone keeps the flow. -/
theorem of_eq (hb : q.blocks = p.blocks) (he : q.entry = p.entry) : p.SameFlow q :=
  ⟨by rw [hb], he⟩

/-- So does a run of such edits. -/
theorem foldl {α : Type} {F : Procedure → α → Procedure}
    (hF : ∀ (q : Procedure) a, q.SameFlow (F q a)) (h : p.SameFlow q) (l : List α) :
    p.SameFlow (l.foldl F q) := by
  induction l generalizing q with
  | nil => exact h
  | cons a l ih => exact ih (h.trans (hF q a))

end SameFlow

theorem SameLayout.sameFlow {p q : Procedure} (h : p.SameLayout q) : p.SameFlow q :=
  ⟨h.blocks, h.entry⟩

theorem Relinked.sameFlow {p q : Procedure} (h : p.Relinked q) : p.SameFlow q :=
  .of_eq h.blocks h.entry

theorem sameFlow_modifyExpr (p : Procedure) (e : ExprId) (f : ExprNode → ExprNode) :
    p.SameFlow (p.modifyExpr e f) := .of_eq rfl rfl

theorem sameFlow_modifyStmt (p : Procedure) (s : StmtId) (f : Stmt → Stmt) :
    p.SameFlow (p.modifyStmt s f) := .of_eq rfl rfl

theorem sameFlow_modifyCntr (p : Procedure) (c : CntrId) (f : Container → Container) :
    p.SameFlow (p.modifyCntr c f) := .of_eq rfl rfl

theorem sameFlow_dropExpr (p : Procedure) (n : ExprId) : p.SameFlow (p.dropExpr n) := by
  unfold dropExpr
  split
  · exact .refl p
  · -- the slot is emptied, the definition loses the reader, the readers lose the definition
    dsimp only
    split
    · split
      · refine SameFlow.foldl (fun q u => sameFlow_modifyExpr q u _) ?_ _
        exact .of_eq rfl rfl
      · refine SameFlow.foldl (fun q u => sameFlow_modifyExpr q u _) ?_ _
        exact .of_eq rfl rfl
    · split
      · exact .of_eq rfl rfl
      · exact .of_eq rfl rfl

/-! ### Edits that keep the flow -/

/-- Run from `p`, the edit ends with the flow of `p`, whatever it answers, and also when it
    fails. -/
def FlowKept {α : Type} (m : Edit α) (p : Procedure) : Prop :=
  Runs m p (fun _ q => p.SameFlow q) (fun q => p.SameFlow q)

/-- An edit keeps the flow of every procedure it runs on. -/
def KeepsFlow {α : Type} (m : Edit α) : Prop := ∀ p, FlowKept m p

namespace FlowKept

variable {α β : Type} {p : Procedure}

theorem pure (a : α) : FlowKept (Pure.pure a : Edit α) p := runs_pure a (.refl p)

theorem throw (e : Error) : FlowKept (MonadExcept.throw e : Edit α) p := runs_throw e (.refl p)

theorem bind {x : Edit α} {f : α → Edit β} (hx : FlowKept x p)
    (hf : ∀ a q, p.SameFlow q → FlowKept (f a) q) : FlowKept (x >>= f) p :=
  runs_bind hx fun a q hq =>
    runs_mono (hf a q hq) (fun _ _ h => hq.trans h) fun _ h => hq.trans h

theorem get_bind {f : Procedure → Edit α} (hf : FlowKept (f p) p) :
    FlowKept (MonadState.get >>= f) p := runs_get_bind hf

theorem set {q : Procedure} (h : p.SameFlow q) : FlowKept (MonadState.set q : Edit PUnit) p :=
  runs_set h

theorem modify {f : Procedure → Procedure} (h : p.SameFlow (f p)) :
    FlowKept (modify f : Edit PUnit) p := runs_modify h

theorem modifyGet {f : Procedure → α × Procedure} (h : p.SameFlow (f p).2) :
    FlowKept (MonadState.modifyGet f : Edit α) p := runs_modifyGet h

theorem ite {c : Prop} [Decidable c] {a b : Edit α} (ha : c → FlowKept a p)
    (hb : ¬c → FlowKept b p) : FlowKept (if c then a else b) p := runs_ite ha hb

theorem tryCatch {x : Edit α} {h : Error → Edit α} (hx : FlowKept x p)
    (hh : ∀ e q, p.SameFlow q → FlowKept (h e) q) :
    FlowKept (MonadExcept.tryCatch x h) p :=
  runs_tryCatch hx fun e q hq =>
    runs_mono (hh e q hq) (fun _ _ h => hq.trans h) fun _ h => hq.trans h

theorem forIn {l : List α} {b : β} {f : α → β → Edit (ForInStep β)}
    (hf : ∀ a ∈ l, ∀ b q, p.SameFlow q → FlowKept (f a b) q) :
    FlowKept (ForIn.forIn l b f) p :=
  runs_forIn_inv (fun _ q => p.SameFlow q) (.refl p) fun a ha b q hq =>
    runs_mono (hf a ha b q hq) (fun _ _ h => hq.trans h) fun _ h => hq.trans h

end FlowKept

/-! ### The edits of structuring -/

theorem allocExpr_keepsFlow (n : ExprNode) : KeepsFlow (allocExpr n) := fun p =>
  .modifyGet ((SameFlow.foldl (fun q o => sameFlow_modifyExpr q o _) (.refl p) _).trans
    (.of_eq rfl rfl))

theorem allocStmt_keepsFlow (kind : StmtKind) (address : UInt64) (exprs : List ExprId)
    (bodies : List (Option CntrId)) : KeepsFlow (allocStmt kind address exprs bodies) := fun p =>
  .modifyGet ((SameFlow.foldl (fun q c => sameFlow_modifyCntr q c _)
    (SameFlow.foldl (fun q e => sameFlow_modifyExpr q e _) (.refl p) _) _).trans (.of_eq rfl rfl))

theorem newContainer_keepsFlow (address : UInt64) : KeepsFlow (newContainer address) := fun _ =>
  .modifyGet (.of_eq rfl rfl)

theorem stmtSlot_keepsFlow (c : CntrId) (s : StmtId) : KeepsFlow (stmtSlot c s) := fun p => by
  unfold stmtSlot
  refine .get_bind ?_
  split
  · exact .pure _
  · exact .throw _

theorem pushStmt_keepsFlow (c : CntrId) (s : StmtId) : KeepsFlow (pushStmt c s) := fun p => by
  unfold pushStmt
  refine .get_bind (.ite (fun _ => .throw _) fun _ => .modify ?_)
  exact (sameFlow_modifyCntr p c _).trans (sameFlow_modifyStmt _ s _)

theorem pluckExpr_keepsFlow (e : ExprId) : KeepsFlow (pluckExpr e) := fun p => by
  unfold pluckExpr
  refine .get_bind ?_
  split
  · refine .bind (.set ?_) fun _ _ _ => .pure e
    refine SameFlow.trans ?_ (sameFlow_modifyExpr _ e _)
    split
    · exact sameFlow_modifyExpr p _ _
    · exact sameFlow_modifyStmt p _ _
  · exact .throw _

theorem discardExpr_keepsFlow (e : ExprId) : KeepsFlow (discardExpr e) := fun p => by
  unfold discardExpr
  refine .get_bind ?_
  split
  · exact .pure _
  · dsimp only
    -- a subtree still attached is plucked first, a failure to pluck set aside; then the nodes
    -- below it are emptied
    split
    · refine .bind (.tryCatch (.bind (pluckExpr_keepsFlow e p) fun _ _ _ => .pure _)
        fun _ _ _ => .pure _) fun _ q _ => .get_bind (.modify ?_)
      exact SameFlow.foldl sameFlow_dropExpr (.refl q) _
    · refine .get_bind (.modify ?_)
      exact SameFlow.foldl sameFlow_dropExpr (.refl p) _

theorem discardStmt_go_keepsFlow (n : Nat) : ∀ s, KeepsFlow (discardStmt.go n s) := by
  induction n with
  | zero => exact fun _ _ => .pure _
  | succ n ih =>
    intro s p
    rw [discardStmt.go]
    refine .get_bind ?_
    split
    · -- the statement's slot, its expressions, then its bodies' statements, one by one
      refine .bind (.modify (.of_eq rfl rfl)) fun _ q₁ _ => .bind (.forIn fun e _ _ q₂ _ => ?_)
        fun _ q₃ _ => .bind (.forIn fun c _ _ q₄ _ => ?_) fun _ _ _ => .pure _
      · exact .bind (.modify (sameFlow_modifyExpr q₂ e _)) fun _ q₅ _ =>
          .bind (discardExpr_keepsFlow e q₅) fun _ _ _ => .pure _
      · refine .get_bind ?_
        split
        · refine .bind (.modify (.of_eq rfl rfl)) fun _ _ _ => .bind (.forIn fun t _ _ q₅ _ => ?_)
            fun _ _ _ => .pure _
          exact .bind (.modify (sameFlow_modifyStmt q₅ t _)) fun _ q₆ _ =>
            .bind (ih t q₆) fun _ _ _ => .pure _
        · exact .pure _
    · exact .pure _

theorem discardStmt_keepsFlow (s : StmtId) : KeepsFlow (discardStmt s) := fun p =>
  .get_bind (discardStmt_go_keepsFlow _ s p)

theorem pluckStmt_keepsFlow (s : StmtId) (detach : Bool) : KeepsFlow (pluckStmt s detach) :=
  fun p => by
  unfold pluckStmt
  refine .get_bind ?_
  dsimp only
  -- once out of its container, the statement is deleted when asked
  have hdetach : ∀ q, FlowKept (if detach = true then discardStmt s else pure ()) q := fun q =>
    .ite (fun _ => discardStmt_keepsFlow s q) fun _ => .pure _
  split
  · refine .bind (stmtSlot_keepsFlow _ s p) fun pos q _ =>
      .bind (.modify ?_) fun _ q' _ => hdetach q'
    exact (sameFlow_modifyCntr q _ _).trans (sameFlow_modifyStmt _ s _)
  · exact hdetach p

theorem replaceStmt_keepsFlow (old new : StmtId) : KeepsFlow (replaceStmt old new) := fun p => by
  unfold replaceStmt
  refine .get_bind ?_
  dsimp only
  split
  · exact .throw _
  · split
    · refine .bind (stmtSlot_keepsFlow _ old p) fun pos q _ => .modify ?_
      exact ((sameFlow_modifyCntr q _ _).trans (sameFlow_modifyStmt _ new _)).trans
        (sameFlow_modifyStmt _ old _)
    · exact .throw _

/-- Building a loop moves statements into a new body and replaces the closing jump: the blocks
    and the entry stay as they were. -/
theorem buildLoop_keepsFlow (r : LoopRegion) : KeepsFlow (buildLoop r) := fun p => by
  unfold buildLoop
  refine .bind (newContainer_keepsFlow _ p) fun body q₁ _ => .get_bind ?_
  refine .bind (.forIn fun c _ _ q₂ _ => .get_bind (.bind (.forIn fun s _ _ q₃ _ => ?_)
    fun _ _ _ => .pure _)) fun _ q₄ _ => .get_bind ?_
  · refine .ite (fun _ => .bind (pluckStmt_keepsFlow s false q₃) fun _ q₅ _ =>
      .bind (pushStmt_keepsFlow _ s q₅) fun _ _ _ => .pure _) fun _ => .pure _
  -- the condition, then the loop in the place of the jump
  have hloop : ∀ cond q, FlowKept (if r.preTested = true
      then do replaceStmt r.jump (← whileStmt (q₄.stmtNode r.jump).address cond body)
              pluckStmt r.jump true
      else do replaceStmt r.jump (← doWhile (q₄.stmtNode r.jump).address cond body)
              pluckStmt r.jump true) q := by
    intro cond q
    have htail : ∀ loop q', FlowKept (do replaceStmt r.jump loop; pluckStmt r.jump true) q' :=
      fun loop q' => .bind (replaceStmt_keepsFlow _ loop q') fun _ q'' _ =>
        pluckStmt_keepsFlow _ true q''
    exact .ite (fun _ => .bind (allocStmt_keepsFlow _ _ _ _ q) fun loop q' _ => htail loop q')
      fun _ => .bind (allocStmt_keepsFlow _ _ _ _ q) fun loop q' _ => htail loop q'
  dsimp only
  split
  · exact .bind (pluckExpr_keepsFlow _ q₄) fun cond q _ => hloop cond q
  · exact .bind (allocExpr_keepsFlow _ q₄) fun cond q _ => hloop cond q

/-! ### The control flow graph -/

/-- The graph reads of each block only its address and its successors. -/
theorem cfg_eq_unlink (p : Procedure) :
    p.cfg = { p with blocks := p.blocks.map Block.unlink }.cfg := by
  unfold cfg
  simp only [List.forIn_map]
  rfl

/-- Procedures with the same flow have the same control flow graph. -/
theorem cfg_eq_of_sameFlow {p q : Procedure} (h : p.SameFlow q) {g : Digraph UInt64}
    (hg : p.cfg = .ok g) : q.cfg = .ok g := by
  rw [cfg_eq_unlink] at hg ⊢
  rw [h.blocks]
  unfold cfg at hg ⊢
  dsimp only at hg ⊢
  rw [h.entry]
  -- with an entry, the two graphs are built from the same list; without one, neither is
  cases he : p.entry with
  | none => simp [he] at hg
  | some e =>
    rw [he] at hg
    exact hg

/-- A loop in `Except` whose rounds keep `I` ends, when it succeeds, with `I`. -/
theorem forIn_ok_inv {ε α β : Type} {l : List α} {b b' : β} {f : α → β → Except ε (ForInStep β)}
    (I : β → Prop) (hb : I b) (hf : ∀ a ∈ l, ∀ b r, I b → f a b = .ok r → I r.value)
    (h : forIn l b f = .ok b') : I b' := by
  induction l generalizing b with
  | nil =>
    obtain rfl : b = b' := by simpa using h
    exact hb
  | cons a l ih =>
    rw [List.forIn_cons, bind_eq_ok] at h
    obtain ⟨r, hr, h⟩ := h
    have hr' := hf a List.mem_cons_self b r hb hr
    cases r with
    | done c =>
      obtain rfl : c = b' := by simpa using h
      exact hr'
    | yield c => exact ih hr' (fun a ha => hf a (List.mem_cons_of_mem _ ha)) h

/-- The control flow graph is built by the edits of graphs: its nodes, its edges, its root. -/
theorem cfg_built {p : Procedure} {g : Digraph UInt64} (hg : p.cfg = .ok g) : g.Built := by
  unfold cfg at hg
  split at hg
  · simp only [bind_eq_ok] at hg
    obtain ⟨g₁, h₁, g₂, h₂, ⟨i, g₃⟩, h₃, h₄⟩ := hg
    obtain rfl : g₃ = g := by simpa using h₄
    -- a node for every block, then the edges between blocks, then the root
    have hb₁ : g₁.Built := forIn_ok_inv Digraph.Built .empty (fun b _ g' r hg' hr => by
      simp only [bind_eq_ok] at hr
      obtain ⟨⟨j, g''⟩, hadd, hr⟩ := hr
      obtain rfl : r = .yield g'' := (pure_eq_ok.1 hr).symm
      exact hg'.addNode hadd) h₁
    have hb₂ : g₂.Built := forIn_ok_inv Digraph.Built hb₁ (fun b _ g' r hg' hr => by
      simp only [bind_eq_ok] at hr
      obtain ⟨g'', hin, hr⟩ := hr
      obtain rfl : r = .yield g'' := (pure_eq_ok.1 hr).symm
      refine forIn_ok_inv Digraph.Built hg' (fun t _ g''' r' hg''' hr' => ?_) hin
      split at hr'
      · simp only [bind_eq_ok] at hr'
        obtain ⟨g₄, hedge, hr'⟩ := hr'
        obtain rfl : r' = .yield g₄ := (pure_eq_ok.1 hr').symm
        exact hg'''.addEdge hedge
      · obtain rfl : r' = .yield g''' := (pure_eq_ok.1 hr').symm
        exact hg''') h₂
    exact hb₂.setRoot h₃
  · simp at hg

end Procedure

end Decompilation
