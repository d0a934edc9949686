import Decompilation.Proofs.DefUse.Edits

/-!
# Edits of statements keep the chains

Statements and containers hold no part of the chains: an edit of them keeps the chains when
every statement still lists expressions a statement may list. Most such edits move statements
between containers, and every statement lists afterwards what it listed before
(`StmtsOnly`); the others add a statement over expressions a statement may list, or delete
statements together with their expressions.

* `StmtsOnly`: a change of statements and containers that keeps every statement's list;
* `allocStmt_runs`, `pushExprAfter_runs`: new statements;
* `discardStmt_runs`, `pluckStmt_runs`, `removeExpr_runs`: deletions;
* `pushStmt_runs`, `replaceStmt_runs`, `moveStmts_runs`: moves.
-/

namespace Decompilation

namespace Procedure

variable {p p' p'' : Procedure} {E : Procedure → Prop}

/-- `p'` changes only the statements and containers of `p`, and each of its statements lists
    the expressions it listed in `p`. -/
structure StmtsOnly (p p' : Procedure) : Prop where
  exprs : p'.exprs = p.exprs
  stmt : ∀ {s st'}, p'.stmt? s = some st' → ∃ st, p.stmt? s = some st ∧ st'.exprs = st.exprs

namespace StmtsOnly

theorem refl (p : Procedure) : p.StmtsOnly p := ⟨rfl, fun h => ⟨_, h, rfl⟩⟩

theorem trans (h₁ : p.StmtsOnly p') (h₂ : p'.StmtsOnly p'') : p.StmtsOnly p'' where
  exprs := h₂.exprs.trans h₁.exprs
  stmt hs := by
    obtain ⟨st₁, hs₁, he₁⟩ := h₂.stmt hs
    obtain ⟨st, hs₀, he₀⟩ := h₁.stmt hs₁
    exact ⟨st, hs₀, he₁.trans he₀⟩

/-- A change of statements and containers that keeps every statement's list keeps the chains
    consistent. -/
theorem consistent (hs : p.StmtsOnly p') (h : p.Consistent) : p'.Consistent ∧ p.Later p' := by
  refine ⟨⟨h.placed.of_stmts hs.exprs fun hst e he => ?_, h.chains.of_exprs hs.exprs⟩,
    later_of_exprs hs.exprs⟩
  obtain ⟨st, hst₀, hex⟩ := hs.stmt hst
  exact h.placed.stmt hst₀ e (hex ▸ he)

end StmtsOnly

theorem stmtsOnly_modifyCntr (c : CntrId) (f : Container → Container) :
    p.StmtsOnly (p.modifyCntr c f) :=
  ⟨rfl, fun h => ⟨_, h, rfl⟩⟩

theorem stmtsOnly_modifyStmt (s : StmtId) (f : Stmt → Stmt) (hf : ∀ x, (f x).exprs = x.exprs) :
    p.StmtsOnly (p.modifyStmt s f) where
  exprs := rfl
  stmt {t st'} ht := by
    rw [stmt?_modifyStmt] at ht
    split at ht
    · obtain ⟨st, hst, rfl⟩ := Option.map_eq_some_iff.1 ht
      exact ⟨st, hst, hf st⟩
    · exact ⟨st', ht, rfl⟩

theorem stmtsOnly_clearStmt (s : StmtId) :
    p.StmtsOnly { p with stmts := p.stmts.modify s.index fun _ => none } where
  exprs := rfl
  stmt {t st'} ht := by
    rw [stmt?_clear] at ht
    split at ht
    · cases ht
    · exact ⟨st', ht, rfl⟩

theorem stmtsOnly_clearCntr (c : CntrId) :
    p.StmtsOnly { p with cntrs := p.cntrs.modify c.index fun _ => none } :=
  ⟨rfl, fun h => ⟨_, h, rfl⟩⟩

theorem stmtsOnly_foldl_modifyStmt (l : List StmtId) (f : Stmt → Stmt)
    (hf : ∀ x, (f x).exprs = x.exprs) :
    p.StmtsOnly (l.foldl (fun p s => p.modifyStmt s f) p) := by
  induction l generalizing p with
  | nil => exact .refl p
  | cons s l ih => exact (stmtsOnly_modifyStmt s f hf).trans ih

theorem stmtsOnly_foldl_modifyCntr (l : List CntrId) (f : Container → Container) :
    p.StmtsOnly (l.foldl (fun p c => p.modifyCntr c f) p) := by
  induction l generalizing p with
  | nil => exact .refl p
  | cons c l ih => exact (stmtsOnly_modifyCntr c f).trans ih

/-- An edit that changes only statements and containers, keeping their lists. -/
theorem runs_modify_stmtsOnly {g : Procedure → Procedure} (h : p.Consistent)
    (hg : p.StmtsOnly (g p)) :
    Runs (modify g : Edit PUnit) p (fun _ p' => p'.Consistent ∧ p.Later p') E :=
  runs_modify (hg.consistent h)

/-- A new statement over expressions a statement may list keeps the chains. -/
theorem consistent_pushStmt (h : p.Consistent) (st : Stmt) (hst : ∀ e ∈ st.exprs, p.Listable e) :
    ({ p with stmts := p.stmts.push (some st) } : Procedure).Consistent ∧
      p.Later { p with stmts := p.stmts.push (some st) } := by
  refine ⟨⟨h.placed.of_stmts rfl fun {t st'} ht e he => ?_, h.chains.of_exprs rfl⟩,
    later_of_exprs rfl⟩
  rw [stmt?_push] at ht
  split at ht
  · cases ht
    exact hst e he
  · exact h.placed.stmt ht e he

/-! ### New statements -/

/-- A new statement over expressions a statement may list keeps the chains consistent: its
    expressions and bodies are attached to it, and it is added. -/
theorem allocStmt_runs (h : p.Consistent) (kind : StmtKind) (address : UInt64)
    {exprs : List ExprId} (hexprs : ∀ e ∈ exprs, p.Listable e) (bodies : List (Option CntrId)) :
    Runs (allocStmt kind address exprs bodies) p (fun _ p' => p'.Consistent ∧ p.Later p') E := by
  refine runs_modifyGet ?_
  obtain ⟨hd₁, hc₁, hl₁⟩ := attach_keeps h.placed h.chains exprs (.stmt ⟨p.stmts.size⟩)
  obtain ⟨h₂, hl₂⟩ := (stmtsOnly_foldl_modifyCntr (bodies.filterMap id)
    fun x => { x with parent := some ⟨p.stmts.size⟩ }).consistent ⟨hd₁, hc₁⟩
  obtain ⟨h₃, hl₃⟩ := consistent_pushStmt h₂ { kind, address, exprs, bodies }
    fun e he => hl₂.listable (hl₁.listable (hexprs e he))
  exact ⟨h₃, hl₁.trans (hl₂.trans hl₃)⟩

/-- Looking up a statement's position changes nothing. -/
theorem stmtSlot_runs {Q : Nat → Procedure → Prop} (c : CntrId) (s : StmtId) (hQ : ∀ i, Q i p)
    (hE : E p) : Runs (stmtSlot c s) p Q E := by
  unfold stmtSlot
  refine runs_get_bind ?_
  split
  · exact runs_pure _ (hQ _)
  · exact runs_throw _ hE

theorem pushStmt_runs (h : p.Consistent) (c : CntrId) (s : StmtId) :
    Runs (pushStmt c s) p (fun _ p' => p'.Consistent ∧ p.Later p') (fun p' => p'.Consistent) := by
  unfold pushStmt
  refine runs_get_bind ?_
  dsimp only
  split
  · exact runs_throw_bind _ h
  · exact runs_modify_stmtsOnly h
      ((stmtsOnly_modifyCntr c _).trans (stmtsOnly_modifyStmt s _ fun _ => rfl))

/-- An expression that a statement may list, wrapped in a new statement after another. -/
theorem pushExprAfter_runs (h : p.Consistent) {e : ExprId} (he : p.Listable e) (existing : ExprId) :
    Runs (pushExprAfter e existing) p (fun _ p' => p'.Consistent ∧ p.Later p')
      (fun p' => p'.Consistent) := by
  unfold pushExprAfter
  refine runs_get_bind ?_
  split
  · split
    · refine runs_bind (stmtSlot_runs (Q := fun _ q => q = p) _ _ (fun _ => rfl) h) ?_
      intro pos q hq
      subst q
      refine runs_bind (allocStmt_runs h _ _ (by simpa using he) []) fun s q ⟨hq, hlq⟩ => ?_
      refine runs_bind (runs_modify_stmtsOnly hq
        ((stmtsOnly_modifyCntr _ _).trans (stmtsOnly_modifyStmt s _ fun _ => rfl)))
        fun _ q' ⟨hq', hlq'⟩ => runs_pure _ ⟨hq', hlq.trans hlq'⟩
    · exact runs_throw _ h
  · exact runs_throw _ h

/-! ### Deleting statements -/

/-- Deleting a statement, with a fuel: its slot is emptied, each of its expressions is
    detached and deleted, and each statement of its bodies is deleted in turn. -/
theorem discardStmt_go_runs (n : Nat) :
    ∀ (s : StmtId) {p : Procedure}, p.Consistent →
      Runs (discardStmt.go n s) p (fun _ p' => p'.Consistent ∧ p.Later p')
        (fun p' => p'.Consistent) := by
  induction n with
  | zero => exact fun s p h => runs_pure _ ⟨h, .refl p⟩
  | succ n ih =>
    intro s p h
    rw [discardStmt.go]
    refine runs_get_bind ?_
    split
    · next st hst =>
      -- the statement's expressions were listable, and stay so in every later state
      obtain ⟨h₁, hl₁⟩ := (stmtsOnly_clearStmt (p := p) s).consistent h
      refine runs_modify_bind (runs_bind (runs_forIn_inv (fun _ q => q.Consistent ∧ p.Later q)
        ⟨h₁, hl₁⟩ ?_) fun _ q hq => runs_bind (runs_forIn_inv
          (fun _ q' => q'.Consistent ∧ p.Later q') hq ?_) fun _ q' hq' => runs_pure _ hq')
      · rintro e he _ q ⟨hq, hlq⟩
        have hnd : q.NotDef e := hlq.notDef (h.placed.stmt hst e he).notDef
        obtain ⟨hd₂, hc₂, hl₂⟩ := detach_keeps hq.placed hq.chains (.inl hnd)
        refine runs_modify_bind (runs_bind (discardExpr_runs ⟨hd₂, hc₂⟩ e) ?_)
        exact fun _ q' hq' => runs_pure _ ⟨hq'.1, hlq.trans (hl₂.trans hq'.2)⟩
      · rintro c - _ q ⟨hq, hlq⟩
        refine runs_get_bind ?_
        split
        · next ct _ =>
          obtain ⟨h₂, hl₂⟩ := (stmtsOnly_clearCntr (p := q) c).consistent hq
          refine runs_modify_bind (runs_bind (runs_forIn_inv
            (fun _ q' => q'.Consistent ∧ p.Later q') ⟨h₂, hlq.trans hl₂⟩ ?_)
            fun _ q' hq' => runs_pure _ hq')
          rintro t - _ q' ⟨hq', hlq'⟩
          obtain ⟨h₃, hl₃⟩ := (stmtsOnly_modifyStmt (p := q') t
            (fun x => { x with parent := none }) fun _ => rfl).consistent hq'
          refine runs_modify_bind (runs_bind (ih t h₃) ?_)
          exact fun _ q'' hq'' => runs_pure _ ⟨hq''.1, hlq'.trans (hl₃.trans hq''.2)⟩
        · exact runs_pure _ ⟨hq, hlq⟩
    · exact runs_pure _ ⟨h, .refl p⟩

theorem discardStmt_runs (h : p.Consistent) (s : StmtId) :
    Runs (discardStmt s) p (fun _ p' => p'.Consistent ∧ p.Later p') (fun p' => p'.Consistent) :=
  runs_get_bind (discardStmt_go_runs _ s h)

theorem pluckStmt_runs (h : p.Consistent) (s : StmtId) (detach : Bool) :
    Runs (pluckStmt s detach) p (fun _ p' => p'.Consistent ∧ p.Later p')
      (fun p' => p'.Consistent) := by
  unfold pluckStmt
  refine runs_get_bind ?_
  -- after the statement is out of its container, it is deleted when asked
  have hjp : ∀ q, q.Consistent → p.Later q →
      Runs (if detach = true then discardStmt s else pure ()) q
        (fun _ p' => p'.Consistent ∧ p.Later p') (fun p' => p'.Consistent) := fun q hq hlq => by
    split
    · exact runs_mono (discardStmt_runs hq s) (fun _ _ h => ⟨h.1, hlq.trans h.2⟩) fun _ h => h
    · exact runs_pure _ ⟨hq, hlq⟩
  dsimp only
  split
  · refine runs_bind (stmtSlot_runs (Q := fun _ q => q = p) _ _ (fun _ => rfl) h) ?_
    intro pos q hq
    subst q
    obtain ⟨h₁, hl₁⟩ := ((stmtsOnly_modifyCntr (p := p) _ _).trans
      (stmtsOnly_modifyStmt s (fun x => { x with parent := none }) fun _ => rfl)).consistent h
    exact runs_modify_bind (hjp _ h₁ hl₁)
  · exact hjp p h (.refl p)

/-- Deleting an expression of a statement, and the statement when it is left empty. -/
theorem removeExpr_runs (h : p.Consistent) (s : StmtId) (e : ExprId) :
    Runs (removeExpr s e) p (fun _ p' => p'.Consistent ∧ p.Later p') (fun p' => p'.Consistent) := by
  unfold removeExpr
  refine runs_get_bind ?_
  -- what follows the check: the expression is deleted, then the statement if emptied
  have hjp : Runs (discardExpr e >>= fun _ => get >>= fun q =>
      if ((q.stmtNode s).kind == StmtKind.expr && (q.stmtNode s).exprs.isEmpty) = true then
        pluckStmt s true >>= fun _ =>
          pure ((q.stmtNode s).kind == StmtKind.expr && (q.stmtNode s).exprs.isEmpty)
      else pure ((q.stmtNode s).kind == StmtKind.expr && (q.stmtNode s).exprs.isEmpty)) p
      (fun _ p' => p'.Consistent ∧ p.Later p') (fun p' => p'.Consistent) := by
    refine runs_bind (discardExpr_runs h e) fun _ q ⟨hq, hlq⟩ => runs_get_bind ?_
    split
    · exact runs_bind (pluckStmt_runs hq s true) fun _ q' hq' =>
        runs_pure _ ⟨hq'.1, hlq.trans hq'.2⟩
    · exact runs_pure _ ⟨hq, hlq⟩
  dsimp only
  split
  · exact runs_throw_bind _ h
  · exact hjp

/-- Putting a detached statement in the place of another. -/
theorem replaceStmt_runs (h : p.Consistent) (old new : StmtId) :
    Runs (replaceStmt old new) p (fun _ p' => p'.Consistent ∧ p.Later p')
      (fun p' => p'.Consistent) := by
  unfold replaceStmt
  refine runs_get_bind ?_
  dsimp only
  split
  · exact runs_throw_bind _ h
  · split
    · refine runs_bind (stmtSlot_runs (Q := fun _ q => q = p) _ _ (fun _ => rfl) h) ?_
      intro pos q hq
      subst q
      refine runs_modify_stmtsOnly h ?_
      exact ((stmtsOnly_modifyCntr _ _).trans (stmtsOnly_modifyStmt new _ fun _ => by rfl)).trans
        (stmtsOnly_modifyStmt old _ fun _ => by rfl)
    · exact runs_throw _ h

theorem moveStmts_runs (h : p.Consistent) (src dst : CntrId) :
    Runs (moveStmts src dst) p (fun _ p' => p'.Consistent ∧ p.Later p') E := by
  refine runs_modify_stmtsOnly h ?_
  dsimp only
  exact ((stmtsOnly_modifyCntr src _).trans (stmtsOnly_foldl_modifyStmt _ _ fun _ => by rfl)).trans
    (stmtsOnly_modifyCntr dst _)

theorem setFallthrough_runs (h : p.Consistent) (c : CntrId) (next : Option CntrId) :
    Runs (setFallthrough c next) p (fun _ p' => p'.Consistent ∧ p.Later p') E :=
  runs_modify_stmtsOnly h (stmtsOnly_modifyCntr c _)

theorem newContainer_runs (h : p.Consistent) (address : UInt64) :
    Runs (newContainer address) p (fun _ p' => p'.Consistent ∧ p.Later p') E :=
  runs_modifyGet ((show p.StmtsOnly { p with cntrs := p.cntrs.push (some { address }) } from
    ⟨rfl, fun h => ⟨_, h, rfl⟩⟩).consistent h)

end Procedure

end Decompilation
