import Decompilation.Ir.Build
import Decompilation.Proofs.DefUse.Linking

/-!
# Built procedures are consistent

Building a procedure from its description allocates each expression over the roots of its
operands, which are fresh: listed by nothing, reading nothing, no definition position. An
assignment makes its written side, a fresh root, a definition position and lists it first;
a statement lists fresh roots. Nothing links or registers. So a built procedure has its
definition positions in place and, trivially, exact chains.

* `Grows`, `Root`: what building leaves of the procedure before, and what it adds;
* `addTree_runs`, `addTrees_runs`: descriptions of expressions;
* `addStmt_runs`, `addBody_runs`: descriptions of statements;
* `ProcedureSpec.build_consistent`: a whole procedure.
-/

namespace Decompilation

namespace Procedure

variable {p q q' : Procedure} {E : Procedure → Prop}

/-! ### Growth -/

/-- `p'` grows from `p`: slots are only added, and every node of `p` stays live with its mark,
    and free if it was. -/
structure Grows (p p' : Procedure) : Prop where
  keeps : p.Keeps p'
  size_le : p.exprs.size ≤ p'.exprs.size
  frees : ∀ {e}, p.Free e → p'.Free e

/-- A root built from `p`, as it stands in `p'`: a fresh node, free, that a statement may
    list. -/
structure Root (p p' : Procedure) (r : ExprId) : Prop where
  fresh : p.exprs.size ≤ r.index
  free : p'.Free r
  listable : p'.Listable r

theorem Grows.refl (p : Procedure) : p.Grows p := ⟨.refl p, Nat.le_refl _, id⟩

theorem Grows.trans (h₁ : p.Grows q) (h₂ : q.Grows q') : p.Grows q' :=
  ⟨h₁.keeps.trans h₂.keeps, Nat.le_trans h₁.size_le h₂.size_le, fun hf => h₂.frees (h₁.frees hf)⟩

/-- A step that keeps and frees every node but the roots it lists, when those roots are newer
    than `p`. -/
theorem Grows.over (hg : p.Grows q) {used : List ExprId}
    (hused : ∀ o ∈ used, p.exprs.size ≤ o.index) (hsize : q.exprs.size ≤ q'.exprs.size)
    (hkeep : ∀ {e x}, e ∉ used → q.expr? e = some x →
      ∃ x', q'.expr? e = some x' ∧ x'.isDef = x.isDef)
    (hfree : ∀ e, e ∉ used → q.Free e → q'.Free e) : p.Grows q' := by
  -- a node of `p` is older than every root listed
  have hold : ∀ {e x}, p.expr? e = some x → e ∉ used := fun he hmem =>
    Nat.lt_irrefl _ (Nat.lt_of_lt_of_le (p.index_lt_of_expr? he) (hused _ hmem))
  refine ⟨⟨fun {e x} he => ?_⟩, Nat.le_trans hg.size_le hsize, fun {e} hf => ?_⟩
  · obtain ⟨x', hx', hd'⟩ := hg.keeps.live he
    obtain ⟨x'', hx'', hd''⟩ := hkeep (hold he) hx'
    exact ⟨x'', hx'', hd''.trans hd'⟩
  · obtain ⟨x, hx, _⟩ := hf.live
    exact hfree e (hold hx) (hg.frees hf)

/-- A free node stays free, and one a statement may list stays so, as the procedure grows. -/
theorem Root.grow {r : ExprId} (hr : p.Root q r) (hg : q.Grows q') : p.Root q' r := by
  obtain ⟨x, hx, _⟩ := hr.free.live
  obtain ⟨x', hx', hd⟩ := hg.keeps.live hx
  refine ⟨hr.fresh, hg.frees hr.free, index_lt_of_expr? _ hx', fun y hy => ?_⟩
  rw [hx'] at hy
  cases hy
  exact hd.trans (hr.listable.2 x hx)

theorem Root.of_grows {r : ExprId} (hr : q.Root q' r) (hg : p.Grows q) : p.Root q' r :=
  ⟨Nat.le_trans hg.size_le hr.fresh, hr.free, hr.listable⟩

theorem StmtsOnly.free (hs : p.StmtsOnly q) {e : ExprId} (h : p.Free e) : q.Free e where
  unlisted := ⟨fun {o y} ho => h.unlisted.1 (by simpa [expr?, hs.exprs] using ho),
    fun {s st'} hst => by
      obtain ⟨st, hst₀, he⟩ := hs.stmt hst
      rw [he]
      exact h.unlisted.2 hst₀⟩
  live := by simpa [expr?, hs.exprs] using h.live

theorem StmtsOnly.grows (hs : p.StmtsOnly q) : p.Grows q :=
  ⟨hs.keeps, by rw [hs.exprs], hs.free⟩

theorem Grows.modifyExpr (e : ExprId) (f : ExprNode → ExprNode)
    (hf : ∀ x, (f x).operands = x.operands ∧ (f x).defLink = x.defLink ∧ (f x).isDef = x.isDef) :
    p.Grows (p.modifyExpr e f) :=
  ⟨keeps_modifyExpr e f fun x => (hf x).2.2, by simp [Procedure.modifyExpr],
    fun hfr => hfr.modifyExpr e f fun x => ⟨(hf x).1, (hf x).2.1⟩⟩

/-- A change of a node's tags, which no chain and no placement reads, keeps the chains
    consistent. -/
theorem Consistent.retag (h : p.Consistent) (e : ExprId) (f : ExprNode → ExprNode)
    (hf : ∀ x, (f x).kind = x.kind ∧ (f x).operands = x.operands ∧ (f x).isDef = x.isDef ∧
      (f x).parent = x.parent ∧ (f x).tracked = x.tracked ∧ (f x).defLink = x.defLink ∧
      (f x).uses = x.uses) :
    (p.modifyExpr e f).Consistent :=
  ⟨h.placed.modifyLinks e f fun x => ⟨(hf x).1, (hf x).2.1, (hf x).2.2.1, (hf x).2.2.2.1⟩,
    h.chains.modifyShape e f fun x => ⟨(hf x).2.2.2.2.1, (hf x).2.2.1, (hf x).2.2.2.2.2⟩⟩

/-! ### New nodes and statements -/

theorem Free.foldl_modifyExpr {e : ExprId} (h : p.Free e) (l : List ExprId)
    (f : ExprNode → ExprNode) (hf : ∀ x, (f x).operands = x.operands ∧ (f x).defLink = x.defLink) :
    (l.foldl (fun p o => p.modifyExpr o f) p).Free e := by
  induction l generalizing p with
  | nil => exact h
  | cons o l ih => exact ih (h.modifyExpr o f hf)

theorem Free.pushStmt {e : ExprId} (h : p.Free e) {st : Stmt} (he : e ∉ st.exprs) :
    ({ p with stmts := p.stmts.push (some st) } : Procedure).Free e where
  unlisted := ⟨fun {o y} ho => h.unlisted.1 ho, fun {s st'} hs => by
    rw [stmt?_push] at hs
    split at hs
    · cases hs
      exact he
    · exact h.unlisted.2 hs⟩
  live := h.live

/-- A new statement keeps free every free node it does not list. -/
theorem allocStmt_frees (kind : StmtKind) (address : UInt64) (exprs : List ExprId)
    (bodies : List (Option CntrId)) :
    Runs (allocStmt kind address exprs bodies) p
      (fun _ p' => ∀ e, e ∉ exprs → p.Free e → p'.Free e) E := by
  refine runs_modifyGet fun e he hf => ?_
  refine ((stmtsOnly_foldl_modifyCntr _ _).free (hf.foldl_modifyExpr exprs _ ?_)).pushStmt he
  exact fun _ => ⟨rfl, rfl⟩

/-- A new statement over roots built from `p`: the chains stay consistent, and the procedure
    still grows from `p`. -/
theorem allocStmt_grows (h : q.Consistent) (hg : p.Grows q) (kind : StmtKind) (address : UInt64)
    {exprs : List ExprId} (hexprs : ∀ e ∈ exprs, p.Root q e) (bodies : List (Option CntrId)) :
    Runs (allocStmt kind address exprs bodies) q (fun _ q' => q'.Consistent ∧ p.Grows q') E := by
  refine runs_mono (runs_and_ok (runs_and_ok
    (allocStmt_runs h kind address (fun e he => (hexprs e he).listable) bodies)
    (allocStmt_keeps kind address exprs bodies)) (allocStmt_frees kind address exprs bodies))
    ?_ fun _ h => h
  rintro _ q' ⟨⟨⟨hq', hl⟩, hk⟩, hf⟩
  exact ⟨hq', hg.over (fun o ho => (hexprs o ho).fresh) hl.size_le (fun _ hx => hk.live hx) hf⟩

theorem assign_index (l r : ExprId) :
    Runs (assign l r) p (fun a _ => a.index = p.exprs.size) E := by
  unfold assign
  exact runs_modify_bind (runs_mono (allocExpr_spec _) (fun _ _ h => h.1.trans (by simp [modifyExpr]))
    fun _ h => h)

/-! ### Expressions -/

/-- A constant is a fresh root. -/
theorem valNode_runs (h : q.Consistent) (hg : p.Grows q) (v : UInt64) (size : Nat) :
    Runs (val v size) q (fun e q' => q'.Consistent ∧ p.Grows q' ∧ p.Root q' e)
      (fun q' => q'.Consistent) := by
  refine runs_mono (runs_and_ok (runs_and_ok (val_runs h _ _) (allocExpr_keeps _))
    (allocExpr_unlisted h.placed (.of_listable (by simp)))) ?_ fun _ h => h
  rintro e q' ⟨⟨⟨hq', hlat, hl⟩, hk, hidx, hx, hfr⟩, hun⟩
  exact ⟨hq', hg.over (by simp) hlat.size_le (fun _ hx => hk.live hx) hfr,
    ⟨hidx ▸ hg.size_le, ⟨hun, _, hx, rfl⟩, hl⟩⟩

/-- An assignment over two roots is a fresh root; its written side becomes a definition
    position. -/
theorem assignNode_runs (h : q.Consistent) (hg : p.Grows q) {l r : ExprId} (hl : p.Root q l)
    (hr : p.Root q r) (hlr : l ≠ r) :
    Runs (assign l r) q (fun e q' => q'.Consistent ∧ p.Grows q' ∧ p.Root q' e)
      (fun q' => q'.Consistent) := by
  refine runs_mono (runs_and_ok (runs_and_ok (assign_runs h hl.free hr.listable hlr)
    (assign_frees l r)) (assign_index l r)) ?_ fun _ h => h
  rintro a q' ⟨⟨⟨hq', ha, hfa, _, hk⟩, hfr⟩, hidx⟩
  obtain ⟨x, hx, _⟩ := hfa.live
  have hlt := index_lt_of_expr? _ hx
  rw [hidx] at hlt
  refine ⟨hq', hg.over (by simp [hl.fresh, hr.fresh]) (Nat.le_of_lt hlt)
    (fun he hx => hk (fun hel => he (by simp [hel])) hx) hfr, ⟨?_, hfa, ha⟩⟩
  rw [hidx]
  exact hg.size_le

/-- Any other node over roots is a fresh root. -/
theorem allocNode_runs (h : q.Consistent) (hg : p.Grows q) (kind : ExprKind) {ops : List ExprId}
    (hops : ∀ o ∈ ops, p.Root q o) :
    Runs (allocExpr { kind, operands := ops }) q
      (fun e q' => q'.Consistent ∧ p.Grows q' ∧ p.Root q' e) (fun q' => q'.Consistent) := by
  refine runs_mono (runs_and_ok (runs_and_ok
    (allocExpr_listable h ⟨rfl, rfl, rfl, rfl⟩ fun o ho => (hops o ho).listable)
    (allocExpr_keeps _)) (allocExpr_unlisted h.placed (.of_listable fun o ho => (hops o ho).listable)))
    ?_ fun _ h => h
  rintro e q' ⟨⟨⟨hq', hlat, hl⟩, hk, hidx, hx, hfr⟩, hun⟩
  exact ⟨hq', hg.over (fun o ho => (hops o ho).fresh) hlat.size_le (fun _ hx => hk.live hx) hfr,
    ⟨hidx ▸ hg.size_le, ⟨hun, _, hx, rfl⟩, hl⟩⟩

/-- A root with its subscript and no-alias mark set is the same fresh root. -/
theorem retag_runs {e : ExprId} (h : q.Consistent ∧ p.Grows q ∧ p.Root q e) (tags : ExprTags) :
    Runs (if tags.idx.isSome = true then do
          setIndex e tags.idx
          if tags.safe = true then do
            markSafe e
            pure e
          else pure e
        else if tags.safe = true then do
          markSafe e
          pure e
        else pure e) q
      (fun r q' => q'.Consistent ∧ p.Grows q' ∧ p.Root q' r) (fun q' => q'.Consistent) := by
  -- neither tag is read by the chains or the placement
  have hretag : ∀ (q' : Procedure) (f : ExprNode → ExprNode), (∀ x, (f x).kind = x.kind ∧
      (f x).operands = x.operands ∧ (f x).isDef = x.isDef ∧ (f x).parent = x.parent ∧
      (f x).tracked = x.tracked ∧ (f x).defLink = x.defLink ∧ (f x).uses = x.uses) →
      q'.Consistent ∧ p.Grows q' ∧ p.Root q' e →
      (q'.modifyExpr e f).Consistent ∧ p.Grows (q'.modifyExpr e f) ∧
        p.Root (q'.modifyExpr e f) e := fun _ f hf ⟨hq, hg, hr⟩ =>
    have hg' := Grows.modifyExpr e f fun x => ⟨(hf x).2.1, (hf x).2.2.2.2.2.1, (hf x).2.2.1⟩
    ⟨hq.retag e f hf, hg.trans hg', hr.grow hg'⟩
  have hidx := fun q' => hretag q' (fun x => { x with idx := tags.idx }) fun _ =>
    ⟨rfl, rfl, rfl, rfl, rfl, rfl, rfl⟩
  have hsafe := fun q' => hretag q' (fun x => { x with safe := true }) fun _ =>
    ⟨rfl, rfl, rfl, rfl, rfl, rfl, rfl⟩
  split
  · refine runs_modify_bind ?_
    split
    · exact runs_modify_bind (runs_pure _ (hsafe _ (hidx _ h)))
    · exact runs_pure _ (hidx _ h)
  · split
    · exact runs_modify_bind (runs_pure _ (hsafe _ h))
    · exact runs_pure _ h

mutual

/-- The nodes of an expression description, built in a consistent procedure: the chains stay
    consistent, the procedure grows, and the root is fresh. -/
theorem addTree_runs : ∀ (t : ExprTree) {p : Procedure}, p.Consistent →
    Runs (addTree t) p (fun r p' => p'.Consistent ∧ p.Grows p' ∧ p.Root p' r)
      (fun p' => p'.Consistent)
  | .node kind tags operands, p, h => by
    rw [addTree]
    refine runs_bind (addTrees_runs operands h) fun ops q ⟨hq, hg, hops, hnd⟩ => ?_
    dsimp only
    -- the node over the roots of the operands, then its tags
    split
    · exact runs_bind (valNode_runs hq hg _ _) fun e _ h' => retag_runs h' tags
    · next l r _ =>
      have hlr : l ≠ r := by simpa using hnd
      exact runs_bind (assignNode_runs hq hg (hops l (by simp)) (hops r (by simp)) hlr)
        fun e _ h' => retag_runs h' tags
    · exact runs_bind (allocNode_runs hq hg _ hops) fun e _ h' => retag_runs h' tags

/-- The nodes of expression descriptions, one after another: the roots are fresh, and
    distinct. -/
theorem addTrees_runs : ∀ (ts : List ExprTree) {p : Procedure}, p.Consistent →
    Runs (addTrees ts) p (fun rs p' => p'.Consistent ∧ p.Grows p' ∧ (∀ r ∈ rs, p.Root p' r) ∧
      rs.Nodup) (fun p' => p'.Consistent)
  | [], p, h => runs_pure _ ⟨h, .refl p, by simp, .nil⟩
  | t :: ts, p, h => by
    rw [addTrees]
    refine runs_bind (addTree_runs t h) fun e q ⟨hq, hg, hr⟩ => ?_
    refine runs_bind (addTrees_runs ts hq) fun es q' ⟨hq', hg', hes, hnd⟩ => ?_
    -- the first root is older than all the others
    have hnot : e ∉ es := fun hmem => by
      obtain ⟨x, hx, _⟩ := hr.free.live
      exact Nat.lt_irrefl _ (Nat.lt_of_lt_of_le (index_lt_of_expr? _ hx) (hes e hmem).fresh)
    refine runs_pure _ ⟨hq', hg.trans hg', fun r hmem => ?_, List.nodup_cons.2 ⟨hnot, hnd⟩⟩
    rcases List.mem_cons.1 hmem with rfl | hmem
    · exact hr.grow hg'
    · exact (hes r hmem).of_grows hg

end

/-! ### Statements -/

theorem newContainer_grows (address : UInt64) :
    Runs (newContainer address) p (fun _ p' => p.Grows p') E :=
  runs_modifyGet (StmtsOnly.grows ⟨rfl, fun h => ⟨_, h, rfl⟩⟩)

theorem pushStmt_grows (c : CntrId) (s : StmtId) :
    Runs (pushStmt c s) p (fun _ p' => p.Grows p') fun _ => True := by
  unfold pushStmt
  refine runs_get_bind ?_
  dsimp only
  split
  · exact runs_throw_bind _ trivial
  · refine runs_modify (StmtsOnly.grows ?_)
    exact (stmtsOnly_modifyCntr c _).trans (stmtsOnly_modifyStmt s _ fun _ => rfl)

/-- A new container, for the statements of a body. -/
theorem newBody_runs (h : p.Consistent) (address : UInt64) :
    Runs (newContainer address) p (fun _ p' => p'.Consistent ∧ p.Grows p') E :=
  runs_mono (runs_and_ok (newContainer_runs h address) (newContainer_grows address))
    (fun _ _ ⟨⟨hq, _⟩, hg⟩ => ⟨hq, hg⟩) fun _ h => h

mutual

/-- A statement description, built in a consistent procedure: the chains stay consistent and
    the procedure grows. -/
theorem addStmt_runs (d : UInt64) : ∀ (st : StmtSpec) {p : Procedure}, p.Consistent →
    Runs (addStmt d st) p (fun _ p' => p'.Consistent ∧ p.Grows p') (fun p' => p'.Consistent)
  | .expr a e, p, h => by
    rw [addStmt]
    exact runs_bind (addTree_runs e h) fun e _ ⟨hq, hg, hr⟩ =>
      allocStmt_grows hq hg .expr _ (by simpa using hr) []
  | .assign a l r, p, h => by
    rw [addStmt]
    refine runs_bind (addTree_runs l h) fun l q₁ ⟨h₁, hg₁, hl⟩ => ?_
    refine runs_bind (addTree_runs r h₁) fun r q₂ ⟨h₂, hg₂, hr⟩ => ?_
    -- the written side is older than the value
    have hlr : l ≠ r := fun hlr => by
      obtain ⟨x, hx, _⟩ := hl.free.live
      exact Nat.lt_irrefl _ (Nat.lt_of_lt_of_le (index_lt_of_expr? _ hx) (hlr ▸ hr.fresh))
    refine runs_bind (assignNode_runs h₂ (hg₁.trans hg₂) (hl.grow hg₂) (hr.of_grows hg₁) hlr)
      fun a' q₃ ⟨h₃, hg₃, ha⟩ => ?_
    exact allocStmt_grows h₃ hg₃ .expr _ (by simpa using ha) []
  | .goto a e, p, h => by
    rw [addStmt]
    exact runs_bind (addTree_runs e h) fun e _ ⟨hq, hg, hr⟩ =>
      allocStmt_grows hq hg .goto _ (by simpa using hr) []
  | .branch a c t f, p, h => by
    rw [addStmt]
    refine runs_bind (addTree_runs c h) fun c q₁ ⟨h₁, hg₁, hc⟩ => ?_
    refine runs_bind (addTree_runs t h₁) fun t q₂ ⟨h₂, hg₂, ht⟩ => ?_
    refine runs_bind (addTree_runs f h₂) fun f q₃ ⟨h₃, hg₃, hf⟩ => ?_
    refine allocStmt_grows h₃ (hg₁.trans (hg₂.trans hg₃)) .branch _ ?_ []
    simp only [List.mem_cons, List.not_mem_nil, or_false]
    rintro e (rfl | rfl | rfl)
    · exact hc.grow (hg₂.trans hg₃)
    · exact (ht.grow hg₃).of_grows hg₁
    · exact hf.of_grows (hg₁.trans hg₂)
  | .ifElse a c th el, p, h => by
    rw [addStmt]
    refine runs_bind (addTree_runs c h) fun c q₁ ⟨h₁, hg₁, hc⟩ => ?_
    refine runs_bind (newBody_runs h₁ _) fun tc q₂ ⟨h₂, hg₂⟩ => ?_
    refine runs_bind (addBody_runs _ tc th h₂) fun _ q₃ ⟨h₃, hg₃⟩ => ?_
    -- the else-body likewise, if there is one
    dsimp only
    split
    · refine runs_bind (newBody_runs h₃ _) fun ec q₄ ⟨h₄, hg₄⟩ => ?_
      refine runs_bind (addBody_runs _ ec _ h₄) fun _ q₅ ⟨h₅, hg₅⟩ => ?_
      rw [pure_bind]
      have hg := hg₂.trans (hg₃.trans (hg₄.trans hg₅))
      exact allocStmt_grows h₅ (hg₁.trans hg) .ifElse _ (by simpa using hc.grow hg) _
    · rw [pure_bind]
      have hg := hg₂.trans hg₃
      exact allocStmt_grows h₃ (hg₁.trans hg) .ifElse _ (by simpa using hc.grow hg) _
  | .whileLoop a c body, p, h => by
    rw [addStmt]
    refine runs_bind (addTree_runs c h) fun c q₁ ⟨h₁, hg₁, hc⟩ => ?_
    refine runs_bind (newBody_runs h₁ _) fun bc q₂ ⟨h₂, hg₂⟩ => ?_
    refine runs_bind (addBody_runs _ bc body h₂) fun _ q₃ ⟨h₃, hg₃⟩ => ?_
    have hg := hg₂.trans hg₃
    exact allocStmt_grows h₃ (hg₁.trans hg) .whileLoop _ (by simpa using hc.grow hg) _
  | .doWhile a c body, p, h => by
    rw [addStmt]
    refine runs_bind (addTree_runs c h) fun c q₁ ⟨h₁, hg₁, hc⟩ => ?_
    refine runs_bind (newBody_runs h₁ _) fun bc q₂ ⟨h₂, hg₂⟩ => ?_
    refine runs_bind (addBody_runs _ bc body h₂) fun _ q₃ ⟨h₃, hg₃⟩ => ?_
    have hg := hg₂.trans hg₃
    exact allocStmt_grows h₃ (hg₁.trans hg) .doWhile _ (by simpa using hc.grow hg) _
  | .breakLoop a, p, h => allocStmt_grows h (.refl p) .breakLoop _ (by simp) []
  | .continueLoop a, p, h => allocStmt_grows h (.refl p) .continueLoop _ (by simp) []
  | .ret a (some v), p, h => by
    rw [addStmt]
    exact runs_bind (addTree_runs v h) fun v _ ⟨hq, hg, hr⟩ =>
      allocStmt_grows hq hg .ret _ (by simpa using hr) []
  | .ret a none, p, h => by
    rw [addStmt]
    exact allocStmt_grows h (.refl p) .ret _ (by simp) []

theorem addBody_runs (d : UInt64) (c : CntrId) : ∀ (sts : List StmtSpec) {p : Procedure},
    p.Consistent →
    Runs (addBody d c sts) p (fun _ p' => p'.Consistent ∧ p.Grows p') (fun p' => p'.Consistent)
  | [], p, h => runs_pure _ ⟨h, .refl p⟩
  | st :: sts, p, h => by
    rw [addBody]
    refine runs_bind (addStmt_runs d st h) fun s q ⟨hq, hg⟩ => ?_
    refine runs_bind (runs_and_ok (pushStmt_runs hq c s) (pushStmt_grows c s))
      fun _ q' ⟨⟨hq', _⟩, hg'⟩ => ?_
    exact runs_mono (addBody_runs d c sts hq') (fun _ _ ⟨h'', hg''⟩ => ⟨h'', hg.trans (hg'.trans hg'')⟩)
      fun _ h => h

end

/-! ### Procedures -/

/-- A procedure with no node is consistent. -/
theorem consistent_new (address : UInt64) : (Procedure.new address).Consistent := by
  have hx : ∀ e, (Procedure.new address).expr? e = none := fun e => by
    simp [expr?, Procedure.new]
  have hs : ∀ s, (Procedure.new address).stmt? s = none := fun s => by
    simp [stmt?, Procedure.new]
  refine ⟨⟨fun hd => ?_, fun hq => ?_, fun hst => ?_, fun hd => ?_⟩, .of_unlinked fun he => ?_⟩ <;>
    simp [hx, hs] at *

/-- A change of the blocks, the entry or the name keeps the chains consistent. -/
theorem Consistent.of_nodes {p' : Procedure} (h : p.Consistent) (hx : p'.exprs = p.exprs)
    (hs : p'.stmts = p.stmts) : p'.Consistent :=
  ((⟨hx, fun {_ st'} hst => ⟨st', by simpa [stmt?, hs] using hst, rfl⟩⟩ : p.StmtsOnly p').consistent
    h).1

theorem addBlock_runs (h : p.Consistent) (address : UInt64) (jump fail : Option UInt64) :
    Runs (addBlock address jump fail) p (fun _ p' => p'.Consistent) (fun p' => p'.Consistent) := by
  unfold addBlock
  refine runs_get_bind ?_
  dsimp only
  split
  · exact runs_throw_bind _ h
  · exact runs_bind (newContainer_runs h address) fun _ _ ⟨hq, _⟩ =>
      runs_get_bind (runs_modify_bind (runs_pure _ (hq.of_nodes rfl rfl)))

theorem setEntry_runs (h : p.Consistent) (address : UInt64) :
    Runs (setEntry address) p (fun _ p' => p'.Consistent) (fun p' => p'.Consistent) := by
  unfold setEntry
  refine runs_get_bind ?_
  dsimp only
  split
  · exact runs_throw_bind _ h
  · exact runs_set (h.of_nodes rfl rfl)

end Procedure

/-- The procedure a run leaves when it answers, as `ProcedureSpec.build` reads it. -/
theorem Runs.of_build {m : Edit Unit} {s : Procedure} {Q : Procedure → Prop}
    {E : Procedure → Prop} (h : Runs m s (fun _ p => Q p) E) {p : Procedure}
    (hm : (match m.run.run s with
      | (.ok (), p) => .ok p
      | (.error e, _) => .error e : Except Error Procedure) = .ok p) : Q p := by
  unfold Runs at h
  revert h hm
  rcases m.run.run s with ⟨_ | _, q⟩
  · intro _ hm
    cases hm
  · intro h hm
    cases hm
    exact h

open Procedure in
/-- A procedure built from a description is consistent: its definition positions stand in
    place, and it has no chains yet. -/
theorem ProcedureSpec.build_consistent {spec : ProcedureSpec} {p : Procedure}
    (h : spec.build = .ok p) : p.Consistent := by
  unfold ProcedureSpec.build at h
  refine Runs.of_build (E := fun q => q.Consistent) ?_ h
  -- the blocks, then whatever step sets the entry, from a consistent procedure
  have hrest : ∀ entryStep : Edit Unit,
      (∀ q : Procedure, q.Consistent → Runs entryStep q (fun _ p => p.Consistent)
        (fun p => p.Consistent)) →
      ∀ q : Procedure, q.Consistent → Runs (do
        for b in spec.blocks do
          let c ← addBlock b.address b.jump b.fail
          addBody b.address c b.stmts
        entryStep) q (fun _ p => p.Consistent) (fun p => p.Consistent) := by
    intro entryStep hentry q hq
    refine runs_bind (runs_forIn_inv (fun _ q => q.Consistent) hq fun b _ _ q' hq' => ?_)
      fun _ q'' hq'' => hentry q'' hq''
    exact runs_bind (addBlock_runs hq' _ _ _) fun c _ h₁ =>
      runs_bind (addBody_runs _ c _ h₁) fun _ _ h₂ => runs_pure _ h₂.1
  -- naming the procedure changes no node
  have h₀ := consistent_new spec.address
  dsimp only
  split <;> first
    | refine runs_modify_bind (hrest _ ?_ _ (h₀.of_nodes rfl rfl))
    | refine hrest _ ?_ _ h₀
  -- setting the entry, when there is one, keeps the chains
  all_goals
    intro q hq
    split
    · exact setEntry_runs hq _
    · exact runs_pure _ hq

end Decompilation
