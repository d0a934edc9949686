import Mathlib
import Decompilation.Proofs.Simplify.Effects

/-!
# What a reduction keeps

A step of the simplifier takes a tree to the tree at the root it answers (`ExprShape.Stepped`).
A reduction by the simplifier repeats its steps, and two reductions in a row are one
(`ExprShape.ReducedBy.trans`); a statement's reduction reduces the trees of its expressions in
turn, and each reduction leaves the trees of the other expressions as they were, since the trees
of a statement's expressions share no node (`Procedure.Holds.disjoint_of_stmt`).

What is kept are the calls and the inline assembly of the tree (`ExprShape.CallsKept`): each
call the tree evaluates whatever its conditions is still live, of the same kind, below the root
the reduction answers, and so is every other call, unless it lies in the arm of a conditional of
the tree that one of the steps deleted while the conditional's condition was a literal leaving
that arm aside (`Simplifier.Dropped`).

* `Simplifier.reduceExpr_reducedBy`, `Simplifier.reduceStmt_went`: where the reductions of an
  expression and of a statement take the trees;
* `Simplifier.reduce_keeps_calls`: a step, a reduction of a tree and a reduction of the
  statement the tree belongs to keep its calls.
-/

namespace Decompilation

open Procedure

/-- The node `x` of `p` is still live in `p'`, of the same kind, below `r`. -/
def Procedure.KeptBelow (p p' : Procedure) (r x : ExprId) : Prop :=
  p'.isLive x ∧ p'.Below r x ∧ (p'.node x).kind = (p.node x).kind

/-- The calls and inline assembly of the tree `S` of `p` are kept in the sense `kept`: every one
    the tree evaluates whatever its conditions, and every other one unless it lies in the arm in
    place `i` of a conditional `y` of the tree that was `dropped`. -/
def ExprShape.CallsKept (S : ExprShape) (p : Procedure) (kept : ExprId → Prop)
    (dropped : ExprId → Nat → Prop) : Prop :=
  (∀ x, S.Exposed p x → kept x) ∧
    ∀ x ∈ S.ids, (p.node x).hasEffect = true → kept x ∨ ∃ y i, S.InArm p y i x ∧ dropped y i

/-- One step of the simplifier `s`, from some root, takes `q` to `q'`. -/
def Simplifier.StepsTo (s : Simplifier) (q q' : Procedure) : Prop :=
  ∃ root o, (s.step root).run.run q = (.ok o, q')

/-- Steps of the simplifier `s` take `q` to `q'`. -/
def Simplifier.Steps (s : Simplifier) : Procedure → Procedure → Prop :=
  Relation.ReflTransGen s.StepsTo

/-- The conditional `y` is gone from `p'`: one of the steps of `s` from `p` to `p'` deleted it
    while its condition was a literal that leaves aside the arm in place `i`. -/
def Simplifier.Dropped (s : Simplifier) (p p' : Procedure) (y : ExprId) (i : Nat) : Prop :=
  ¬p'.isLive y ∧ ∃ q q', s.Steps p q ∧ s.StepsTo q q' ∧ s.Steps q' p' ∧ q.isLive y ∧
    q.LeavesAside y i ∧ ¬q'.isLive y

namespace Simplifier

variable {s : Simplifier} {p p' p₀ p₁ p₂ : Procedure} {y : ExprId} {i : Nat}

@[refl]
theorem Steps.refl : s.Steps p p := Relation.ReflTransGen.refl

@[trans]
theorem Steps.trans (h₁ : s.Steps p₀ p₁) (h₂ : s.Steps p₁ p₂) : s.Steps p₀ p₂ :=
  Relation.ReflTransGen.trans h₁ h₂

theorem StepsTo.steps (h : s.StepsTo p p') : s.Steps p p' := Relation.ReflTransGen.single h

/-- A step that deletes a conditional whose literal condition leaves an arm aside drops it. -/
theorem dropped_of_stepsTo (hs : s.StepsTo p p') (hlive : p.isLive y) (hla : p.LeavesAside y i)
    (hdel : ¬p'.isLive y) : s.Dropped p p' y i :=
  ⟨hdel, p, p', .refl, hs, .refl, hlive, hla, hdel⟩

/-- A conditional dropped between two states is dropped between any states around them, while
    it stays deleted. -/
theorem Dropped.extend (h : s.Dropped p p' y i) (h₀ : s.Steps p₀ p) (h₁ : s.Steps p' p₁)
    (hdead : ¬p₁.isLive y) : s.Dropped p₀ p₁ y i := by
  obtain ⟨-, q, q', hpq, hstep, hqp, hlive, hla, hdel⟩ := h
  exact ⟨hdead, q, q', h₀.trans hpq, hstep, hqp.trans h₁, hlive, hla, hdel⟩

end Simplifier

namespace Procedure

variable {p : Procedure}

/-- A held tree stays held in a state where its nodes keep their liveness, parents and
    operands. -/
theorem Holds.of_same {q : Procedure} {T : ExprShape} (h : p.Holds T)
    (hT : ∀ z ∈ T.ids, q.isLive z = p.isLive z ∧ (q.node z).kind = (p.node z).kind ∧
      (q.node z).parent = (p.node z).parent ∧ (q.node z).operands = (p.node z).operands) :
    q.Holds T :=
  ⟨h.spans.frame h.nodup (fun z hz hl => by rw [(hT z hz).1]; exact hl)
    (fun z hz => (hT z hz).2.2.2) fun z hz _ => (hT z hz).2.2.1, h.nodup⟩

/-- Two held trees whose roots belong to statements share no node unless their roots are one:
    going up from a shared node through the expressions that list it, both trees reach the same
    root. -/
theorem Holds.disjoint_of_stmt {T₁ T₂ : ExprShape} {s₁ s₂ : StmtId} (h₁ : p.Holds T₁)
    (h₂ : p.Holds T₂) (hr₁ : (p.node T₁.root).parent = some (.stmt s₁))
    (hr₂ : (p.node T₂.root).parent = some (.stmt s₂)) (hne : T₁.root ≠ T₂.root) :
    List.Disjoint T₁.ids T₂.ids := by
  intro z hz₁ hz₂
  have hb := h₁.spans.below_of_mem hz₁
  clear hz₁
  revert hz₂
  induction hb with
  | refl =>
    -- the root of `T₁` records a statement as parent, so it can only be the root of `T₂`
    intro hz₂
    obtain ⟨w, -, hw, -⟩ := h₂.spans.parent_mem hz₂ hne
    rw [hr₁] at hw
    cases hw
  | @operand w o hw ho ih =>
    intro ho₂
    have hpo : (p.node o).parent = some (.expr w) :=
      h₁.spans.parent_of_operand (h₁.mem_of_below hw) ho
    have hoT₂ : o ≠ T₂.root := fun h => by
      rw [h, hr₂] at hpo
      cases hpo
    obtain ⟨w', hw', hpw', -⟩ := h₂.spans.parent_mem ho₂ hoT₂
    rw [hpo, Option.some.injEq, ExprParent.expr.injEq] at hpw'
    subst hpw'
    exact ih hw'

end Procedure

namespace ExprShape

variable {s : Simplifier} {p p₁ p₂ q q' : Procedure} {S S₁ S₂ T T' : ExprShape}

/-- A node of a tree held in `p'` with the kind it had in `p` is kept below the tree's root. -/
theorem keptBelow_of_mem (h : q.Holds T) {x : ExprId} (hx : x ∈ T.ids)
    (hk : (q.node x).kind = (p.node x).kind) : p.KeptBelow q T.root x :=
  ⟨h.spans.live hx, h.spans.below_of_mem hx, hk⟩

namespace Reduced

/-- A node deleted before a reduction stays deleted: it is in no held tree. -/
theorem not_isLive (h : S.Reduced p S' p') {y : ExprId} (hy : y.index < p.exprs.size)
    (hdead : ¬p.isLive y) : ¬p'.isLive y := by
  rw [(h.frame y hy fun hyS => hdead (h.source.spans.live hyS)).1]
  exact hdead

/-- Two reductions in a row are one. -/
theorem trans (h₁ : S.Reduced p S₁ p₁) (h₂ : S₁.Reduced p₁ S₂ p₂) : S.Reduced p S₂ p₂ := by
  have hold : ∀ x ∈ S.ids, x.index < p.exprs.size := fun x hx => h₁.source.spans.index_lt hx
  -- an old node outside `S` is outside `S₁`: the new nodes of `S₁` are new
  have hout : ∀ z, z.index < p.exprs.size → z ∉ S.ids → z ∉ S₁.ids := fun z hz hzS hz₁ => by
    rcases h₁.ids z hz₁ with h | h
    · exact hzS h
    · omega
  refine ⟨h₁.source, h₂.holds, h₂.laid, fun x hx => ?_, fun y i x hx h => ?_, fun z hz => ?_,
    h₁.size.trans h₂.size, fun z hz hzS => ?_, fun z hz hzS hr => ?_, h₂.root.trans h₁.root⟩
  · obtain ⟨hx₁, hk₁⟩ := h₁.exposed x hx
    obtain ⟨hx₂, hk₂⟩ := h₂.exposed x hx₁
    exact ⟨hx₂, hk₂.trans hk₁⟩
  · -- the node is in the middle tree too, old as it is
    have hx₂ := h.mem.2
    have hx₁ : x ∈ S₁.ids := by
      rcases h₂.ids x hx₂ with h' | h'
      · exact h'
      · have := hold x hx
        have := h₁.size
        omega
    exact h₁.arms y i x hx (h₂.arms y i x hx₁ h)
  · rcases h₂.ids z hz with hz₁ | hnew
    · exact h₁.ids z hz₁
    · exact .inr (h₁.size.trans hnew)
  · obtain ⟨hl₁, hk₁, hp₁⟩ := h₁.frame z hz hzS
    obtain ⟨hl₂, hk₂, hp₂⟩ := h₂.frame z (lt_of_lt_of_le hz h₁.size) (hout z hz hzS)
    exact ⟨hl₂.trans hl₁, hk₂.trans hk₁, hp₂.trans hp₁⟩
  · exact (h₂.operands z (lt_of_lt_of_le hz h₁.size) (hout z hz hzS)
      (by rw [h₁.root]; exact hr)).trans
      (h₁.operands z hz hzS hr)

end Reduced

/-- A reduction of the tree `S` of `p` to `S'` of `p'` by steps of the simplifier `s`: every call
    of `S` is in `S'` with its kind, unless it lies in the arm of a conditional of `S` that one of
    the steps dropped. -/
structure ReducedBy (s : Simplifier) (S : ExprShape) (p : Procedure) (S' : ExprShape)
    (p' : Procedure) : Prop extends S.Reduced p S' p' where
  steps : s.Steps p p'
  dropped : ∀ x ∈ S.ids, (p.node x).hasEffect = true →
    (x ∈ S'.ids ∧ (p'.node x).kind = (p.node x).kind) ∨
      ∃ y i, S.InArm p y i x ∧ s.Dropped p p' y i

namespace ReducedBy

/-- A step of the simplifier is a reduction by it. -/
theorem of_stepped (h : S.Stepped p S' p') (hs : s.StepsTo p p') : S.ReducedBy s p S' p' := by
  refine ⟨h.toReduced, hs.steps, fun x hx he => ?_⟩
  rcases h.folded x hx he with hkept | ⟨y, i, hin, hla, hdel⟩
  · exact .inl hkept
  · exact .inr ⟨y, i, hin,
      Simplifier.dropped_of_stepsTo hs (h.source.spans.live hin.mem.1) hla hdel⟩

/-- Two reductions in a row are one. -/
theorem trans (h₁ : S.ReducedBy s p S₁ p₁) (h₂ : S₁.ReducedBy s p₁ S₂ p₂) :
    S.ReducedBy s p S₂ p₂ := by
  refine ⟨h₁.toReduced.trans h₂.toReduced, h₁.steps.trans h₂.steps, fun x hx he => ?_⟩
  rcases h₁.dropped x hx he with ⟨hx₁, hk₁⟩ | ⟨y, i, hin, hy⟩
  · have he₁ : (p₁.node x).hasEffect = true := by
      rw [ExprNode.hasEffect_eq_of_kind hk₁]
      exact he
    rcases h₂.dropped x hx₁ he₁ with ⟨hx₂, hk₂⟩ | ⟨y, i, hin, hy⟩
    · exact .inl ⟨hx₂, hk₂.trans hk₁⟩
    · exact .inr ⟨y, i, h₁.arms y i x hx hin, hy.extend h₁.steps .refl hy.1⟩
  · -- the conditional dropped by the first reduction stays deleted
    have hy₁ : y.index < p₁.exprs.size :=
      lt_of_lt_of_le (h₁.source.spans.index_lt hin.mem.1) h₁.size
    exact .inr ⟨y, i, hin, hy.extend .refl h₂.steps (h₂.toReduced.not_isLive hy₁ hy.1)⟩

/-- A reduction keeps the calls of the tree below the root it answers. -/
theorem callsKept (h : S.ReducedBy s p S' p') :
    S.CallsKept p (p.KeptBelow p' S'.root) (s.Dropped p p') := by
  refine ⟨fun x hx => ?_, fun x hx he => ?_⟩
  · obtain ⟨hx', hk⟩ := h.exposed x hx
    exact keptBelow_of_mem h.holds hx'.mem hk
  · rcases h.dropped x hx he with ⟨hx', hk⟩ | hdel
    · exact .inl (keptBelow_of_mem h.holds hx' hk)
    · exact .inr hdel

end ReducedBy

/-- Where the tree `T` of `p` went in `q` by steps of `s`: to the tree `T'`, held in `q`, whose
    root records the parent that the root of `T` recorded and whose nodes not in `T` are new; the
    calls of `T` are in `T'` with their kinds, but for those in the arm of a conditional that a
    step dropped. -/
structure Went (s : Simplifier) (T : ExprShape) (p : Procedure) (T' : ExprShape) (q : Procedure) :
    Prop where
  holds : q.Holds T'
  root : (q.node T'.root).parent = (p.node T.root).parent
  ids : ∀ z ∈ T'.ids, z ∈ T.ids ∨ p.exprs.size ≤ z.index
  calls : T.CallsKept p (fun x => x ∈ T'.ids ∧ (q.node x).kind = (p.node x).kind) (s.Dropped p q)

namespace Went

/-- A tree reduced from a state that steps reach from `p`, whose nodes of `T` are as in `p`, went
    where the reduction took it. -/
theorem of_reducedBy (h : T.ReducedBy s q T' q')
    (hk : ∀ z ∈ T.ids, (q.node z).kind = (p.node z).kind)
    (hr : (q.node T.root).parent = (p.node T.root).parent)
    (hsize : p.exprs.size ≤ q.exprs.size) (hsteps : s.Steps p q) : T.Went s p T' q' := by
  refine ⟨h.holds, h.root.trans hr, fun z hz => (h.ids z hz).imp id hsize.trans,
    fun x hx => ?_, fun x hx he => ?_⟩
  · obtain ⟨hx', hk'⟩ := h.exposed x (hx.frame fun z hz => hk z hz)
    exact ⟨hx'.mem, hk'.trans (hk x hx.mem)⟩
  · have he' : (q.node x).hasEffect = true := by
      rw [ExprNode.hasEffect_eq_of_kind (hk x hx)]
      exact he
    rcases h.dropped x hx he' with ⟨hx', hk'⟩ | ⟨y, i, hin, hy⟩
    · exact .inl ⟨hx', hk'.trans (hk x hx)⟩
    · exact .inr ⟨y, i, hin.frame (hk y hin.mem.1).symm, hy.extend hsteps .refl hy.1⟩

/-- A tree that went to `T'` stays there through further steps while the nodes of `T'` keep
    their fields and the nodes of `T` deleted stay deleted. -/
theorem frame (h : T.Went s p T' q) (hT : ∀ z ∈ T'.ids, q'.isLive z = q.isLive z ∧
      (q'.node z).kind = (q.node z).kind ∧ (q'.node z).parent = (q.node z).parent ∧
      (q'.node z).operands = (q.node z).operands)
    (hdead : ∀ y ∈ T.ids, ¬q.isLive y → ¬q'.isLive y) (hsteps : s.Steps q q') :
    T.Went s p T' q' := by
  refine ⟨h.holds.of_same hT, by rw [(hT _ T'.root_mem_ids).2.2.1]; exact h.root, h.ids,
    fun x hx => ?_, fun x hx he => ?_⟩
  · obtain ⟨hx', hk⟩ := h.calls.1 x hx
    exact ⟨hx', (hT x hx').2.1.trans hk⟩
  · rcases h.calls.2 x hx he with ⟨hx', hk⟩ | ⟨y, i, hin, hy⟩
    · exact .inl ⟨hx', (hT x hx').2.1.trans hk⟩
    · exact .inr ⟨y, i, hin, hy.extend .refl hsteps (hdead y hin.mem.1 hy.1)⟩

end Went

end ExprShape

namespace Simplifier

open ExprShape

variable {p : Procedure} {S : ExprShape}

/-- Steps repeated until the tree settles or the fuel runs out reduce the tree. -/
theorem reduceCounted_go_reducedBy (s : Simplifier) (fuel : Nat) :
    ∀ {p : Procedure} {S : ExprShape} (done : Nat), p.Holds S → S.Laid p →
      Runs (reduceCounted.go s fuel S.root done) p
        (fun res p' => ∃ S', S'.root = res.1 ∧ S.ReducedBy s p S' p') (fun _ => True) := by
  induction fuel with
  | zero =>
    intro p S done _ _
    exact runs_throw _ trivial
  | succ fuel ih =>
    intro p S done hS hl
    rw [reduceCounted.go]
    refine runs_bind (runs_mono (runs_and (s.step_stepped hS hl) (runs_self _ p))
      (fun _ _ h => h) fun _ _ => trivial) fun o q h => ?_
    obtain ⟨⟨S₁, hr, h₁⟩, hrun⟩ := h
    have hred₁ : S.ReducedBy s p S₁ q := .of_stepped h₁ ⟨S.root, o, hrun⟩
    cases o with
    | none => exact runs_pure _ ⟨S₁, hr, hred₁⟩
    | some next =>
      -- the step answered the root of the tree it made; the rest go on from there
      rw [Option.getD_some] at hr
      rw [← hr]
      refine runs_mono (ih (done + 1) h₁.holds h₁.laid) (fun _ _ h => ?_) fun _ h => h
      obtain ⟨S₂, hr₂, h₂⟩ := h
      exact ⟨S₂, hr₂, hred₁.trans h₂⟩

/-- Reducing a held tree laid out by kinds reduces it to the tree at the root it answers. -/
theorem reduceExpr_reducedBy (s : Simplifier) (hS : p.Holds S) (hl : S.Laid p) :
    Runs (s.reduceExpr S.root) p (fun r p' => ∃ S', S'.root = r ∧ S.ReducedBy s p S' p')
      (fun _ => True) :=
  runs_bind (s.reduceCounted_go_reducedBy _ 0 hS hl) fun _ _ h => runs_pure _ h

section Statement

variable {st : StmtId}

/-- The state `q` after the trees `done` of the expressions of a statement of `p` were reduced
    in turn by `s`: steps of `s` led there, the arena grew, every old node in none of those trees
    is as it was, and each of them went somewhere. -/
structure Stage (s : Simplifier) (p : Procedure) (done : List ExprShape) (q : Procedure) :
    Prop where
  steps : s.Steps p q
  size : p.exprs.size ≤ q.exprs.size
  frame : ∀ z, z.index < p.exprs.size → (∀ T ∈ done, z ∉ T.ids) →
    q.isLive z = p.isLive z ∧ (q.node z).kind = (p.node z).kind ∧
      (q.node z).parent = (p.node z).parent ∧ (q.node z).operands = (p.node z).operands
  went : ∀ T ∈ done, ∃ T', T.Went s p T' q

/-- Reducing the tree of one more expression of the statement: that tree is as it was before,
    the reduction takes it somewhere and leaves the trees reduced before, which share no node
    with it, where they went. -/
theorem Stage.reduce (s : Simplifier) {done : List ExprShape} {q : Procedure}
    (hq : Stage s p done q) {T : ExprShape} (hT : p.Holds T) (hl : T.Laid p)
    (hr : (p.node T.root).parent = some (.stmt st))
    (hdis : ∀ T' ∈ done, p.Holds T' ∧ List.Disjoint T'.ids T.ids) :
    Runs (s.reduceCounted T.root) q (fun _ q' => Stage s p (done ++ [T]) q')
      (fun _ => True) := by
  have hold : ∀ z ∈ T.ids, z.index < p.exprs.size := fun z hz => hT.spans.index_lt hz
  have hfr : ∀ z ∈ T.ids, q.isLive z = p.isLive z ∧ (q.node z).kind = (p.node z).kind ∧
      (q.node z).parent = (p.node z).parent ∧ (q.node z).operands = (p.node z).operands :=
    fun z hz => hq.frame z (hold z hz) fun T' hT' hzT' => (hdis T' hT').2 hzT' hz
  -- the tree is held and laid out as it was
  have hTq : q.Holds T := hT.of_same hfr
  have hlq : T.Laid q := hl.frame (fun z hz => (hfr z hz).2.1) fun z hz => (hfr z hz).2.2.2
  have hrq : (q.node T.root).parent = some (.stmt st) := by
    rw [(hfr _ T.root_mem_ids).2.2.1]
    exact hr
  have hnotexpr : ∀ z, (q.node T.root).parent ≠ some (.expr z) := fun z h => by
    rw [hrq] at h
    cases h
  refine runs_mono (s.reduceCounted_go_reducedBy _ 0 hTq hlq) (fun _ q' h => ?_) fun _ h => h
  obtain ⟨T', -, hred⟩ := h
  -- an old node outside `T` is as it was, and a node deleted stays deleted
  have hout : ∀ z, z.index < q.exprs.size → z ∉ T.ids → q'.isLive z = q.isLive z ∧
      (q'.node z).kind = (q.node z).kind ∧ (q'.node z).parent = (q.node z).parent ∧
      (q'.node z).operands = (q.node z).operands := fun z hz hzT =>
    ⟨(hred.frame z hz hzT).1, (hred.frame z hz hzT).2.1, (hred.frame z hz hzT).2.2,
      hred.operands z hz hzT (hnotexpr z)⟩
  refine ⟨hq.steps.trans hred.steps, hq.size.trans hred.size, fun z hz hzd => ?_,
    fun T₀ hT₀ => ?_⟩
  · have hzd' : ∀ T₀ ∈ done, z ∉ T₀.ids := fun T₀ h => hzd T₀ (List.mem_append_left _ h)
    have hzT : z ∉ T.ids := hzd T (List.mem_append_right _ (List.mem_singleton_self T))
    obtain ⟨hl₁, hk₁, hp₁, ho₁⟩ := hq.frame z hz hzd'
    obtain ⟨hl₂, hk₂, hp₂, ho₂⟩ := hout z (lt_of_lt_of_le hz hq.size) hzT
    exact ⟨hl₂.trans hl₁, hk₂.trans hk₁, hp₂.trans hp₁, ho₂.trans ho₁⟩
  · rcases List.mem_append.1 hT₀ with hT₀ | hT₀
    · -- a tree reduced before went where it did: its new tree lies outside `T`
      obtain ⟨T₁, hw⟩ := hq.went T₀ hT₀
      obtain ⟨hT₀p, hdisT⟩ := hdis T₀ hT₀
      have hT₁T : ∀ z ∈ T₁.ids, z ∉ T.ids := fun z hz hzT => by
        rcases hw.ids z hz with hz₀ | hnew
        · exact hdisT hz₀ hzT
        · have := hold z hzT
          omega
      refine ⟨T₁, hw.frame (fun z hz => hout z (hw.holds.spans.index_lt hz) (hT₁T z hz))
        (fun y hy hdead => ?_) hred.steps⟩
      have hyq : y.index < q.exprs.size := lt_of_lt_of_le (hT₀p.spans.index_lt hy) hq.size
      rw [(hout y hyq fun hyT => hdisT hy hyT).1]
      exact hdead
    · rw [List.mem_singleton.1 hT₀]
      exact ⟨T', .of_reducedBy hred (fun z hz => (hfr z hz).2.1) (hfr _ T.root_mem_ids).2.2.1
        hq.size hq.steps⟩

/-- Reducing a statement whose expressions are distinct, each recorded with the statement as its
    parent and the root of a held tree laid out by kinds, takes the tree of each expression
    somewhere. The expressions are reduced in turn; the invariant is the stage of those done. -/
theorem reduceStmt_went (s : Simplifier) (hnd : (p.stmtNode st).exprs.Nodup)
    (htrees : ∀ e ∈ (p.stmtNode st).exprs, (p.node e).parent = some (.stmt st) ∧
      ∃ T, T.root = e ∧ p.Holds T ∧ T.Laid p) :
    Runs (s.reduceStmt st) p (fun _ p' => ∀ T, p.Holds T → T.root ∈ (p.stmtNode st).exprs →
      ∃ T', T.Went s p T' p') (fun _ => True) := by
  -- the tree of each expression of the statement
  have hex : ∀ e, ∃ T : ExprShape, e ∈ (p.stmtNode st).exprs →
      T.root = e ∧ p.Holds T ∧ T.Laid p := fun e => by
    by_cases he : e ∈ (p.stmtNode st).exprs
    · obtain ⟨T, hT⟩ := (htrees e he).2
      exact ⟨T, fun _ => hT⟩
    · exact ⟨.node e [], fun h => absurd h he⟩
  choose tree htree using hex
  unfold reduceStmt
  refine runs_get_bind (runs_bind (runs_forIn_done (fun done _ q => Stage s p (done.map tree) q)
    ⟨.refl, le_rfl, fun _ _ _ => ⟨rfl, rfl, rfl, rfl⟩, fun _ h => by cases h⟩ ?_) ?_)
  · intro l₁ e l₂ hl b q hq
    have he : e ∈ (p.stmtNode st).exprs := by
      rw [hl]
      exact List.mem_append_right _ List.mem_cons_self
    obtain ⟨hroot, hT, hlay⟩ := htree e he
    -- the trees done share no node with this one: the roots are distinct expressions of the
    -- statement
    have hdis : ∀ T' ∈ l₁.map tree, p.Holds T' ∧ List.Disjoint T'.ids (tree e).ids := by
      intro T' hT'
      obtain ⟨e', he', rfl⟩ := List.mem_map.1 hT'
      have he'mem : e' ∈ (p.stmtNode st).exprs := by
        rw [hl]
        exact List.mem_append_left _ he'
      obtain ⟨hroot', hT'p, -⟩ := htree e' he'mem
      have hne : e' ≠ e := by
        rintro rfl
        rw [hl] at hnd
        exact List.disjoint_of_nodup_append hnd he' List.mem_cons_self
      refine ⟨hT'p, hT'p.disjoint_of_stmt hT (by rw [hroot']; exact (htrees e' he'mem).1)
        (by rw [hroot]; exact (htrees e he).1) ?_⟩
      rw [hroot, hroot']
      exact hne
    have hrun := hq.reduce s hT hlay (by rw [hroot]; exact (htrees e he).1) hdis
    rw [hroot] at hrun
    refine runs_bind hrun fun _ q' h => runs_pure _ ⟨_, rfl, ?_⟩
    rw [List.map_append, List.map_singleton]
    exact h
  · -- every tree of the statement is the tree of its root
    intro _ q hq
    refine runs_pure _ fun T hT hmem => ?_
    obtain ⟨hroot, hT', -⟩ := htree T.root hmem
    have heq : tree T.root = T := hT'.spans.unique hT.spans hroot
    rw [← heq]
    exact hq.went _ (List.mem_map_of_mem hmem)

end Statement

/-- Reducing a held tree whose nodes list the operands their kinds fix keeps its calls and
    inline assembly. One step takes a call out of the tree only from the arm of a conditional
    that the conditional's literal condition leaves aside, and deletes the conditional. A
    reduction of the tree, and one of a statement whose expressions hold such trees, keep every
    call the tree evaluates whatever its conditions live and of the same kind below the root they
    answer for the tree, and every other call too, unless it lies in the arm of a conditional of
    the tree that one of the steps deleted when its condition had become a literal leaving that
    arm aside. -/
theorem reduce_keeps_calls (s : Simplifier) (hS : p.Holds S) (hl : S.Laid p) :
    Runs (s.step S.root) p (fun o p' => ∀ x ∈ S.ids, (p.node x).hasEffect = true →
        p.KeptBelow p' (o.getD S.root) x ∨
          ∃ y i, S.InArm p y i x ∧ p.LeavesAside y i ∧ ¬p'.isLive y) (fun _ => True) ∧
    Runs (s.reduceExpr S.root) p
      (fun r p' => S.CallsKept p (p.KeptBelow p' r) (s.Dropped p p')) (fun _ => True) ∧
    ∀ st, (p.stmtNode st).exprs.Nodup →
      (∀ e ∈ (p.stmtNode st).exprs, (p.node e).parent = some (.stmt st) ∧
        ∃ T, T.root = e ∧ p.Holds T ∧ T.Laid p) → S.root ∈ (p.stmtNode st).exprs →
      Runs (s.reduceStmt st) p (fun _ p' => S.CallsKept p
        (fun x => ∃ r, (p'.node r).parent = some (.stmt st) ∧ p.KeptBelow p' r x)
        (s.Dropped p p')) (fun _ => True) := by
  refine ⟨runs_mono (s.step_stepped hS hl) (fun o p' h => ?_) fun _ h => h,
    runs_mono (s.reduceExpr_reducedBy hS hl) (fun r p' h => ?_) fun _ h => h,
    fun st hnd htrees hmem => runs_mono (s.reduceStmt_went hnd htrees) (fun _ p' h => ?_)
      fun _ h => h⟩
  · obtain ⟨S', hr, hst⟩ := h
    intro x hx he
    rcases hst.folded x hx he with ⟨hx', hk⟩ | hfold
    · rw [← hr]
      exact .inl (keptBelow_of_mem hst.holds hx' hk)
    · exact .inr hfold
  · obtain ⟨S', rfl, hred⟩ := h
    exact hred.callsKept
  · -- the tree went to one whose root the statement owns, holding what the tree kept
    obtain ⟨T', hw⟩ := h S hS hmem
    have hroot : (p'.node T'.root).parent = some (.stmt st) := hw.root.trans (htrees _ hmem).1
    refine ⟨fun x hx => ?_, fun x hx he => ?_⟩
    · obtain ⟨hx', hk⟩ := hw.calls.1 x hx
      exact ⟨T'.root, hroot, keptBelow_of_mem hw.holds hx' hk⟩
    · rcases hw.calls.2 x hx he with ⟨hx', hk⟩ | hdel
      · exact .inl ⟨T'.root, hroot, keptBelow_of_mem hw.holds hx' hk⟩
      · exact .inr hdel

/-- Reducing `f() * 0`, alone or in a statement: the call is kept. -/
theorem reduce_keeps_calls_of_product : callTimesZero.Holds callTimesZeroShape ∧
    callTimesZeroShape.Laid callTimesZero ∧
    Runs (({} : Simplifier).step callTimesZeroShape.root) callTimesZero
      (fun o p' => ∀ x ∈ callTimesZeroShape.ids, (callTimesZero.node x).hasEffect = true →
        callTimesZero.KeptBelow p' (o.getD callTimesZeroShape.root) x ∨
          ∃ y i, callTimesZeroShape.InArm callTimesZero y i x ∧
            callTimesZero.LeavesAside y i ∧ ¬p'.isLive y) (fun _ => True) ∧
    Runs (({} : Simplifier).reduceExpr callTimesZeroShape.root) callTimesZero
      (fun r p' => callTimesZeroShape.CallsKept callTimesZero (callTimesZero.KeptBelow p' r)
        (({} : Simplifier).Dropped callTimesZero p')) (fun _ => True) ∧
    ∀ st, (callTimesZero.stmtNode st).exprs.Nodup →
      (∀ e ∈ (callTimesZero.stmtNode st).exprs, (callTimesZero.node e).parent = some (.stmt st) ∧
        ∃ T, T.root = e ∧ callTimesZero.Holds T ∧ T.Laid callTimesZero) →
      callTimesZeroShape.root ∈ (callTimesZero.stmtNode st).exprs →
      Runs (({} : Simplifier).reduceStmt st) callTimesZero
        (fun _ p' => callTimesZeroShape.CallsKept callTimesZero
          (fun x => ∃ r, (p'.node r).parent = some (.stmt st) ∧ callTimesZero.KeptBelow p' r x)
          (({} : Simplifier).Dropped callTimesZero p')) (fun _ => True) :=
  ⟨callTimesZero_holds, callTimesZero_laid,
    reduce_keeps_calls {} callTimesZero_holds callTimesZero_laid⟩

end Simplifier

end Decompilation
