import Mathlib
import Decompilation.Structure.Loop
import Decompilation.Proofs.Optimize.Chains

/-!
# The loops a procedure closes

The plans of the blocks name the loops that structuring builds: a block closed by a jump back
is the latch of a loop tested at the end, and a block claimed as a loop test is the latch of a
loop tested at the start. Each block is classified once, so the loops have distinct latches;
the jump of each loop closes the block at its latch, and its head comes no later.

The loops are built in the order `LoopRegion.before`, the shorter span first. Where the ranges
of the loops nest or are disjoint, a loop built earlier never spans the latch of a later one;
where two ranges overlap otherwise, it may.

* `sortBy_eq_insertionSort`, `pairwise_sortBy`: the stable sort, and the order it leaves;
* `Plan.region?`, `Procedure.loopRegions`: the loop a plan closes, and those of a procedure;
* `LoopRegion.Laminar`: two ranges nest or are disjoint;
* `Procedure.Closes`: the jump of a loop closes the block at its latch;
* `Procedure.classifyBlock_cases`: what classifying one block adds to the plans;
* `Procedure.nodup_latches`, `Procedure.closes_of_mem_loopRegions`: what the plans promise;
* `LoopRegion.pairwise_outside`: in build order, no loop spans the latch of a later one;
* `planLoops_runs`: the first stage of structuring answers the plans and the loops they close.
-/

namespace Decompilation

namespace List

variable {α β γ : Type}

/-- Keeping the entries a partial map sends somewhere, then reading a key that the map keeps,
    leaves a sublist of the keys. -/
theorem map_filterMap_sublist {f : α → Option β} {g : β → γ} {k : α → γ}
    (h : ∀ a b, f a = some b → g b = k a) (l : List α) :
    ((l.filterMap f).map g).Sublist (l.map k) := by
  induction l with
  | nil => exact .slnil
  | cons a l ih =>
    cases hfa : f a with
    | none =>
      rw [List.filterMap_cons_none hfa]
      exact ih.cons _
    | some b =>
      rw [List.filterMap_cons_some hfa, List.map_cons, List.map_cons, h a b hfa]
      exact ih.cons_cons _

end List

/-! ### Sorting by insertion -/

section Sorting

variable {α : Type} (le : α → α → Bool)

theorem insertBy_eq_orderedInsert (a : α) (l : List α) :
    insertBy le a l = l.orderedInsert (fun a b => le a b = true) a := by
  induction l with
  | nil => rfl
  | cons b l ih => simp [insertBy, List.orderedInsert, ih]

/-- The sort is the insertion sort of the relation `le` holds. -/
theorem sortBy_eq_insertionSort (l : List α) :
    sortBy le l = l.insertionSort fun a b => le a b = true := by
  induction l with
  | nil => rfl
  | cons a l ih => simp [sortBy, List.insertionSort, ih, insertBy_eq_orderedInsert]

theorem perm_sortBy (l : List α) : (sortBy le l).Perm l := by
  rw [sortBy_eq_insertionSort]
  exact List.perm_insertionSort _ l

theorem mem_sortBy {l : List α} {a : α} : a ∈ sortBy le l ↔ a ∈ l := (perm_sortBy le l).mem_iff

/-- Under a total and transitive `le`, the sorted list is ordered by it. -/
theorem pairwise_sortBy (htrans : ∀ a b c, le a b = true → le b c = true → le a c = true)
    (htotal : ∀ a b, (le a b || le b a) = true) (l : List α) :
    (sortBy le l).Pairwise fun a b => le a b = true := by
  have : Std.Total fun a b => le a b = true := ⟨fun a b => by simpa using htotal a b⟩
  have : IsTrans α fun a b => le a b = true := ⟨htrans⟩
  rw [sortBy_eq_insertionSort]
  exact List.pairwise_insertionSort _ l

end Sorting

namespace Plan

theorem latch_of_region? {address : UInt64} {plan : Plan} {r : LoopRegion}
    (h : plan.region? address = some r) : r.latch = address := by
  unfold region? at h
  split at h <;> cases h <;> rfl

end Plan

namespace LoopRegion

/-- The ranges of two loops nest or are disjoint. -/
def Laminar (a b : LoopRegion) : Prop :=
  (a.head ≤ b.head ∧ b.latch ≤ a.latch) ∨ (b.head ≤ a.head ∧ a.latch ≤ b.latch) ∨
    a.latch < b.head ∨ b.latch < a.head

instance : DecidableRel Laminar := fun _ _ => inferInstanceAs (Decidable (_ ∨ _ ∨ _ ∨ _))

theorem Laminar.symm {a b : LoopRegion} (h : Laminar a b) : Laminar b a := by
  rcases h with h | h | h | h
  · exact .inr (.inl h)
  · exact .inl h
  · exact .inr (.inr (.inr h))
  · exact .inr (.inr (.inl h))

/-- Building the shorter span first, then the earlier head, is an order: it is transitive. -/
theorem before_trans (a b c : LoopRegion) (hab : a.before b = true) (hbc : b.before c = true) :
    a.before c = true := by
  simp only [before, Bool.or_eq_true, Bool.and_eq_true, decide_eq_true_eq, beq_iff_eq] at *
  grind

/-- ... and total. -/
theorem before_total (a b : LoopRegion) : (a.before b || b.before a) = true := by
  simp only [before, Bool.or_eq_true, Bool.and_eq_true, decide_eq_true_eq, beq_iff_eq]
  grind

/-- A loop built before a laminar one with another latch does not span that latch: an inner
    loop comes first, and a disjoint one lies apart. -/
theorem not_spans_of_before {a b : LoopRegion} (ha : a.head ≤ a.latch) (hb : b.head ≤ b.latch)
    (hlam : Laminar a b) (hne : a.latch ≠ b.latch) (hbef : a.before b = true) :
    ¬(a.head ≤ b.latch ∧ b.latch ≤ a.latch) := by
  unfold Laminar at hlam
  simp only [before, Bool.or_eq_true, Bool.and_eq_true, decide_eq_true_eq, beq_iff_eq] at hbef
  -- the spans do not wrap, so all of it is arithmetic on the addresses
  simp only [UInt64.le_iff_toNat_le, UInt64.lt_iff_toNat_lt, ne_eq, ← UInt64.toNat_inj,
    UInt64.toNat_sub_of_le _ _ ha, UInt64.toNat_sub_of_le _ _ hb] at *
  omega

/-- Sorted into build order, laminar loops with distinct latches, each head no later than its
    latch, are such that no loop spans the latch of a loop built after it. -/
theorem pairwise_outside {rs : List LoopRegion} (hl : rs.Pairwise Laminar)
    (hn : (rs.map latch).Nodup) (hc : ∀ r ∈ rs, r.head ≤ r.latch) :
    (sortBy before rs).Pairwise fun a b => ¬(a.head ≤ b.latch ∧ b.latch ≤ a.latch) := by
  have hperm := perm_sortBy before rs
  have hsorted := pairwise_sortBy before before_trans before_total rs
  have hlam := (hperm.pairwise_iff Laminar.symm).2 hl
  have hne := List.pairwise_map.1 ((hperm.map latch).nodup_iff.2 hn)
  refine ((hsorted.and hlam).and hne).imp_of_mem fun ha hb ⟨⟨hbef, hab⟩, hab'⟩ => ?_
  exact not_spans_of_before (hc _ ((mem_sortBy before).1 ha)) (hc _ ((mem_sortBy before).1 hb))
    hab hab' hbef

end LoopRegion

namespace Procedure

variable (p : Procedure)

/-- The loops the plans of the blocks close, in address order of their latches. -/
def loopRegions : List LoopRegion := p.plans.filterMap fun x => x.2.region? x.1

/-- The jump of loop `r` closes the block at its latch, and its head comes no later. -/
def Closes (r : LoopRegion) : Prop :=
  r.head ≤ r.latch ∧ ∃ b ∈ p.blocks, b.address = r.latch ∧ p.closingJump b.container = some r.jump

variable {p}

theorem mem_of_block? {a : UInt64} {b : Block} (h : p.block? a = some b) :
    b ∈ p.blocks ∧ b.address = a :=
  ⟨List.mem_of_find?_eq_some h, by simpa using List.find?_some h⟩

/-- A closing jump is the last statement of its container, and a jump. -/
theorem closingJump_eq_some {c : CntrId} {j : StmtId} (h : p.closingJump c = some j) :
    j ∈ (p.cntrNode c).stmts ∧ (p.stmtNode j).kind.isJump = true := by
  obtain ⟨ht, hj⟩ := Option.filter_eq_some_iff.1 h
  unfold terminator at ht
  split at ht
  · rename_i hlast
    split at ht
    · cases ht
      exact ⟨List.mem_of_getLast? hlast, hj⟩
    · cases ht
  · cases ht

/-- A loop test found from `origin` to `target`: the block at `target` is closed by the test's
    jump, back to a head after `origin` and not after `target`. -/
theorem loopTest_eq_some {origin target head : UInt64} {j : StmtId}
    (h : p.loopTest origin target = some (head, j)) :
    origin < head ∧ head ≤ target ∧
      ∃ b ∈ p.blocks, b.address = target ∧ p.closingJump b.container = some j := by
  simp only [loopTest, Option.bind_eq_bind, Option.bind_eq_some_iff] at h
  obtain ⟨b, hb, jump, hjump, h', -, h⟩ := h
  split at h
  · rename_i hcond
    cases h
    simp only [Bool.and_eq_true, decide_eq_true_eq] at hcond
    obtain ⟨hbm, rfl⟩ := mem_of_block? hb
    exact ⟨hcond.1.1, hcond.1.2, b, hbm, rfl, hjump⟩
  · cases h

/-- What classifying a block adds to the plans: nothing if the block was claimed as a loop
    test; else its own plan, whose loop is closed by the block's jump; or, for a forward jump to
    a loop test, a plain forward plan and the test's plan, the test's block being claimed. -/
theorem classifyBlock_cases (plans : List (UInt64 × Plan)) (claimed : List UInt64) (b : Block) :
    (b.address ∈ claimed ∧ p.classifyBlock (plans, claimed) b = (plans, claimed)) ∨
    (b.address ∉ claimed ∧ ∃ pl,
      p.classifyBlock (plans, claimed) b = ((b.address, pl) :: plans, claimed) ∧
      ∀ r, pl.region? b.address = some r →
        r.head ≤ r.latch ∧ p.closingJump b.container = some r.jump) ∨
    (b.address ∉ claimed ∧ ∃ pl t head j,
      p.classifyBlock (plans, claimed) b =
        ((b.address, pl) :: (t, { shape := .loopTest head, jump := some j }) :: plans,
          t :: claimed) ∧
      pl.region? b.address = none ∧ b.address < t ∧ t ∉ claimed ∧
      p.loopTest b.address t = some (head, j)) := by
  by_cases hc : b.address ∈ claimed
  · exact .inl ⟨hc, by simp [classifyBlock, hc]⟩
  right
  have hc' : claimed.contains b.address = false := by simpa using hc
  -- a plan that closes no loop, read back as the second case
  have hnone : ∀ pl : Plan,
      p.classifyBlock (plans, claimed) b = ((b.address, pl) :: plans, claimed) →
      pl.region? b.address = none →
      b.address ∉ claimed ∧ ∃ pl,
        p.classifyBlock (plans, claimed) b = ((b.address, pl) :: plans, claimed) ∧
        ∀ r, pl.region? b.address = some r →
          r.head ≤ r.latch ∧ p.closingJump b.container = some r.jump :=
    fun pl h hpl => ⟨hc, pl, h, fun r hr => by simp [hpl] at hr⟩
  rcases Option.eq_none_or_eq_some (p.closingJump b.container) with hj | ⟨jump, hj⟩
  · exact .inl (hnone { shape := .fallthrough (b.fail.filter p.hasBlock) }
      (by simp only [classifyBlock, hc', hj, Bool.false_eq_true, ↓reduceIte]) rfl)
  rcases Option.eq_none_or_eq_some ((p.jumpTarget jump).filter p.hasBlock) with ht | ⟨t, ht⟩
  · exact .inl (hnone { shape := .unresolved (p.jumpTarget jump), jump := some jump }
      (by simp only [classifyBlock, hc', hj, ht, Bool.false_eq_true, ↓reduceIte]) rfl)
  by_cases hbr : (p.stmtNode jump).kind = .branch
  · exact .inl (hnone { shape := .branch t, jump := some jump }
      (by simp only [classifyBlock, hc', hj, ht, hbr, Bool.false_eq_true, ↓reduceIte,
        beq_self_eq_true]) rfl)
  have hbr' : ((p.stmtNode jump).kind == .branch) = false := by simpa using hbr
  by_cases hback : t ≤ b.address
  · -- a jump back: the loop's jump is the block's own
    refine .inl ⟨hc, { shape := .backward t, jump := some jump }, by
      simp only [classifyBlock, hc', hj, ht, hbr', hback, Bool.false_eq_true, ↓reduceIte],
      fun r hr => ?_⟩
    simp only [Plan.region?, Option.some.injEq] at hr
    subst hr
    exact ⟨hback, hj⟩
  rcases Option.eq_none_or_eq_some ((p.loopTest b.address t).filter fun _ => !claimed.contains t)
    with htest | ⟨⟨head, testJump⟩, htest⟩
  · exact .inl (hnone { shape := .forward t none, jump := some jump }
      (by simp only [classifyBlock, hc', hj, ht, hbr', hback, htest, Bool.false_eq_true,
        ↓reduceIte]) rfl)
  obtain ⟨hlt, hnc⟩ := Option.filter_eq_some_iff.1 htest
  refine .inr ⟨hc, { shape := .forward t (some head), jump := some jump }, t, head, testJump,
    by simp only [classifyBlock, hc', hj, ht, hbr', hback, htest, Bool.false_eq_true,
      ↓reduceIte], rfl, UInt64.not_le.1 hback, by simpa using hnc, hlt⟩

/-- Along the fold over the blocks, every loop the plans close is closed by its latch's jump. -/
theorem closes_of_foldl {bs : List Block} (hbs : ∀ b ∈ bs, b ∈ p.blocks)
    {acc : List (UInt64 × Plan) × List UInt64}
    (hacc : ∀ x ∈ acc.1, ∀ r, x.2.region? x.1 = some r → p.Closes r) :
    ∀ x ∈ (bs.foldl p.classifyBlock acc).1, ∀ r, x.2.region? x.1 = some r → p.Closes r := by
  induction bs generalizing acc with
  | nil => exact hacc
  | cons b bs ih =>
    obtain ⟨plans, claimed⟩ := acc
    have hb := hbs b List.mem_cons_self
    refine ih (fun b' hb' => hbs b' (List.mem_cons_of_mem b hb')) ?_
    rcases p.classifyBlock_cases plans claimed b with ⟨-, h⟩ | ⟨-, pl, h, hpl⟩ |
      ⟨-, pl, t, head, j, h, hpl, -, -, htest⟩ <;> rw [h]
    · exact hacc
    · rintro x (_ | ⟨_, hx⟩) r hr
      · obtain ⟨hle, hj⟩ := hpl r hr
        exact ⟨hle, b, hb, (Plan.latch_of_region? hr).symm, hj⟩
      · exact hacc x hx r hr
    · rintro x (_ | ⟨_, _ | ⟨_, hx⟩⟩) r hr
      · simp [hpl] at hr
      · -- the test's loop is closed by the jump of the test's block
        simp only [Plan.region?, Option.some.injEq] at hr
        subst hr
        obtain ⟨-, hle, hclose⟩ := loopTest_eq_some htest
        exact ⟨hle, hclose⟩
      · exact hacc x hx r hr

/-- Along the fold over blocks in increasing address order, the plans name distinct blocks:
    a plan is for a block already passed, or for a block claimed, which is skipped. -/
theorem nodup_foldl {bs : List Block} (hs : bs.Pairwise fun a b => a.address < b.address)
    {acc : List (UInt64 × Plan) × List UInt64} (hnd : (acc.1.map Prod.fst).Nodup)
    (hpast : ∀ x ∈ acc.1.map Prod.fst, x ∈ acc.2 ∨ ∀ b ∈ bs, x < b.address)
    (hclaimed : ∀ x ∈ acc.2, x ∈ acc.1.map Prod.fst) :
    ((bs.foldl p.classifyBlock acc).1.map Prod.fst).Nodup := by
  induction bs generalizing acc with
  | nil => exact hnd
  | cons b bs ih =>
    obtain ⟨plans, claimed⟩ := acc
    rw [List.pairwise_cons] at hs
    -- an address already planned is claimed, or lies before the rest of the blocks
    have hrest : ∀ x ∈ plans.map Prod.fst, x ∈ claimed ∨ ∀ b' ∈ bs, x < b'.address :=
      fun x hx => (hpast x hx).imp_right fun h b' hb' => h b' (List.mem_cons_of_mem b hb')
    have hfresh : b.address ∉ claimed → b.address ∉ plans.map Prod.fst :=
      fun hc hx => by
        rcases hpast _ hx with hx | hx
        · exact hc hx
        · exact UInt64.lt_irrefl _ (hx b List.mem_cons_self)
    rw [List.foldl_cons]
    rcases p.classifyBlock_cases plans claimed b with ⟨-, h⟩ | ⟨hc, pl, h, -⟩ |
      ⟨hc, pl, t, head, j, h, -, hlt, htc, -⟩ <;> rw [h] <;> refine ih hs.2 ?_ ?_ ?_
    · exact hnd
    · exact hrest
    · exact hclaimed
    · exact List.nodup_cons.2 ⟨hfresh hc, hnd⟩
    · rintro x (_ | ⟨_, hx⟩)
      · exact .inr hs.1
      · exact hrest x hx
    · exact fun x hx => List.mem_cons_of_mem _ (hclaimed x hx)
    · -- the test's block is after this one and was not claimed, so it was not planned
      have htp : t ∉ plans.map Prod.fst := fun hx => by
        rcases hpast _ hx with hx | hx
        · exact htc hx
        · exact UInt64.lt_asymm hlt (hx b List.mem_cons_self)
      refine List.nodup_cons.2 ⟨?_, List.nodup_cons.2 ⟨htp, hnd⟩⟩
      rintro (_ | ⟨_, hx⟩)
      · exact UInt64.lt_irrefl _ hlt
      · exact hfresh hc hx
    · rintro x (_ | ⟨_, _ | ⟨_, hx⟩⟩)
      · exact .inr hs.1
      · exact .inl List.mem_cons_self
      · exact (hrest x hx).imp_left (List.mem_cons_of_mem t)
    · rintro x (_ | ⟨_, hx⟩)
      · exact List.mem_cons_of_mem _ List.mem_cons_self
      · exact List.mem_cons_of_mem _ (List.mem_cons_of_mem _ (hclaimed x hx))

/-- The plans name distinct blocks. -/
theorem nodup_plans (hs : p.blocks.Pairwise fun a b => a.address < b.address) :
    (p.plans.map Prod.fst).Nodup :=
  ((perm_sortBy _ _).map Prod.fst).nodup_iff.2
    (nodup_foldl hs List.nodup_nil (by simp) (by simp))

/-- The loops of a procedure have distinct latches. -/
theorem nodup_latches (hs : p.blocks.Pairwise fun a b => a.address < b.address) :
    (p.loopRegions.map LoopRegion.latch).Nodup :=
  (nodup_plans hs).sublist
    (List.map_filterMap_sublist (fun _ _ h => Plan.latch_of_region? h) _)

/-- Every loop of a procedure is closed by the jump of the block at its latch. -/
theorem closes_of_mem_loopRegions {r : LoopRegion} (hr : r ∈ p.loopRegions) : p.Closes r := by
  obtain ⟨x, hx, hxr⟩ := List.mem_filterMap.1 hr
  exact closes_of_foldl (fun _ hb => hb) (by simp) x ((mem_sortBy _).1 hx) r hxr

end Procedure

open Work

/-- The first stage of structuring links the blocks and applies their classes: it answers the
    plans of the linked procedure and the loops they close, and ends in any property `P` of
    those plans and the session that linking sets up and applying a class keeps. -/
theorem planLoops_runs {s : Session} {P : List (UInt64 × Plan) → Session → Prop}
    {E : Session → Prop} (hlink : Runs (edit Procedure.linkFallthroughs) s
      (fun _ s₁ => P s₁.proc.plans s₁) E)
    (happly : ∀ a pl plans s₂, P plans s₂ → Runs (applyPlan a pl) s₂ (fun _ s₂' => P plans s₂') E) :
    Runs planLoops s (fun r s' => r.2.2 = r.1.filterMap (fun x => x.2.region? x.1) ∧ P r.1 s')
      E := by
  unfold planLoops
  refine runs_bind hlink fun _ s₁ h₁ => current_bind ?_
  dsimp only
  -- the regions collected are those the classes done so far close
  refine runs_bind (runs_forIn_done (fun done acc s' =>
      acc.2 = done.filterMap (fun x => x.2.region? x.1) ∧ P s₁.proc.plans s') ⟨rfl, h₁⟩
    fun done x rest _ acc s₂ h₂ => ?_) fun acc s₃ h₃ => runs_pure _ h₃
  refine runs_bind (happly x.1 x.2 _ s₂ h₂.2) fun w s₂' h₂' => ?_
  split <;> split <;> refine runs_pure _ ⟨_, rfl, ?_, h₂'⟩ <;>
    simp_all [Option.eq_none_iff_forall_ne_some]

end Decompilation
