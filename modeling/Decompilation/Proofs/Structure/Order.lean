import Mathlib
import Decompilation.Proofs.Structure.Invariant
import Decompilation.Proofs.Structure.Layout
import Decompilation.Proofs.Structure.Chains
import Decompilation.Proofs.Structure.Check
import Decompilation.Ir.Build

/-!
# Structuring keeps the order of the statements

Structuring builds each loop by moving the statements of the blocks it spans into its body,
inner loops first. Where the loops a procedure closes nest or lie apart, no loop built earlier
spans the latch of a later one, so every closing jump is still in the block at its latch when
its loop is built, and each build takes exactly its jump out of the listing. The listing after
structuring is the listing before it, less the closing jumps.

* `Procedure.Placed`: a loop's closing jump is still listed by the block at its latch;
* `LoopBuilt.placed`: building a loop leaves placed every loop whose latch it does not span;
* `Procedure.LoopsBuilt`: what building loops one after another keeps;
* `structureFlow_keeps_listing`: with nested or disjoint loops, the listing after structuring
  is the one before, less the closing jumps;
* `structureFlow_reorders_overlapping`: two loops that overlap, whose statements it reorders.
-/

namespace Decompilation

namespace Procedure

variable {p q q' : Procedure} {r a : LoopRegion} {cond : ExprId}

/-- The closing jump of loop `r` is a jump listed by the container of the block at its latch. -/
def Placed (p : Procedure) (r : LoopRegion) : Prop :=
  ∃ b ∈ p.blocks, b.address = r.latch ∧ r.jump ∈ (p.cntrNode b.container).stmts ∧
    (p.stmtNode r.jump).kind.isJump = true

/-- A loop closed by the jump of the block at its latch is placed. -/
theorem Closes.placed (h : p.Closes r) : p.Placed r := by
  obtain ⟨-, b, hb, hba, hj⟩ := h
  obtain ⟨hmem, hjump⟩ := closingJump_eq_some hj
  exact ⟨b, hb, hba, hmem, hjump⟩

/-- The jump of a placed loop is listed by one of the containers the loop spans. -/
theorem Placed.spanned (h : p.Placed r) (hr : r.head ≤ r.latch) :
    ∃ k ∈ p.spanned r, r.jump ∈ (p.cntrNode k).stmts := by
  obtain ⟨b, hb, hba, hj, -⟩ := h
  exact ⟨b.container, List.mem_map.2 ⟨b, List.mem_filter.2 ⟨hb, by simp [hba, hr]⟩, rfl⟩, hj⟩

/-- Two placed loops with the same jump have the same latch. -/
theorem Placed.latch_eq (hp : p.WellFormed) (hr : p.Placed r) (ha : p.Placed a)
    (hj : r.jump = a.jump) : r.latch = a.latch := by
  obtain ⟨b, hb, hba, hjb, -⟩ := hr
  obtain ⟨b', hb', hba', hjb', -⟩ := ha
  rw [hj] at hjb
  obtain rfl := hp.block_eq_of_container hb hb' (hp.eq_of_mem hjb hjb')
  exact hba.symm.trans hba'

/-- A procedure with the same layout places the same loops. -/
theorem SameLayout.placed (h : p.SameLayout q) (hr : p.Placed r) : q.Placed r := by
  obtain ⟨b, hb, hba, hj, hjump⟩ := hr
  obtain ⟨b', hb', haddr, hcont⟩ := h.symm.mem_blocks hb
  refine ⟨b', hb', haddr.trans hba, ?_, ?_⟩
  · rw [hcont, h.cntrNode_stmts]
    exact hj
  · rw [h.kind]
    exact hjump

namespace LoopBuilt

variable (h : p.LoopBuilt a cond q) (hp : p.WellFormed)
include h hp

/-- Building a loop leaves placed every other loop whose latch it does not span: the moving
    statements are those of the spanned blocks, so the block at that latch keeps its jump. -/
theorem placed (hr : p.Placed r) (hout : ¬(a.head ≤ r.latch ∧ r.latch ≤ a.latch))
    (hne : r.jump ≠ a.jump) : q.Placed r := by
  obtain ⟨b, hb, hba, hj, hjump⟩ := hr
  obtain ⟨ct, hct, -⟩ := hp.roots b hb
  have hjm : r.jump ∉ p.moving a := fun hm => by
    obtain ⟨c, hc, hjc, -⟩ := mem_moving.1 hm
    obtain ⟨b', hb', rfl⟩ := List.mem_map.1 hc
    obtain ⟨hb'p, hin⟩ := List.mem_filter.1 hb'
    obtain rfl := hp.block_eq_of_container hb hb'p (hp.eq_of_mem hj hjc)
    exact hout (by simpa [hba] using hin)
  refine ⟨b, h.blocks ▸ hb, hba, ?_, ?_⟩
  · rw [h.cntrNode_stmts (freshCntr_ne_of_cntr? hct)]
    exact List.mem_map.2 ⟨r.jump, List.mem_filter.2 ⟨hj, by simpa using hjm⟩, if_neg hne⟩
  · rw [(h.stmtNode_frame hne (hp.live_of_mem hj)).1]
    exact hjump

end LoopBuilt

/-- `q` is `p` with the loops `done` built one after another, each over its placed jump: the
    arena is well-formed, the blocks are those of `p`, and a listing of `p` lost exactly the
    closing jumps. -/
structure LoopsBuilt (p : Procedure) (done : List LoopRegion) (q : Procedure) : Prop where
  wellFormed : q.WellFormed
  blocks : q.blocks = p.blocks
  listing : ∀ {l}, p.Listing l → q.Listing (l.filter (· ∉ done.map LoopRegion.jump))

namespace LoopsBuilt

variable {done : List LoopRegion}

theorem nil (hp : p.WellFormed) : p.LoopsBuilt [] p :=
  ⟨hp, rfl, fun hl => by simpa using hl⟩

/-- One more loop, built over its placed jump, takes its jump out of the listing too. -/
theorem snoc (h : p.LoopsBuilt done q) (hb : q.LoopBuilt a cond q') (ha : q.Placed a)
    (hspan : a.head ≤ a.latch) : p.LoopsBuilt (done ++ [a]) q' := by
  obtain ⟨k, hk, hj⟩ := ha.spanned hspan
  obtain ⟨-, -, -, -, hjump⟩ := ha
  refine ⟨hb.wellFormed h.wellFormed hk hj hjump, hb.blocks.trans h.blocks, fun hl => ?_⟩
  have hl' := hb.listing h.wellFormed hk hj hjump (h.listing hl)
  rw [List.filter_filter] at hl'
  convert hl' using 2
  funext x
  by_cases hx : x = a.jump <;> simp [hx]

end LoopsBuilt

end Procedure

open Procedure Work

/-- Structuring a well-formed procedure whose loops nest or lie apart keeps the order of its
    statements: the listing afterwards, loops opened, is the listing before less the jumps
    closing the loops. This holds whether structuring succeeds or fails checking the loops. -/
theorem structureFlow_keeps_listing (verify : Bool) {s : Session} (hp : s.proc.WellFormed)
    (hlam : s.proc.loopRegions.Pairwise LoopRegion.Laminar) {l : List StmtId}
    (hl : s.proc.Listing l) :
    Runs (structureFlow verify) s
      (fun _ s' => s'.proc.Listing (l.filter (· ∉ s.proc.loopRegions.map LoopRegion.jump)))
      (fun s' => s'.proc.Listing (l.filter (· ∉ s.proc.loopRegions.map LoopRegion.jump))) := by
  set L := l.filter (· ∉ s.proc.loopRegions.map LoopRegion.jump) with hL
  unfold structureFlow
  refine current_bind ?_
  split
  · next hempty =>
    have hnil : s.proc.loopRegions = [] := by
      simp [loopRegions, plans, List.isEmpty_iff.1 hempty, sortBy]
    refine runs_pure _ ?_
    simpa [hL, hnil] using hl
  refine runs_bind (planLoops_runs (P := fun plans s' => plans = s.proc.plans ∧
      s.proc.SameLayout s'.proc)
    (edit_runs (P := fun _ q => q.plans = s.proc.plans ∧ s.proc.SameLayout q)
      (F := fun q => q.Listing L) (runs_mono (linkFallthroughs_relinked s.proc)
      (fun _ _ h => ⟨h.plans_eq, h.sameLayout⟩) fun _ h => h.elim))
    fun a pl _ s₂ h₂ => runs_mono (applyPlan_sameLayout s₂ a pl)
      (fun _ _ h => ⟨h₂.1, h₂.2.trans h⟩) fun _ h => h.elim) fun r s₃ h₃ => ?_
  -- the loops found are those the plans close; they are built in order, inner loops first
  obtain ⟨plans, warnings, regions⟩ := r
  obtain ⟨hregions, rfl, h₃⟩ := h₃
  dsimp only at hregions ⊢
  change regions = s.proc.loopRegions at hregions
  rw [hregions]
  simp only [buildLoops, bind_pure_unit]
  set ordered := sortBy LoopRegion.before s.proc.loopRegions with hordered
  have hcloses : ∀ r ∈ ordered, s.proc.Closes r := fun r hr =>
    closes_of_mem_loopRegions ((mem_sortBy _).1 hr)
  have hout : ordered.Pairwise fun a b => ¬(a.head ≤ b.latch ∧ b.latch ≤ a.latch) :=
    LoopRegion.pairwise_outside hlam (nodup_latches hp.sorted) fun r hr =>
      (closes_of_mem_loopRegions hr).1
  refine runs_bind (runs_forIn_done (fun done _ s' => s₃.proc.LoopsBuilt done s'.proc ∧
      ∀ rest, ordered = done ++ rest → ∀ r ∈ rest, s'.proc.Placed r)
    ⟨.nil (h₃.wellFormed hp), fun rest hrest r hr =>
      h₃.placed (hcloses r (by simp [hrest, hr])).placed⟩
    fun done a rest hsplit _ s₄ h₄ => ?_) fun _ s₅ h₅ => ?_
  · obtain ⟨h₄, hplaced⟩ := h₄
    have ha := hplaced (a :: rest) hsplit a List.mem_cons_self
    have hspan : a.head ≤ a.latch := (hcloses a (by simp [hsplit])).1
    obtain ⟨k, hk, hj⟩ := ha.spanned hspan
    have hjump : (s₄.proc.stmtNode a.jump).kind.isJump = true := by
      obtain ⟨-, -, -, -, hjump⟩ := ha
      exact hjump
    refine runs_bind (edit_runs (F := fun q => q.Listing L)
      (runs_mono (buildLoop_built h₄.wellFormed hj hjump)
      (fun _ _ h => h) fun _ h => h.elim)) fun _ s₄' hb => ?_
    obtain ⟨cond, hb⟩ := hb
    refine current_bind (record_bind _ (runs_pure _ ⟨_, rfl, h₄.snoc hb ha hspan,
      fun rest' hrest' r hr => ?_⟩))
    obtain rfl : rest' = rest := (by simpa [hsplit] using hrest' : rest = rest').symm
    -- a loop built later lies outside `a`, so its jump is another one and stays placed
    have har : ¬(a.head ≤ r.latch ∧ r.latch ≤ a.latch) := by
      rw [hsplit, List.pairwise_append, List.pairwise_cons] at hout
      exact hout.2.1.1 r hr
    have hr₄ := hplaced (a :: rest') hsplit r (List.mem_cons_of_mem a hr)
    refine hb.placed h₄.wellFormed hr₄ har fun hja => har ?_
    have hlatch := hr₄.latch_eq h₄.wellFormed ha hja
    exact ⟨hlatch ▸ hspan, hlatch ▸ UInt64.le_refl _⟩
  · -- every jump built is one of the loops', and checking the loops changes nothing but the log
    have hlist : s₅.proc.Listing L := by
      have := h₅.1.listing (h₃.listing hl)
      convert this using 2
      funext x
      simp [ordered, (perm_sortBy LoopRegion.before s.proc.loopRegions).map
        LoopRegion.jump |>.mem_iff]
    split
    · exact runs_bind (runs_mono (checkLoops_runs _) (fun _ _ h => h ▸ hlist) fun _ h => h ▸ hlist)
        fun _ _ h => runs_pure _ h
    · exact runs_pure _ hlist

/-- Two nested loops: `a = 1` at 0x10; `b = 2; goto 0x20` at 0x20; `c = 3; goto 0x10` at 0x30. -/
def nestedLoops : ProcedureSpec :=
  { address := 16, blocks := [
    { address := 16, fail := some 32,
      stmts := [.assign none (.node (.reg "a" 32) {} []) (.node (.val 1 32) {} [])] },
    { address := 32, jump := some 32, fail := some 48,
      stmts := [.assign none (.node (.reg "b" 32) {} []) (.node (.val 2 32) {} []),
        .goto none (.node (.val 32 32) {} [])] },
    { address := 48, jump := some 16,
      stmts := [.assign none (.node (.reg "c" 32) {} []) (.node (.val 3 32) {} []),
        .goto none (.node (.val 16 32) {} [])] }] }

theorem structureFlow_keeps_listing_nested :
    ∃ p, nestedLoops.build = .ok p ∧ p.WellFormed ∧
      p.loopRegions.Pairwise LoopRegion.Laminar ∧ p.Listing [⟨0⟩, ⟨1⟩, ⟨2⟩, ⟨3⟩, ⟨4⟩] ∧
      Runs (structureFlow true) { proc := p }
        (fun _ s' => s'.proc.Listing ([⟨0⟩, ⟨1⟩, ⟨2⟩, ⟨3⟩, ⟨4⟩].filter
          (· ∉ p.loopRegions.map LoopRegion.jump)))
        (fun s' => s'.proc.Listing ([⟨0⟩, ⟨1⟩, ⟨2⟩, ⟨3⟩, ⟨4⟩].filter
          (· ∉ p.loopRegions.map LoopRegion.jump))) := by
  obtain ⟨p, hb, hforest, hlam, hflat⟩ := exists_ok_of_any (x := nestedLoops.build)
    (P := fun p => p.Forest ∧ p.loopRegions.Pairwise LoopRegion.Laminar ∧
      p.flatten? 1 p.blockStmts = some [⟨0⟩, ⟨1⟩, ⟨2⟩, ⟨3⟩, ⟨4⟩]) (by decide +kernel)
  have hl : p.Listing [⟨0⟩, ⟨1⟩, ⟨2⟩, ⟨3⟩, ⟨4⟩] := flat_of_flatten? hflat
  have key := structureFlow_keeps_listing true (s := { proc := p }) hforest.wellFormed hlam hl
  refine ⟨p, hb, hforest.wellFormed, hlam, hl, ?_⟩
  exact key

/-- Two loops that overlap without nesting: `a = 1` at 0x10, `b = 2` at 0x20,
    `c = 3; goto 0x10` at 0x30 and `d = 4; goto 0x20` at 0x38. -/
def overlappingLoops : ProcedureSpec :=
  { address := 16, blocks := [
    { address := 16, stmts := [.assign none (.node (.reg "a" 32) {} []) (.node (.val 1 32) {} [])] },
    { address := 32, stmts := [.assign none (.node (.reg "b" 32) {} []) (.node (.val 2 32) {} [])] },
    { address := 48, jump := some 16,
      stmts := [.assign none (.node (.reg "c" 32) {} []) (.node (.val 3 32) {} []),
        .goto none (.node (.val 16 32) {} [])] },
    { address := 56, jump := some 32,
      stmts := [.assign none (.node (.reg "d" 32) {} []) (.node (.val 4 32) {} []),
        .goto none (.node (.val 32 32) {} [])] }] }

/-- Where loops overlap, the order is not kept: the shorter loop, 0x20 to 0x38, is built first
    and takes `b`, `c` and the jump closing the other loop into its body; that loop is then
    built inside it, around `a` alone, so the listing is `b, c, a, d`. -/
theorem structureFlow_reorders_overlapping :
    ∃ p, overlappingLoops.build = .ok p ∧ p.WellFormed ∧
      p.Listing [⟨0⟩, ⟨1⟩, ⟨2⟩, ⟨3⟩, ⟨4⟩, ⟨5⟩] ∧
      ¬Runs (structureFlow false) { proc := p }
        (fun _ s' => s'.proc.Listing ([⟨0⟩, ⟨1⟩, ⟨2⟩, ⟨3⟩, ⟨4⟩, ⟨5⟩].filter
          (· ∉ p.loopRegions.map LoopRegion.jump)))
        (fun _ => True) := by
  obtain ⟨p, hb, hforest, hflat, hjumps, hok, hafter⟩ := exists_ok_of_any
    (x := overlappingLoops.build) (P := fun p => p.Forest ∧
      p.flatten? 1 p.blockStmts = some [⟨0⟩, ⟨1⟩, ⟨2⟩, ⟨3⟩, ⟨4⟩, ⟨5⟩] ∧
      p.loopRegions.map LoopRegion.jump = [⟨3⟩, ⟨5⟩] ∧
      ((structureFlow false).run.run { proc := p }).1.isOk = true ∧
      ((structureFlow false).run.run { proc := p }).2.proc.flatten? 3
        ((structureFlow false).run.run { proc := p }).2.proc.blockStmts =
          some [⟨1⟩, ⟨2⟩, ⟨0⟩, ⟨4⟩]) (by decide +kernel)
  refine ⟨p, hb, hforest.wellFormed, flat_of_flatten? hflat, fun hrun => ?_⟩
  -- the run succeeds and lists `b, c, a, d`, which is not `a, b, c, d`
  rcases hm : (structureFlow false).run.run { proc := p } with ⟨_ | rep, s'⟩
  · rw [hm] at hok
    cases hok
  · rw [hm] at hafter
    unfold Runs at hrun
    rw [hm, hjumps] at hrun
    have := (flat_of_flatten? hafter).unique hrun
    simp at this

end Decompilation
