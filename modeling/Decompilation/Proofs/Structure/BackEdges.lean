import Mathlib
import Decompilation.Proofs.Structure.Flow
import Decompilation.Proofs.Graph.Frontier
import Decompilation.Proofs.Graph.Adjacency
import Decompilation.Proofs.Structure.Moves
import Decompilation.Proofs.Structure.Check
import Decompilation.Proofs.Structure.Regions
import Decompilation.Ir.Build

/-!
# Checking loops against the dominators

On request, structuring checks every loop it built against the dominator tree of the control
flow graph and warns about each loop whose head does not dominate its latch. A region of
blocks that control enters only at one block is dominated by that block, so a loop entered
only at its head is never warned about. A loop tested at its start is built from a jump into
its test, at the latch: entered there, its head does not dominate the latch, and the check
warns about it although it is a loop.

* `Digraph.EnteredOnlyAt`: the nodes whose keys satisfy a predicate are entered only at the
  node with a given key;
* `Digraph.EnteredOnlyAt.dominates`: that node dominates every node of the region that the
  root reaches;
* `Session.Logs`: the events a run adds all satisfy a predicate;
* `structureFlow_logs`: structuring keeps the control flow, and every warning it records is
  about the latch of a loop that the dominators do not confirm;
* `structureFlow_quiet_of_entered`: no warning is recorded about a loop entered only at its
  head;
* `structureFlow_warns_entered_at_test`: a loop tested at its start, entered at its test, is
  warned about.
-/

namespace Decompilation

namespace Digraph

variable {K : Type} {g : Digraph K}

/-- In `g`, the nodes whose keys satisfy `S` are entered only at the node with key `k`: the
    root, if its key satisfies `S`, has key `k`, and an edge from a node whose key does not
    satisfy `S` to one whose key does ends at the node with key `k`. -/
def EnteredOnlyAt (g : Digraph K) (S : K → Prop) (k : K) : Prop :=
  (∀ r ∈ g.root, ∀ a ∈ g.key? r, S a → a = k) ∧
    ∀ i < g.bound, ∀ j ∈ g.succs i, ∀ a ∈ g.key? i, ∀ b ∈ g.key? j, ¬S a → S b → b = k

instance [DecidableEq K] {S : K → Prop} [DecidablePred S] {k : K} :
    Decidable (g.EnteredOnlyAt S k) :=
  inferInstanceAs (Decidable (_ ∧ _))

/-- A path into a set of nodes that is entered only at nodes with `V` passes one of them: the
    first node of the path inside the set is its source or ends an edge from outside. -/
theorem Path.enters {S V : Nat → Prop} (hin : ∀ i j, j ∈ g.succs i → ¬S i → S j → V j)
    {a c : Nat} {p : List Nat} (h : g.Path a c p) (hc : S c) (ha : S a → V a) :
    ∃ v ∈ p, V v := by
  induction h with
  | single a => exact ⟨a, List.mem_singleton_self a, ha hc⟩
  | @cons a b c p hab _ ih =>
    by_cases hSa : S a
    · exact ⟨a, List.mem_cons_self, ha hSa⟩
    · obtain ⟨v, hv, hV⟩ := ih hc (hin a b hab hSa)
      exact ⟨v, List.mem_cons_of_mem a hv, hV⟩

/-- A node reached along an edge from a live node is live, and so has a key. -/
theorem Exact.keys_of_mem_succs (hg : g.Exact) {i j : Nat} (h : j ∈ g.succs i) :
    i < g.bound ∧ (∃ a, g.key? i = some a) ∧ ∃ b, g.key? j = some b := by
  obtain ⟨v, hv, hrem, -⟩ := mem_succs_iff.1 h
  have hj : (g.key? j).isSome := by rw [isSome_key?]; exact hg.live_of_mem_succs h
  exact ⟨(Array.getElem?_eq_some_iff.1 hv).1, ⟨v.key, key?_eq_some_iff.2 ⟨v, hv, hrem, rfl⟩⟩,
    Option.isSome_iff_exists.1 hj⟩

variable [DecidableEq K]

/-- A region entered only at the node with key `k`: that node dominates every node of the
    region the root reaches. -/
theorem EnteredOnlyAt.dominates {S : K → Prop} {k : K} (he : g.EnteredOnlyAt S k)
    (hg : g.Exact) {r l : Nat} {a : K} (hr : g.root = some r) (hl : g.key? l = some a) (ha : S a)
    (hreach : g.Reaches r l) : ∃ h, g.find? k = some h ∧ g.Dominates r h l := by
  -- the region as a set of nodes, and its entries
  let inS : Nat → Prop := fun i => ∃ a ∈ g.key? i, S a
  have hin : ∀ i j, j ∈ g.succs i → ¬inS i → inS j → g.key? j = some k := by
    rintro i j hij hi ⟨b, hb, hSb⟩
    obtain ⟨hbound, ⟨a', ha'⟩, -⟩ := hg.keys_of_mem_succs hij
    have hSa' : ¬S a' := fun h' => hi ⟨a', ha', h'⟩
    rw [Option.mem_def] at hb
    rw [hb, he.2 i hbound j hij a' ha' b hb hSa' hSb]
  have hroot : inS r → g.key? r = some k := by
    rintro ⟨b, hb, hSb⟩
    rw [Option.mem_def] at hb
    rw [hb, he.1 r hr b hb hSb]
  have hl' : inS l := ⟨a, hl, ha⟩
  obtain ⟨p, hp⟩ := hreach
  obtain ⟨h, -, hh⟩ := Path.enters hin hp hl' hroot
  refine ⟨h, (hg.find?_iff).2 hh, .inr ⟨⟨p, hp⟩, fun p' hp' => ?_⟩⟩
  -- every path passes an entry, and there is one node with key `k`
  obtain ⟨h', hh'mem, hh'⟩ := Path.enters hin hp' hl' hroot
  rwa [hg.key_unique hh' hh] at hh'mem

end Digraph

/-! ### The events of a run -/

namespace Session

/-- The events added on the way from `s` to `s'` all satisfy `P`: the log of `s'` is that of
    `s` followed by such events. -/
def Logs (P : Event → Prop) (s s' : Session) : Prop :=
  ∃ new, s'.log.events = s.log.events ++ new ∧ ∀ e ∈ new, P e

namespace Logs

variable {P Q : Event → Prop} {s s' s'' : Session}

theorem of_log_eq (h : s'.log = s.log) : s.Logs P s' := ⟨[], by simp [h], by simp⟩

theorem trans (h : s.Logs P s') (h' : s'.Logs P s'') : s.Logs P s'' := by
  obtain ⟨n, hn, hP⟩ := h
  obtain ⟨n', hn', hP'⟩ := h'
  refine ⟨n ++ n', by rw [hn', hn, List.append_assoc], fun e he => ?_⟩
  rcases List.mem_append.1 he with he | he
  · exact hP e he
  · exact hP' e he

theorem mono (h : s.Logs P s') (hPQ : ∀ e, P e → Q e) : s.Logs Q s' := by
  obtain ⟨n, hn, hP⟩ := h
  exact ⟨n, hn, fun e he => hPQ e (hP e he)⟩

theorem record {e : Event} (he : P e) : s.Logs P { s with log := s.log.record e } :=
  ⟨[e], by simp, by simpa using he⟩

end Logs

end Session

open Procedure Work

/-- An edit keeps the log. -/
theorem edit_log {α : Type} (m : Edit α) (s : Session) :
    Runs (edit m) s (fun _ s' => s'.log = s.log) (fun s' => s'.log = s.log) := by
  unfold edit
  refine runs_get_bind ?_
  rcases (ExceptT.run m).run s.proc with ⟨_ | a, p'⟩ <;> rfl

/-- Recording a block's class adds no warning: it notes linked branches and unresolved
    jumps. -/
theorem applyPlan_logs (s : Session) (address : UInt64) (plan : Plan) :
    Runs (applyPlan address plan) s (fun _ s' => s.Logs (·.kind ≠ .warning) s')
      (fun _ => False) := by
  unfold applyPlan
  refine current_bind ?_
  cases plan.shape <;> simp only [pure_bind]
  case branch =>
    exact record_bind _ (runs_modify_bind (runs_pure _ (Session.Logs.record (by simp))))
  case unresolved =>
    refine record_bind _ ?_
    split
    · exact runs_modify_bind (runs_modify_bind (runs_pure _ (Session.Logs.record (by simp))))
    · exact runs_modify_bind (runs_pure _ (Session.Logs.record (by simp)))
  all_goals exact runs_modify_bind (runs_pure _ (.of_log_eq rfl))

/-- Event `e`, if a warning, is about the latch of a loop of `regions` that the dominator tree
    of the control flow graph of `p` does not confirm. -/
def WarnsUnconfirmed (p : Procedure) (regions : List LoopRegion) (e : Event) : Prop :=
  e.kind = .warning → ∃ r ∈ regions, e.location = some r.latch ∧
    ∃ g t, p.cfg = .ok g ∧ DominatorTree.compute g = .ok t ∧ r.confirmed g t = false

/-- Checking loops warns only about the latches of the loops that the dominators do not
    confirm, and changes nothing else; when it fails, it has recorded nothing. -/
theorem checkLoops_logs (regions : List LoopRegion) (s : Session) :
    Runs (checkLoops regions) s
      (fun _ s' => s'.proc = s.proc ∧ s.Logs (WarnsUnconfirmed s.proc regions) s')
      (fun s' => s'.proc = s.proc ∧ s'.log = s.log) := by
  unfold checkLoops
  refine current_bind (runs_bind (lift_runs (Q := fun g s' => s' = s ∧ s.proc.cfg = .ok g)
    (fun g hg => ⟨rfl, hg⟩) ⟨rfl, rfl⟩) fun g s₁ h₁ => ?_)
  obtain ⟨rfl, hg⟩ := h₁
  refine runs_bind (lift_runs (Q := fun t s' => s' = s₁ ∧ DominatorTree.compute g = .ok t)
    (fun t ht => ⟨rfl, ht⟩) ⟨rfl, rfl⟩) fun t s₂ h₂ => ?_
  obtain ⟨rfl, ht⟩ := h₂
  refine runs_bind (runs_forIn_inv (fun _ s' => s'.proc = s₂.proc ∧
      s₂.Logs (WarnsUnconfirmed s₂.proc regions) s') ⟨rfl, .of_log_eq rfl⟩
    fun r hr _ s₃ h₃ => ?_) fun _ _ h => runs_pure _ h
  dsimp only
  -- a loop left unconfirmed is recorded with its warning, at its latch
  refine runs_ite (fun hc => record_bind _ (runs_pure _ ⟨h₃.1, h₃.2.trans (.record ?_)⟩))
    fun _ => runs_pure _ h₃
  exact fun _ => ⟨r, hr, rfl, g, t, hg, ht, by simpa using hc⟩

/-- An edit that keeps the flow keeps it in the session, and keeps the log. -/
theorem edit_keepsFlow {α : Type} {m : Edit α} (hm : KeepsFlow m) (s : Session) :
    Runs (edit m) s (fun _ s' => s.proc.SameFlow s'.proc ∧ s'.log = s.log)
      (fun s' => s.proc.SameFlow s'.proc ∧ s'.log = s.log) :=
  runs_and (edit_runs (hm s.proc)) (edit_log m s)

/-- Structuring keeps the control flow, and every warning it records is about the latch of one
    of the procedure's loops that the dominators of its control flow graph do not confirm,
    whether it succeeds or fails. -/
theorem structureFlow_logs (verify : Bool) (s : Session) :
    Runs (structureFlow verify) s
      (fun _ s' => s.proc.SameFlow s'.proc ∧
        s.Logs (WarnsUnconfirmed s.proc s.proc.loopRegions) s')
      (fun s' => s.proc.SameFlow s'.proc ∧
        s.Logs (WarnsUnconfirmed s.proc s.proc.loopRegions) s') := by
  have hquiet : ∀ e : Event, e.kind ≠ .warning →
      WarnsUnconfirmed s.proc s.proc.loopRegions e := fun e he hw => (he hw).elim
  unfold structureFlow
  refine current_bind ?_
  split
  · exact runs_pure _ ⟨.refl _, .of_log_eq rfl⟩
  -- linking changes the containers' links only, and each block's class is recorded with no
  -- warning
  refine runs_bind (planLoops_runs (P := fun plans s' => plans = s.proc.plans ∧
      s.proc.SameFlow s'.proc ∧ s.Logs (·.kind ≠ .warning) s')
    (runs_mono (runs_and (edit_runs (linkFallthroughs_relinked s.proc)) (edit_log _ s))
      (fun _ _ h => ⟨h.1.plans_eq, h.1.sameFlow, .of_log_eq h.2⟩) fun _ h => h.1.elim)
    fun a pl _ s₂ h₂ => runs_mono (runs_and (applyPlan_sameLayout s₂ a pl)
      (applyPlan_logs s₂ a pl)) (fun _ _ h => ⟨h₂.1, h₂.2.1.trans h.1.sameFlow, h₂.2.2.trans h.2⟩)
      fun _ h => h.1.elim) fun r s₃ h₃ => ?_
  obtain ⟨plans, warnings, regions⟩ := r
  obtain ⟨hregions, rfl, h₃, hl₃⟩ := h₃
  dsimp only at hregions ⊢
  change regions = s.proc.loopRegions at hregions
  rw [hregions]
  simp only [buildLoops, bind_pure_unit]
  -- the loops are built, each noted with no warning
  refine runs_bind (runs_forIn_inv (fun _ s' => s.proc.SameFlow s'.proc ∧
      s.Logs (·.kind ≠ .warning) s') ⟨h₃, hl₃⟩ fun r _ _ s₄ h₄ => ?_) fun _ s₅ h₅ => ?_
  · refine runs_bind (runs_mono (edit_keepsFlow (buildLoop_keepsFlow r) s₄) (fun _ _ h => h)
      fun _ h => ⟨h₄.1.trans h.1, (h₄.2.trans (.of_log_eq h.2)).mono hquiet⟩) fun _ s₄' h₄' => ?_
    exact current_bind (record_bind _ (runs_pure _ ⟨h₄.1.trans h₄'.1,
      h₄.2.trans ((Session.Logs.of_log_eq h₄'.2).trans (.record (by simp)))⟩))
  -- the check warns about the loops it does not confirm, on the graph of the procedure
  have hcheck : ∀ e, WarnsUnconfirmed s₅.proc (sortBy LoopRegion.before s.proc.loopRegions) e →
      WarnsUnconfirmed s.proc s.proc.loopRegions e := by
    intro e he hw
    obtain ⟨r, hr, hloc, g, t, hg, ht, hc⟩ := he hw
    exact ⟨r, (mem_sortBy _).1 hr, hloc, g, t, cfg_eq_of_sameFlow h₅.1.symm hg, ht, hc⟩
  split
  · refine runs_bind (runs_mono (checkLoops_logs _ s₅)
      (fun _ _ h => ⟨h₅.1.trans (.of_eq (congrArg _ h.1) (congrArg _ h.1)),
        (h₅.2.mono hquiet).trans (h.2.mono hcheck)⟩)
      fun _ h => ⟨h₅.1.trans (.of_eq (congrArg _ h.1) (congrArg _ h.1)),
        (h₅.2.mono hquiet).trans (.of_log_eq h.2)⟩) fun _ _ h => runs_pure _ h
  · exact runs_pure _ ⟨h₅.1, h₅.2.mono hquiet⟩

/-- The dominators confirm a loop entered only at its head whose latch the root reaches: the
    latch is reachable, and its head dominates it. -/
theorem LoopRegion.confirmed_of_enteredOnlyAt {r : LoopRegion} {g : Digraph UInt64}
    {t : DominatorTree} {r₀ l : Nat} (hg : g.Built) (hr₀ : g.root = some r₀)
    (ht : DominatorTree.TreeOf g r₀ t) (hspan : r.head ≤ r.latch)
    (he : g.EnteredOnlyAt (fun a => r.head ≤ a ∧ a ≤ r.latch) r.head)
    (hl : g.find? r.latch = some l) (hreach : g.Reaches r₀ l) : r.confirmed g t = true := by
  have hex := hg.exact
  obtain ⟨h, hh, hdom⟩ :=
    he.dominates hex hr₀ (hex.find?_iff.1 hl) ⟨hspan, UInt64.le_refl _⟩ hreach
  simp [LoopRegion.confirmed, hh, hl, (ht.reachable l).2 hreach, (ht.dominates h l).2 hdom]

/-- Structuring with the check records no warning about a loop that control enters only at its
    head, when its latch can be reached: whether it succeeds or fails, every warning it adds is
    about another block. -/
theorem structureFlow_quiet_of_entered {s : Session}
    (hs : s.proc.blocks.Pairwise fun a b => a.address < b.address) {r : LoopRegion}
    (hr : r ∈ s.proc.loopRegions) {g : Digraph UInt64} (hg : s.proc.cfg = .ok g)
    (he : g.EnteredOnlyAt (fun a => r.head ≤ a ∧ a ≤ r.latch) r.head)
    (hreach : ∃ r₀ l, g.root = some r₀ ∧ g.find? r.latch = some l ∧ g.Reaches r₀ l) :
    Runs (structureFlow true) s
      (fun _ s' => s.Logs (fun e => e.kind = .warning → e.location ≠ some r.latch) s')
      (fun s' => s.Logs (fun e => e.kind = .warning → e.location ≠ some r.latch) s') := by
  obtain ⟨r₀, l, hr₀, hl, hrl⟩ := hreach
  have hbuilt := cfg_built hg
  have hconf : ∀ t, DominatorTree.compute g = .ok t → r.confirmed g t = true := fun t ht =>
    LoopRegion.confirmed_of_enteredOnlyAt hbuilt hr₀
      (DominatorTree.treeOf_compute hbuilt hr₀ ht).1 (closes_of_mem_loopRegions hr).1 he hl hrl
  -- a warning at the latch would be about a loop with that latch, which is this one
  have hquiet : ∀ e, WarnsUnconfirmed s.proc s.proc.loopRegions e →
      e.kind = .warning → e.location ≠ some r.latch := by
    intro e hw hk hloc
    obtain ⟨r', hr', hloc', g', t, hg', ht, hc⟩ := hw hk
    have hlatch : r'.latch = r.latch := Option.some.inj (hloc'.symm.trans hloc)
    obtain rfl : r' = r := List.inj_on_of_nodup_map (nodup_latches hs) hr' hr hlatch
    obtain rfl : g' = g := Except.ok.inj (hg'.symm.trans hg)
    rw [hconf t ht] at hc
    cases hc
  exact runs_mono (structureFlow_logs true s) (fun _ _ h => h.2.mono hquiet)
    fun _ h => h.2.mono hquiet

/-- A loop entered at its head: 0x10 leaves to 0x30 or goes on to 0x20, which sets `a` and jumps
    back to 0x10. -/
def loopEnteredAtHead : ProcedureSpec :=
  { address := 16, blocks := [
    { address := 16, jump := some 48, fail := some 32,
      stmts := [.branch none (.node (.reg "c" 1) {} []) (.node (.val 48 32) {} [])
        (.node (.val 32 32) {} [])] },
    { address := 32, jump := some 16,
      stmts := [.assign none (.node (.reg "a" 32) {} []) (.node (.val 1 32) {} []),
        .goto none (.node (.val 16 32) {} [])] },
    { address := 48, stmts := [.ret none none] }] }

theorem structureFlow_quiet_of_entered_at_head :
    ∃ p g r, loopEnteredAtHead.build = .ok p ∧
      (p.blocks.Pairwise fun a b => a.address < b.address) ∧ r ∈ p.loopRegions ∧
      p.cfg = .ok g ∧ g.EnteredOnlyAt (fun a => r.head ≤ a ∧ a ≤ r.latch) r.head ∧
      (∃ r₀ l, g.root = some r₀ ∧ g.find? r.latch = some l ∧ g.Reaches r₀ l) ∧
      Runs (structureFlow true) { proc := p }
        (fun _ s' => Session.Logs (fun e => e.kind = .warning → e.location ≠ some r.latch)
          { proc := p } s')
        (fun s' => Session.Logs (fun e => e.kind = .warning → e.location ≠ some r.latch)
          { proc := p } s') := by
  obtain ⟨p, hb, hs, hcheck⟩ := exists_ok_of_any (x := loopEnteredAtHead.build)
    (P := fun p => (p.blocks.Pairwise fun a b => a.address < b.address) ∧
      (p.cfg.toOption.any fun g => decide (∃ r ∈ p.loopRegions,
        g.EnteredOnlyAt (fun a => r.head ≤ a ∧ a ≤ r.latch) r.head ∧ g.root = some 0 ∧
        g.find? r.latch = some 1 ∧ ((DominatorTree.compute g).toOption.any fun t =>
          decide (t.isReachable 1 = true)) = true)) = true) (by decide +kernel)
  obtain ⟨g, hg, r, hr, he, hroot, hl, hcompute⟩ := exists_ok_of_any hcheck
  obtain ⟨t, ht, hrt⟩ := exists_ok_of_any hcompute
  -- the latch is reached, as the dominator tree computed for the graph says
  have hreach : g.Reaches 0 1 :=
    ((DominatorTree.treeOf_compute (cfg_built hg) hroot ht).1.reachable 1).1 hrt
  have key := structureFlow_quiet_of_entered (s := { proc := p }) hs hr hg he
    ⟨0, 1, hroot, hl, hreach⟩
  exact ⟨p, g, r, hb, hs, hr, hg, he, ⟨0, 1, hroot, hl, hreach⟩, key⟩

/-- A loop tested at its start, entered at its test: 0x10 jumps to the test at 0x30, which
    branches back to the body at 0x20 or leaves to 0x40. -/
def loopEnteredAtTest : ProcedureSpec :=
  { address := 16, blocks := [
    { address := 16, jump := some 48, stmts := [.goto none (.node (.val 48 32) {} [])] },
    { address := 32, fail := some 48,
      stmts := [.assign none (.node (.reg "a" 32) {} []) (.node (.val 1 32) {} [])] },
    { address := 48, jump := some 32, fail := some 64,
      stmts := [.branch none (.node (.reg "c" 1) {} []) (.node (.val 32 32) {} [])
        (.node (.val 64 32) {} [])] },
    { address := 64, stmts := [.ret none none] }] }

/-- A loop tested at its start is entered at its test, the latch: control enters its range only
    there, and reaches it, yet the check warns about it, as its head does not dominate the
    latch. -/
theorem structureFlow_warns_entered_at_test :
    ∃ p g r, loopEnteredAtTest.build = .ok p ∧ p.cfg = .ok g ∧ r ∈ p.loopRegions ∧
      r.preTested = true ∧ g.EnteredOnlyAt (fun a => r.head ≤ a ∧ a ≤ r.latch) r.latch ∧
      (∃ r₀ l, g.root = some r₀ ∧ g.find? r.latch = some l ∧ g.Reaches r₀ l) ∧
      ¬Runs (structureFlow true) { proc := p }
        (fun _ s' => Session.Logs (fun e => e.kind = .warning → e.location ≠ some r.latch)
          { proc := p } s')
        (fun _ => True) := by
  obtain ⟨p, hb, hcheck⟩ := exists_ok_of_any (x := loopEnteredAtTest.build)
    (P := fun p => (p.cfg.toOption.any fun g => decide (∃ r ∈ p.loopRegions,
      r.preTested = true ∧ g.EnteredOnlyAt (fun a => r.head ≤ a ∧ a ≤ r.latch) r.latch ∧
      g.root = some 0 ∧ g.find? r.latch = some 2 ∧ ((DominatorTree.compute g).toOption.any
        fun t => decide (t.isReachable 2 = true)) = true ∧
      ((structureFlow true).run.run { proc := p }).1.isOk = true ∧
      (((structureFlow true).run.run { proc := p }).2.log.events.any fun e =>
        e.kind == .warning && e.location == some r.latch) = true)) = true) (by decide +kernel)
  obtain ⟨g, hg, r, hr, hpre, he, hroot, hl, hcompute, hok, hwarn⟩ := exists_ok_of_any hcheck
  obtain ⟨t, ht, hrt⟩ := exists_ok_of_any hcompute
  have hreach : g.Reaches 0 2 :=
    ((DominatorTree.treeOf_compute (cfg_built hg) hroot ht).1.reachable 2).1 hrt
  refine ⟨p, g, r, hb, hg, hr, hpre, he, ⟨0, 2, hroot, hl, hreach⟩, fun hrun => ?_⟩
  -- the run succeeds and its log holds a warning at the latch
  rcases hm : (structureFlow true).run.run { proc := p } with ⟨_ | rep, s'⟩
  · rw [hm] at hok
    cases hok
  · rw [hm] at hwarn
    unfold Runs at hrun
    rw [hm] at hrun
    obtain ⟨new, hnew, hall⟩ := hrun
    obtain ⟨e, he', hwe⟩ := List.any_eq_true.1 hwarn
    simp only [Bool.and_eq_true, beq_iff_eq] at hwe
    simp only [List.nil_append] at hnew
    exact hall e (hnew ▸ he') hwe.1 hwe.2

end Decompilation
