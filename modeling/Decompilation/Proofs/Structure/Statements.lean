import Mathlib
import Decompilation.Proofs.Structure.Reach
import Decompilation.Proofs.Structure.Order
import Decompilation.Proofs.Structure.Flow
import Decompilation.Proofs.Graph.TreeQueries
import Decompilation.Proofs.Graph.Dominators

/-!
# Structuring keeps the statements

Structuring builds the loops one after another, the shorter first, whether they nest or
overlap. A loop built later may find its closing jump no longer listed by the block at its latch:
a loop built before took it into its body. The jump then still hangs below the container of a
block no earlier than that latch, and below the latch's own container only where that container
lists it (`Procedure.Hung`). So no statement the loop moves encloses its jump, and the build is
sound. Structuring a well-formed procedure therefore never fails, and it keeps every statement
the blocks reach but the closing jumps, each replaced by its loop.

* `Procedure.cfg_eq_ok`, `checkLoops_ok`: the graph of a procedure with blocks is built, so
  checking the loops does not fail;
* `Procedure.Hung`, `Procedure.LoopBuilt.hung`: where a closing jump hangs while loops are
  built, and that one build keeps it so;
* `Procedure.Restructured`, `Procedure.Building`: what structuring keeps, and what building the
  loops one after another keeps;
* `structureFlow_keeps_statements`: structuring a well-formed procedure succeeds and keeps its
  statements, whatever its loops.
-/

namespace Decompilation

/-- A loop in `Except` whose every round goes on and keeps `I`, followed by a step that succeeds
    from every state with `I`, succeeds. -/
theorem exists_forIn_bind_eq_ok {ε α β γ : Type} {l : List α} {b : β}
    {f : α → β → Except ε (ForInStep β)} {k : β → Except ε γ} {Q : γ → Prop} (I : β → Prop)
    (hb : I b) (hf : ∀ a ∈ l, ∀ b, I b → ∃ r, f a b = .ok r ∧ ∃ b', r = .yield b' ∧ I b')
    (hk : ∀ b, I b → ∃ c, k b = .ok c ∧ Q c) : ∃ c, (forIn l b f >>= k) = .ok c ∧ Q c := by
  induction l generalizing b with
  | nil => exact hk b hb
  | cons a l ih =>
    obtain ⟨r, hr, b', rfl, hb'⟩ := hf a List.mem_cons_self b hb
    rw [List.forIn_cons, hr]
    exact ih hb' fun a ha => hf a (List.mem_cons_of_mem _ ha)

namespace Digraph

variable {K : Type} [DecidableEq K] {g : Digraph K} {k : K}

theorem require_eq_ok {i : Nat} (h : g.find? k = some i) (role : String) :
    g.require k role = .ok i := by
  simp [require, h]

/-- A key of the list has a node in the graph made of the list. -/
theorem exists_find?_ofKeys {ks : List K} (hk : k ∈ ks) :
    ∃ i, (ofKeys ks).find? k = some i := by
  rcases h : (ofKeys ks).find? k with _ | i
  · obtain ⟨j, hj⟩ := List.mem_iff_getElem?.1 hk
    exact absurd (mem_index_ofKeys.2 hj) (find?_eq_none_iff.1 h j)
  · exact ⟨i, rfl⟩

end Digraph

namespace Procedure

variable {p q q' : Procedure} {r a : LoopRegion} {cond : ExprId}

/-! ### The graph is built -/

/-- The control flow graph of a well-formed procedure with blocks is built, with a root: a node
    for each block, whose addresses are distinct since they increase, edges between blocks, and
    the entry, a block, as root. -/
theorem cfg_eq_ok (hp : p.WellFormed) (hne : p.blocks ≠ []) :
    ∃ g, p.cfg = .ok g ∧ ∃ i, g.root = some i := by
  obtain ⟨b₀, hb₀, hentry⟩ := hp.entry hne
  set keys := p.blocks.map Block.address with hkeys
  -- every graph with the index of the blocks has a node for each block
  have hfind : ∀ k ∈ keys, ∀ g : Digraph UInt64,
      g.index = (Digraph.ofKeys keys).index → ∃ i, g.find? k = some i := by
    intro k hk g hg
    obtain ⟨i, hi⟩ := Digraph.exists_find?_ofKeys hk
    exact ⟨i, (Digraph.find?_congr hg).trans hi⟩
  unfold cfg
  rw [hentry]
  dsimp only
  rw [ forIn_eq_ok_of_prefix (b := Digraph.empty)
    (fun pre => Digraph.ofKeys (pre.map Block.address)) rfl, ok_bind]
  · refine exists_forIn_bind_eq_ok (fun g => g.index = (Digraph.ofKeys keys).index)
      rfl (fun b hb g hg => ?_) fun g hg => ?_
    · -- the edges out of a block go to blocks the graph has, and keep its keys
      refine exists_forIn_bind_eq_ok _ hg (fun t _ g' hg' => ?_)
        fun g' hg' => ⟨_, rfl, g', rfl, hg'⟩
      split
      · next hc =>
        obtain ⟨s, hs⟩ := hfind b.address (List.mem_map_of_mem hb) g' hg'
        obtain ⟨d, hd⟩ := Option.isSome_iff_exists.1 hc
        refine ⟨.yield (g'.link s d), ?_, _, rfl, hg'⟩
        simp [Digraph.addEdge, Digraph.require_eq_ok hs, Digraph.require_eq_ok hd]
      · exact ⟨_, rfl, g', rfl, hg'⟩
    · obtain ⟨i, hi⟩ := hfind b₀.address (List.mem_map_of_mem hb₀) g hg
      exact ⟨{ g with root := some i }, by simp [Digraph.setRoot, Digraph.require_eq_ok hi], i, rfl⟩
  · -- the addresses increase, so each is new to those before it
    intro pre b post hsplit
    have hs := hp.sorted
    rw [hsplit, List.pairwise_append] at hs
    have hnew : b.address ∉ pre.map Block.address := fun hmem => by
      obtain ⟨a, ha, hab⟩ := List.mem_map.1 hmem
      exact UInt64.lt_irrefl _ (hab ▸ hs.2.2 a ha b List.mem_cons_self)
    rw [Digraph.addNode_ofKeys hnew]
    simp

/-! ### What the same layout keeps -/

namespace SameLayout

variable (h : p.SameLayout q)
include h

theorem within {c : CntrId} {s : StmtId} (hs : p.Within c s) : q.Within c s := by
  induction hs with
  | listed hs => exact .listed (by rwa [h.cntrNode_stmts])
  | nested _ hb hs ih => exact .nested ih (by rwa [h.children]) (by rwa [h.cntrNode_stmts])

theorem reaches {s : StmtId} (hs : p.Reaches s) : q.Reaches s := by
  obtain ⟨b, hb, hw⟩ := hs
  obtain ⟨b', hb', -, hc⟩ := h.symm.mem_blocks hb
  exact ⟨b', hb', hc ▸ h.within hw⟩

theorem node_eq (e : ExprId) : q.node e = p.node e := by
  rw [node, node, h.expr]

theorem below {w e : ExprId} (he : p.Below w e) : q.Below w e := by
  induction he with
  | refl => exact .refl
  | operand _ ho ih => exact .operand ih (by rwa [h.node_eq])

theorem exprs (s : StmtId) : (q.stmtNode s).exprs = (p.stmtNode s).exprs :=
  (Stmt.eq_of_unmark (h.stmtNode_unmark s)).2.2.1

theorem reachesExpr {e : ExprId} (he : p.ReachesExpr e) : q.ReachesExpr e := by
  obtain ⟨hl, s, hs, x, hx, hxe⟩ := he
  exact ⟨by simpa [isLive, h.expr] using hl, s, h.reaches hs, x, by rwa [h.exprs], h.below hxe⟩

theorem dropped (r : LoopRegion) : r.dropped q = r.dropped p :=
  LoopRegion.dropped_congr (h.kind r.jump) (h.exprs r.jump)

theorem stmt?_eq_none_iff {s : StmtId} : q.stmt? s = none ↔ p.stmt? s = none := by
  rw [← Option.map_eq_none_iff (f := Stmt.unmark), h.stmt s, Option.map_eq_none_iff]

end SameLayout

/-! ### Where a closing jump hangs -/

/-- Where the closing jump of a loop still to build hangs: below the container of a block no
    earlier than the loop's latch, and, if that block is the latch, listed by its container. -/
def Hung (p : Procedure) (r : LoopRegion) : Prop :=
  (p.stmtNode r.jump).kind.isJump = true ∧ ∃ b ∈ p.blocks, r.latch ≤ b.address ∧
    p.Within b.container r.jump ∧ (b.address = r.latch → r.jump ∈ (p.cntrNode b.container).stmts)

theorem Placed.hung (h : p.Placed r) : p.Hung r := by
  obtain ⟨b, hb, hba, hj, hjump⟩ := h
  exact ⟨hjump, b, hb, hba ▸ UInt64.le_refl _, .listed hj, fun _ => hj⟩

namespace Hung

variable (h : p.Hung r)
include h

theorem reaches : p.Reaches r.jump := by
  obtain ⟨-, b, hb, -, hw, -⟩ := h
  exact ⟨b, hb, hw⟩

theorem exists_mem : ∃ k, r.jump ∈ (p.cntrNode k).stmts := by
  obtain ⟨-, b, -, -, hw, -⟩ := h
  exact hw.exists_mem

/-- No statement the loop moves encloses its jump: what it moves hangs from a block it spans,
    which is the block the jump hangs from only if that is the latch, whose container lists the
    jump. -/
theorem apart (hp : p.WellFormed) : ∀ m ∈ p.moving r, ¬p.Encloses m r.jump := by
  rintro m hm ⟨c, hc, hw⟩
  obtain ⟨-, b, hb, hle, hwb, hlist⟩ := h
  obtain ⟨k, hk, hmk, -⟩ := mem_moving.1 hm
  obtain ⟨bl, hbl, rfl⟩ := List.mem_map.1 hk
  obtain ⟨hblp, hin⟩ := List.mem_filter.1 hbl
  have hin' : r.head ≤ bl.address ∧ bl.address ≤ r.latch := by simpa using hin
  obtain ⟨ct, hct, hroot⟩ := hp.roots b hb
  obtain ⟨ctl, hctl, hrootl⟩ := hp.roots bl hblp
  -- the jump hangs below the spanned block through `m`: that block is `b`, the latch
  obtain rfl : bl = b := hp.block_eq_of_container hblp hb
    (hp.eq_of_within_roots hctl hrootl hct hroot (Within.trans (.listed hmk) hc hw) hwb)
  exact hp.not_encloses_of_root hct hroot (hlist (UInt64.le_antisymm hin'.2 hle)) m ⟨c, hc, hw⟩

end Hung

namespace LoopBuilt

variable (h : p.LoopBuilt a cond q) (hp : p.WellFormed)
include h hp

/-- Building a loop keeps hung the jump of every loop with another latch and another jump.
    Where the build moves the jump, or a statement above it, the jump hangs below the new loop,
    where the built loop's jump hung: below a block past both latches. -/
theorem hung (ha : p.Hung a) (hr : p.Hung r) (hlatch : r.latch ≠ a.latch)
    (hjne : r.jump ≠ a.jump) : q.Hung r := by
  have hapart := ha.apart hp
  obtain ⟨hajump, ba, hba, hlea, hwa, -⟩ := ha
  obtain ⟨hjump, b, hb, hle, hw, hlist⟩ := hr
  obtain ⟨k, hk⟩ := hw.exists_mem
  have hkind : (q.stmtNode r.jump).kind.isJump = true := by
    rw [(h.stmtNode_frame hjne (hp.live_of_mem hk)).1]
    exact hjump
  obtain ⟨ct, hct, hroot⟩ := hp.roots b hb
  by_cases hmv : ∃ m ∈ p.moving a, m = r.jump ∨ p.Encloses m r.jump
  · obtain ⟨m, hm, hmr⟩ := hmv
    obtain ⟨c, hc, hmc, -⟩ := mem_moving.1 hm
    obtain ⟨bl, hbl, rfl⟩ := List.mem_map.1 hc
    obtain ⟨hblp, hin⟩ := List.mem_filter.1 hbl
    have hin' : a.head ≤ bl.address ∧ bl.address ≤ a.latch := by simpa using hin
    obtain ⟨ctl, hctl, hrootl⟩ := hp.roots bl hblp
    have hwl : p.Within bl.container r.jump := by
      rcases hmr with rfl | ⟨c', hc', hw'⟩
      · exact .listed hmc
      · exact Within.trans (.listed hmc) hc' hw'
    -- the jump hangs from one block, which `a` spans: `r`'s latch is not past `a`'s
    obtain rfl : bl = b := hp.block_eq_of_container hblp hb
      (hp.eq_of_within_roots hctl hrootl hct hroot hwl hw)
    have hra : r.latch ≤ a.latch := UInt64.le_trans hle hin'.2
    obtain ⟨cta, hcta, -⟩ := hp.roots ba hba
    refine ⟨hkind, ba, by rw [h.blocks]; exact hba, UInt64.le_trans hra hlea,
      h.within_of_moving hp (freshCntr_ne_of_cntr? hcta) hwa hapart hm hmr, fun heq => ?_⟩
    exact absurd (UInt64.le_antisymm hra (heq ▸ hlea)) hlatch
  · -- nothing above it moved, so it stays where it hung
    refine ⟨hkind, b, by rw [h.blocks]; exact hb, hle, h.within_frame hp (freshCntr_ne_of_cntr? hct)
      hw fun t _ hts => ⟨fun htm => hmv ⟨t, htm, hts⟩, ?_⟩, fun heq => h.mem_of_mem
      (freshCntr_ne_of_cntr? hct) (hlist heq) (fun hm => hmv ⟨r.jump, hm, .inl rfl⟩) hjne⟩
    rcases hts with rfl | hts
    · exact hjne
    · exact hp.ne_of_encloses hajump hts

end LoopBuilt

/-! ### Building the loops one after another -/

/-- `q` is `p` with the loops `regions` built as the statements `loops`: the arena is
    well-formed; each loop is a statement new to `p`, of its region's kind, and none is built
    twice; the blocks reach what they reached in `p`, less the closing jumps, and the loops; and
    every expression they reached they still reach, but those below an expression that a closing
    jump held and its loop did not take over. -/
structure Restructured (p : Procedure) (regions : List LoopRegion) (loops : List StmtId)
    (q : Procedure) : Prop where
  wellFormed : q.WellFormed
  nodup : loops.Nodup
  kinds : List.Forall₂ (fun r x => p.stmt? x = none ∧ (q.stmt? x).isSome ∧
    (q.stmtNode x).kind = r.loopKind) regions loops
  reaches : ∀ x, q.Reaches x ↔ (p.Reaches x ∧ x ∉ regions.map LoopRegion.jump) ∨ x ∈ loops
  reachesExpr : ∀ e, p.ReachesExpr e →
    q.ReachesExpr e ∨ ∃ r ∈ regions, ∃ d ∈ r.dropped p, p.Below d e

/-- What structuring keeps of a procedure it keeps of one with the same layout. -/
theorem Restructured.of_sameLayout {p' : Procedure} {regions : List LoopRegion}
    {loops : List StmtId} (hs : p.SameLayout p') (h : p'.Restructured regions loops q) :
    p.Restructured regions loops q where
  wellFormed := h.wellFormed
  nodup := h.nodup
  kinds := h.kinds.imp fun _ _ hx => ⟨hs.stmt?_eq_none_iff.1 hx.1, hx.2⟩
  reaches x := by
    rw [h.reaches x]
    exact or_congr_left (and_congr_left fun _ => ⟨hs.symm.reaches, hs.reaches⟩)
  reachesExpr e he := by
    rcases h.reachesExpr e (hs.reachesExpr he) with hq | ⟨r, hr, d, hd, hde⟩
    · exact .inl hq
    · exact .inr ⟨r, hr, d, by rwa [← hs.dropped], hs.symm.below hde⟩

/-- What building the loops `done` one after another from `p` leaves in `q`, with the loops
    `rest` still to build: what structuring keeps so far, the blocks of `p`, and, for each loop
    still to build, its jump hung where it may be, holding what it held in `p` with what lay
    below it. -/
structure Building (p : Procedure) (done rest : List LoopRegion) (loops : List StmtId)
    (q : Procedure) : Prop extends p.Restructured done loops q where
  blocks : q.blocks = p.blocks
  size : p.stmts.size ≤ q.stmts.size
  hung : ∀ r ∈ rest, q.Hung r
  dropped : ∀ r ∈ rest, r.dropped q = r.dropped p
  framed : ∀ r ∈ rest, ∀ d ∈ (q.stmtNode r.jump).exprs, ∀ e, q.Below d e → p.Below d e

/-- A statement new to an arena at least as large is none of `p`'s. -/
theorem stmt?_freshStmt_eq_none (hsize : p.stmts.size ≤ q.stmts.size) :
    p.stmt? q.freshStmt = none := by
  cases hs : p.stmt? q.freshStmt with
  | none => rfl
  | some st =>
    have := index_lt_of_stmt? hs
    simp only [freshStmt] at this
    omega

namespace Building

variable {done rest : List LoopRegion} {loops : List StmtId}

/-- Before any build, the jumps of the loops are placed. -/
theorem start (hp : p.WellFormed) (hplaced : ∀ r ∈ rest, p.Placed r) : p.Building [] rest [] p where
  wellFormed := hp
  nodup := List.nodup_nil
  kinds := .nil
  reaches x := by simp
  reachesExpr _ he := .inl he
  blocks := rfl
  size := le_rfl
  hung r hr := (hplaced r hr).hung
  dropped _ _ := rfl
  framed _ _ _ _ _ he := he

/-- Building the next loop, over a jump of `p` that no later loop shares and at a latch no later
    loop shares, keeps building. -/
theorem snoc (h : p.Building done (a :: rest) loops q) (hb : q.LoopBuilt a cond q')
    (hlive : p.stmt? a.jump ≠ none) (hlatch : ∀ r ∈ rest, r.latch ≠ a.latch)
    (hjne : ∀ r ∈ rest, r.jump ≠ a.jump) :
    p.Building (done ++ [a]) rest (loops ++ [q.freshStmt]) q' := by
  have hq := h.wellFormed
  have ha := h.hung a List.mem_cons_self
  have hapart := ha.apart hq
  obtain ⟨k, hk⟩ := ha.exists_mem
  have hq' : q'.WellFormed := hb.wellFormed_of_apart hq hk ha.1 hapart
  -- the loops built before are statements of `q` new to `p`: neither `a`'s jump nor the loop
  have hold : ∀ x, p.stmt? x = none → (q.stmt? x).isSome → x ≠ a.jump ∧ x ≠ q.freshStmt :=
    fun x hx hqx => ⟨fun he => hlive (he ▸ hx), fun he => by
      obtain ⟨st, hst⟩ := Option.isSome_iff_exists.1 hqx
      exact freshStmt_ne_of_stmt? hst he⟩
  have hk' : List.Forall₂ (fun x r => p.stmt? x = none ∧
      ((q.stmt? x).isSome ∧ (q.stmtNode x).kind = LoopRegion.loopKind r)) loops done :=
    h.kinds.flip
  have hloops : ∀ x ∈ loops, x ≠ a.jump ∧ x ≠ q.freshStmt := fun x hx => by
    obtain ⟨b, -, hw⟩ := (h.reaches x).2 (.inr hx)
    obtain ⟨c, hc⟩ := hw.exists_mem
    exact ⟨fun he => hlive (he ▸ ((List.forall₂_and_left loops done).1 hk').1 x hx),
      hq.live_of_mem hc⟩
  -- the jumps of the loops still to build are live in `q`, and not `a`'s
  have hrest : ∀ r ∈ rest, r.jump ≠ a.jump ∧ r.jump ≠ q.freshStmt := fun r hr =>
    ⟨hjne r hr, by
      obtain ⟨k', hk'⟩ := (h.hung r (List.mem_cons_of_mem _ hr)).exists_mem
      exact hq.live_of_mem hk'⟩
  refine ⟨⟨hq', ?nodup, ?kinds, fun x => ?reaches, fun e he => ?reachesExpr⟩,
    hb.blocks.trans h.blocks, h.size.trans hb.size_lt.le,
    fun r hr => hb.hung hq ha (h.hung r (List.mem_cons_of_mem _ hr)) (hlatch r hr) (hjne r hr),
    fun r hr => (hb.dropped_frame (hrest r hr).1 (hrest r hr).2).trans
      (h.dropped r (List.mem_cons_of_mem _ hr)), fun r hr d hd e he => ?framed⟩
  case nodup =>
    exact h.nodup.append (List.nodup_singleton _)
      (List.disjoint_singleton.2 fun hx => (hloops _ hx).2 rfl)
  case kinds =>
    refine List.rel_append (h.kinds.imp fun r x hx => ?_)
      (.cons ⟨stmt?_freshStmt_eq_none h.size, by rw [hb.loop]; rfl, hb.kind_loop⟩ .nil)
    obtain ⟨hxa, hxL⟩ := hold x hx.1 hx.2.1
    refine ⟨hx.1, ?_, ?_⟩
    · rw [hb.stmt x hxa hxL, Option.isSome_map]
      exact hx.2.1
    · rw [(hb.stmtNode_frame hxa hxL).1]
      exact hx.2.2
  case reaches =>
    rw [hb.reaches_iff hq ha.reaches hapart ha.1, h.reaches x]
    simp only [List.map_append, List.map_cons, List.map_nil, List.mem_append, List.mem_singleton,
      not_or]
    constructor
    · rintro (⟨⟨hx, hxd⟩ | hx, hxa⟩ | rfl)
      · exact .inl ⟨hx, hxd, hxa⟩
      · exact .inr (.inl hx)
      · exact .inr (.inr rfl)
    · rintro (⟨hx, hxd, hxa⟩ | hx | rfl)
      · exact .inl ⟨.inl ⟨hx, hxd⟩, hxa⟩
      · exact .inl ⟨.inr hx, (hloops x hx).1⟩
      · exact .inr rfl
  case reachesExpr =>
    rcases h.reachesExpr e he with hqe | ⟨r, hr, d, hd, hde⟩
    · rcases hb.reachesExpr hq ha.reaches hapart ha.1 hq' hqe with hqe' | ⟨d, hd, hde⟩
      · exact .inl hqe'
      · -- what `a`'s jump held in `q` it held in `p`, with what lay below it
        refine .inr ⟨a, List.mem_append_right _ (List.mem_singleton_self a), d, ?_,
          h.framed a List.mem_cons_self d (LoopRegion.mem_exprs_of_mem_dropped hd) e hde⟩
        rw [← h.dropped a List.mem_cons_self]
        exact hd
    · exact .inr ⟨r, List.mem_append_left _ hr, d, hd, hde⟩
  case framed =>
    obtain ⟨hrj, hrL⟩ := hrest r hr
    have hd' : d ∈ (q.stmtNode r.jump).exprs := by
      rwa [(hb.stmtNode_frame hrj hrL).2.2] at hd
    exact h.framed r (List.mem_cons_of_mem _ hr) d hd' e
      (hb.below_before hq' (hq'.isLive_of_mem_exprs hd) he).1

end Building

end Procedure

namespace Work

variable {α : Type} {s : Session} {Q : α → Session → Prop} {E : Session → Prop}

theorem lift_runs_of_eq_ok {x : Except Error α} {a : α} (hx : x = .ok a) (h : Q a s) :
    Runs (lift x) s Q E := by
  subst hx
  exact runs_pure a h

end Work

open Procedure Work

/-- Checking the loops of a well-formed procedure with blocks does not fail: its graph is built
    with a root, and so is the dominator tree. It changes nothing but the log. -/
theorem checkLoops_ok (regions : List LoopRegion) {s : Session} (hp : s.proc.WellFormed)
    (hne : s.proc.blocks ≠ []) :
    Runs (checkLoops regions) s (fun _ s' => s'.proc = s.proc) (fun _ => False) := by
  obtain ⟨g, hg, i, hroot⟩ := cfg_eq_ok hp hne
  obtain ⟨t, ht, -⟩ := DominatorTree.compute_eq_ok hroot
  unfold checkLoops
  refine current_bind (runs_bind (lift_runs_of_eq_ok (Q := fun g' s' => g' = g ∧ s' = s) hg
    ⟨rfl, rfl⟩) fun _ _ h₁ => ?_)
  obtain ⟨rfl, hs⟩ := h₁
  rw [hs]
  refine runs_bind (lift_runs_of_eq_ok (Q := fun _ s' => s' = s) ht rfl) fun _ _ h₂ => ?_
  rw [h₂]
  refine runs_bind (runs_forIn_inv (fun _ s' => s'.proc = s.proc) rfl fun r _ _ s₁ h₁ => ?_)
    fun _ _ h' => runs_pure _ h'
  dsimp only
  -- an unconfirmed loop is recorded with its warning
  refine runs_ite (fun _ => record_bind _ ?_) fun _ => runs_pure _ h₁
  exact runs_pure _ h₁

/-- Structuring a well-formed procedure succeeds, whatever its loops, and keeps its statements:
    the loops, in the order they are built, are new statements, one of each region's kind; the
    blocks reach what they reached, less the closing jumps, and the loops; and every expression
    they reached they still reach, but those below an expression that a closing jump held and
    its loop did not take over. -/
theorem structureFlow_keeps_statements (verify : Bool) {s : Session} (hp : s.proc.WellFormed) :
    Runs (structureFlow verify) s
      (fun _ s' => ∃ loops,
        s.proc.Restructured (sortBy LoopRegion.before s.proc.loopRegions) loops s'.proc)
      (fun _ => False) := by
  unfold structureFlow
  refine current_bind ?_
  split
  · next hempty =>
    -- without blocks there is no loop to build
    have hnil : s.proc.loopRegions = [] := by
      simp [loopRegions, plans, List.isEmpty_iff.1 hempty, sortBy]
    have hstart : s.proc.Building [] [] [] s.proc := .start hp fun _ hr => absurd hr List.not_mem_nil
    refine runs_pure _ ⟨[], ?_⟩
    rw [hnil]
    exact hstart.toRestructured
  next hne =>
  have hne' : s.proc.blocks ≠ [] := fun hnil => hne (by simp [hnil])
  -- linking keeps the plans, and neither it nor the classes move a statement
  refine runs_bind (planLoops_runs (P := fun plans s' => plans = s.proc.plans ∧
      s.proc.SameLayout s'.proc)
    (edit_runs (P := fun _ q => q.plans = s.proc.plans ∧ s.proc.SameLayout q)
      (F := fun _ => False) (runs_mono (linkFallthroughs_relinked s.proc)
      (fun _ _ h => ⟨h.plans_eq, h.sameLayout⟩) fun _ h => h.elim))
    fun a pl _ s₂ h₂ => runs_mono (applyPlan_sameLayout s₂ a pl)
      (fun _ _ h => ⟨h₂.1, h₂.2.trans h⟩) fun _ h => h.elim) fun r s₃ h₃ => ?_
  -- the loops found are those the plans close, each placed at its latch
  obtain ⟨plans, warnings, regions⟩ := r
  obtain ⟨hregions, rfl, h₃⟩ := h₃
  dsimp only at hregions ⊢
  change regions = s.proc.loopRegions at hregions
  rw [hregions]
  simp only [buildLoops, bind_pure_unit]
  set ordered := sortBy LoopRegion.before s.proc.loopRegions with hordered
  have hperm := perm_sortBy LoopRegion.before s.proc.loopRegions
  have hp₃ := h₃.wellFormed hp
  have hplaced : ∀ r ∈ ordered, s₃.proc.Placed r := fun r hr =>
    h₃.placed (closes_of_mem_loopRegions ((mem_sortBy _).1 hr)).placed
  -- no two loops share a latch, so none shares a jump
  have hlatches : (ordered.map LoopRegion.latch).Nodup :=
    (hperm.map _).nodup_iff.2 (nodup_latches hp.sorted)
  have hjumps : (ordered.map LoopRegion.jump).Nodup :=
    (List.Nodup.of_map _ hlatches).map_on fun x hx y hy hxy =>
      List.inj_on_of_nodup_map hlatches hx hy ((hplaced x hx).latch_eq hp₃ (hplaced y hy) hxy)
  refine runs_bind (runs_forIn_done (fun done _ s' => ∃ loops, ∀ rest, ordered = done ++ rest →
      s₃.proc.Building done rest loops s'.proc)
    ⟨[], fun rest hrest => .start hp₃ fun r hr => hplaced r (by rw [hrest]; exact hr)⟩
    fun done a rest hsplit _ s₄ h₄ => ?_) fun _ s₅ h₅ => ?_
  · obtain ⟨loops, h₄⟩ := h₄
    have hb₄ := h₄ (a :: rest) hsplit
    have ha := hb₄.hung a List.mem_cons_self
    obtain ⟨k, hk⟩ := ha.exists_mem
    refine runs_bind (edit_runs (F := fun _ => False) (runs_mono
      (buildLoop_built hb₄.wellFormed hk ha.1) (fun _ _ h => h) fun _ h => h.elim))
      fun _ s₄' hb => ?_
    obtain ⟨cond, hb⟩ := hb
    -- the loops still to build close at other latches, on other jumps
    have hlater : ∀ {β : Type} (f : LoopRegion → β), (ordered.map f).Nodup →
        ∀ r ∈ rest, f r ≠ f a := by
      intro β f hf r hr he
      rw [hsplit, List.map_append, List.map_cons, List.nodup_middle, List.nodup_cons] at hf
      exact hf.1 (List.mem_append_right _ (he ▸ List.mem_map_of_mem hr))
    have hlive : s₃.proc.stmt? a.jump ≠ none := by
      obtain ⟨b, -, -, hj, -⟩ := hplaced a (by rw [hsplit]; simp)
      obtain ⟨st, hst, -⟩ := hp₃.parent_of_mem hj
      simp [hst]
    refine current_bind (record_bind _ (runs_pure _ ⟨_, rfl, loops ++ [s₄.proc.freshStmt],
      fun rest' hrest' => ?_⟩))
    obtain rfl : rest' = rest := (by simpa [hsplit] using hrest' : rest = rest').symm
    exact hb₄.snoc hb hlive (hlater _ hlatches) (hlater _ hjumps)
  · -- what the builds keep of `s₃` they keep of `s`; checking the loops changes nothing
    obtain ⟨loops, h₅⟩ := h₅
    have hb₅ := h₅ [] (by simp)
    have hdone := hb₅.toRestructured.of_sameLayout h₃
    have hbl : s₅.proc.blocks ≠ [] := fun hnil => hne' (by
      have := h₃.blocks
      rw [← hb₅.blocks, hnil] at this
      simpa using this.symm)
    split
    · exact runs_bind (checkLoops_ok _ hdone.wellFormed hbl) fun _ _ h => runs_pure _ ⟨loops, h ▸ hdone⟩
    · exact runs_pure _ ⟨loops, hdone⟩

/-- The loops that overlap, whose statements structuring reorders: it succeeds there and keeps
    the statements all the same. -/
theorem structureFlow_keeps_statements_overlapping :
    ∃ p, overlappingLoops.build = .ok p ∧ p.WellFormed ∧
      Runs (structureFlow true) { proc := p }
        (fun _ s' => ∃ loops,
          p.Restructured (sortBy LoopRegion.before p.loopRegions) loops s'.proc)
        (fun _ => False) := by
  obtain ⟨p, hb, hforest⟩ := exists_ok_of_any (x := overlappingLoops.build)
    (P := fun p => p.Forest) (by decide +kernel)
  exact ⟨p, hb, hforest.wellFormed, structureFlow_keeps_statements true hforest.wellFormed⟩

end Decompilation
