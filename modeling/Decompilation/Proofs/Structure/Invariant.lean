import Mathlib
import Decompilation.Proofs.Structure.Moves
import Decompilation.Proofs.Structure.Listing

/-!
# What building a loop keeps

A loop built over a closing jump listed by one of the containers it spans keeps the procedure
well-formed, and takes exactly that jump out of the listing: the statements of the spanned
containers, which are consecutive in the listing since the blocks are in address order, move
into the loop's body, and the loop stands where the jump's container was.

* `LoopBuilt.stmt?_eq_some`, `LoopBuilt.cntr?_eq_some`: what a statement or a container after
  the build was before it;
* `LoopBuilt.wellFormed`: the forest and the other invariants of the arena are kept;
* `LoopBuilt.listing`: the listing afterwards is the one before, less the closing jump.
-/

namespace Decompilation

namespace List

variable {α : Type}

/-- A list ordered by `R` is the part of it satisfying a property closed downwards under `R`,
    followed by the rest. -/
theorem filter_append_filter_not {R : α → α → Prop} {P : α → Bool} {l : List α}
    (hl : l.Pairwise R) (hP : ∀ a b, R a b → P b = true → P a = true) :
    l.filter P ++ l.filter (fun a => !P a) = l := by
  induction l with
  | nil => rfl
  | cons a l ih =>
    rw [List.pairwise_cons] at hl
    cases hPa : P a
    · -- once a member fails the property, every later one does
      have hfail : ∀ b ∈ l, P b = false := fun b hb => by
        by_contra hPb
        simp [hP a b (hl.1 b hb) (by simpa using hPb)] at hPa
      rw [List.filter_cons_of_neg (by simp [hPa]), List.filter_cons_of_pos (by simp [hPa]),
        List.filter_eq_nil_iff.2 fun b hb => by simp [hfail b hb],
        List.filter_eq_self.2 fun b hb => by simp [hfail b hb]]
      rfl
    · rw [List.filter_cons_of_pos hPa, List.filter_cons_of_neg (by simp [hPa])]
      exact congrArg (a :: ·) (ih hl.2)

/-- Putting `b` in the place of `a` counts `b` where `a` or `b` stood. -/
theorem count_map_replace [DecidableEq α] (a b : α) (l : List α) :
    (l.map fun x => if x = a then b else x).count b = l.count a + (l.filter (· ≠ a)).count b := by
  induction l with
  | nil => rfl
  | cons x l ih =>
    by_cases hx : x = a
    · subst hx
      simp [ih]
      omega
    · by_cases hxb : x = b
      · subst hxb
        simp [ih, hx]
        omega
      · simp [ih, hx, hxb]

/-- Putting `b` in the place of `a` keeps the count of any third entry. -/
theorem count_map_replace_of_ne [DecidableEq α] {a b x : α} (hxa : x ≠ a) (hxb : x ≠ b)
    (l : List α) : (l.map fun y => if y = a then b else y).count x = l.count x := by
  induction l with
  | nil => rfl
  | cons y l ih =>
    by_cases hy : y = a
    · subst hy
      simp [ih, Ne.symm hxb, Ne.symm hxa]
    · simp [List.count_cons, ih, hy]

/-- Putting `b` in the place of an `a` that is not there changes nothing. -/
theorem map_replace_of_not_mem [DecidableEq α] {a b : α} {l : List α} (h : a ∉ l) :
    (l.map fun x => if x = a then b else x) = l := by
  conv_rhs => rw [← List.map_id l]
  exact List.map_congr_left fun x hx => if_neg fun (hxa : x = a) => h (hxa ▸ hx)

/-- Every entry's value is below the largest value plus one. -/
theorem lt_foldr_max_succ (f : α → Nat) {l : List α} {a : α} (ha : a ∈ l) :
    f a < l.foldr (fun x n => max (f x + 1) n) 0 := by
  induction l with
  | nil => simp at ha
  | cons x l ih =>
    rw [List.foldr_cons]
    rcases List.mem_cons.1 ha with rfl | ha
    · omega
    · have := ih ha
      omega

end List

namespace Procedure

variable {p q : Procedure} {r : LoopRegion} {cond : ExprId}

theorem freshStmt_ne_of_stmt? {s : StmtId} {st : Stmt} (h : p.stmt? s = some st) :
    s ≠ p.freshStmt := fun hs => by
  have := index_lt_of_stmt? h
  rw [hs, freshStmt] at this
  exact Nat.lt_irrefl _ this

theorem mem_moving {s : StmtId} :
    s ∈ p.moving r ↔ ∃ c ∈ p.spanned r, s ∈ (p.cntrNode c).stmts ∧ s ≠ r.jump := by
  simp [moving]

/-- A statement enclosed by another is listed by a body. -/
theorem Encloses.exists_body {t s : StmtId} (h : p.Encloses t s) :
    ∃ u b, b ∈ (p.stmtNode u).children ∧ s ∈ (p.cntrNode b).stmts := by
  obtain ⟨b, hb, hw⟩ := h
  induction hw with
  | listed hs => exact ⟨t, b, hb, hs⟩
  | nested _ hb' hs _ => exact ⟨_, _, hb', hs⟩

/-! ### The arena around the build -/

namespace WellFormed

variable (hp : p.WellFormed)
include hp

/-- A listed statement is live. -/
theorem live_of_mem {c : CntrId} {s : StmtId} (hs : s ∈ (p.cntrNode c).stmts) :
    s ≠ p.freshStmt := by
  obtain ⟨st, hst, -⟩ := hp.parent_of_mem hs
  exact freshStmt_ne_of_stmt? hst

/-- Each block has a container of its own. -/
theorem block_eq_of_container {b b' : Block} (hb : b ∈ p.blocks) (hb' : b' ∈ p.blocks)
    (h : b.container = b'.container) : b = b' :=
  List.inj_on_of_nodup_map hp.distinct hb hb' h

/-- What a body lists, no root lists. -/
theorem not_mem_root {t : StmtId} {b c : CntrId} (hb : b ∈ (p.stmtNode t).children)
    {ct : Container} (hc : p.cntr? c = some ct) (hroot : ct.parent = none) {s : StmtId}
    (hs : s ∈ (p.cntrNode b).stmts) : s ∉ (p.cntrNode c).stmts := fun hs' => by
  obtain ⟨ct', hct', hpar⟩ := hp.owner_of_mem hb
  rw [hp.eq_of_mem hs hs', hc] at hct'
  cases hct'
  simp [hroot] at hpar

/-- A statement a root lists is enclosed by no statement. -/
theorem not_encloses_of_root {c : CntrId} {ct : Container} (hc : p.cntr? c = some ct)
    (hroot : ct.parent = none) {s : StmtId} (hs : s ∈ (p.cntrNode c).stmts) (t : StmtId) :
    ¬p.Encloses t s := fun h => by
  obtain ⟨u, b, hb, hsb⟩ := h.exists_body
  exact hp.not_mem_root hb hc hroot hsb hs

theorem nodup_spanned : (p.spanned r).Nodup := hp.distinct.sublist (List.filter_sublist.map _)

/-- The spanned containers are roots. -/
theorem root_of_spanned {c : CntrId} (hc : c ∈ p.spanned r) :
    ∃ ct, p.cntr? c = some ct ∧ ct.parent = none := by
  obtain ⟨b, hb, rfl⟩ := List.mem_map.1 hc
  exact hp.roots b (List.mem_filter.1 hb).1

/-- Distinct containers list distinct statements. -/
theorem nodup_flatMap_stmts {cs : List CntrId} (hcs : cs.Nodup) :
    (cs.flatMap fun c => (p.cntrNode c).stmts).Nodup :=
  List.nodup_flatMap.2 ⟨fun c _ => hp.nodup_stmts c, hcs.imp fun hne _ hs hs' =>
    hne (hp.eq_of_mem hs hs')⟩

theorem nodup_moving : (p.moving r).Nodup := by
  have h := hp.nodup_flatMap_stmts (hp.nodup_spanned (r := r))
  rw [moving, ← List.filter_flatMap]
  exact h.filter _

/-- In address order, the blocks a loop spans stand together: the blocks before its head, then
    the spanned ones, then those after its latch. -/
theorem blocks_split (r : LoopRegion) : ∃ A C : List Block,
    p.blocks = A ++ p.blocks.filter (fun b => r.head ≤ b.address && b.address ≤ r.latch) ++ C ∧
      ∀ b ∈ A ++ C, ¬(r.head ≤ b.address ∧ b.address ≤ r.latch) := by
  have h₁ := List.filter_append_filter_not hp.sorted
    (P := fun b => decide (b.address < r.head)) fun a b hab hb => by simp at hb ⊢; grind
  have h₂ := List.filter_append_filter_not
    (hp.sorted.sublist (List.filter_sublist (p := fun b => !decide (b.address < r.head))))
    (P := fun b => decide (b.address ≤ r.latch)) fun a b hab hb => by simp at hb ⊢; grind
  have hmid : ((p.blocks.filter fun b => !decide (b.address < r.head)).filter
      fun b => decide (b.address ≤ r.latch)) =
      p.blocks.filter (fun b => r.head ≤ b.address && b.address ≤ r.latch) := by
    rw [List.filter_filter]
    refine List.filter_congr fun b _ => ?_
    rw [Bool.and_comm]
    simp only [← decide_not, UInt64.not_lt]
  refine ⟨p.blocks.filter fun b => decide (b.address < r.head),
    (p.blocks.filter fun b => !decide (b.address < r.head)).filter
      fun b => !decide (b.address ≤ r.latch), ?_, fun b hb => ?_⟩
  · rw [← hmid, List.append_assoc, h₂, h₁]
  · rcases List.mem_append.1 hb with hb | hb
    · have := (List.mem_filter.1 hb).2
      simp only [decide_eq_true_eq] at this
      exact fun h => absurd h.1 (UInt64.not_le.2 this)
    · have := (List.mem_filter.1 hb).2
      simp only [Bool.not_eq_true', decide_eq_false_iff_not] at this
      exact fun h => this h.2

/-- The statements of the blocks: those before a loop's head, those of the containers it
    spans, and those after its latch, which no spanned container lists. -/
theorem blockStmts_split (r : LoopRegion) : ∃ X Y : List StmtId,
    p.blockStmts = X ++ (p.spanned r).flatMap (fun c => (p.cntrNode c).stmts) ++ Y ∧
      ∀ s ∈ X ++ Y, ∀ c ∈ p.spanned r, s ∉ (p.cntrNode c).stmts := by
  obtain ⟨A, C, hsplit, hout⟩ := hp.blocks_split r
  refine ⟨A.flatMap fun b => (p.cntrNode b.container).stmts,
    C.flatMap fun b => (p.cntrNode b.container).stmts, ?_, fun s hs c hc hsc => ?_⟩
  · rw [blockStmts, hsplit, List.flatMap_append, List.flatMap_append, spanned, List.flatMap_map]
  · -- the container listing `s` is that of a block outside the span, and of a spanned one
    rw [← List.flatMap_append] at hs
    obtain ⟨b, hb, hsb⟩ := List.mem_flatMap.1 hs
    obtain ⟨b', hb', rfl⟩ := List.mem_map.1 hc
    have hbb : b.container = b'.container := hp.eq_of_mem hsb hsc
    have hb₀ : b ∈ p.blocks := by
      rw [hsplit]
      rcases List.mem_append.1 hb with hb | hb <;> simp [hb]
    obtain rfl := hp.block_eq_of_container hb₀ (List.mem_filter.1 hb').1 hbb
    exact hout b hb (by simpa using (List.mem_filter.1 hb').2)

/-- The closing jump of a loop, listed by a root, hangs from no list of listed statements that
    leaves it out; nor does the statement the build allocates. -/
theorem ne_of_hangs {r : LoopRegion} {k : CntrId} (hk : k ∈ p.spanned r)
    (hj : r.jump ∈ (p.cntrNode k).stmts) {ss : List StmtId}
    (hss : ∀ s ∈ ss, s ≠ r.jump ∧ ∃ c, s ∈ (p.cntrNode c).stmts) {x : StmtId}
    (hx : p.Hangs ss x) : x ≠ r.jump ∧ x ≠ p.freshStmt := by
  obtain ⟨ck, hck, hroot⟩ := hp.root_of_spanned hk
  obtain ⟨s, hs, rfl | hsx⟩ := hx
  · obtain ⟨hsj, c, hsc⟩ := hss s hs
    exact ⟨hsj, hp.live_of_mem hsc⟩
  · obtain ⟨u, b, hb, hxb⟩ := hsx.exists_body
    refine ⟨fun hxj => ?_, hp.live_of_mem hxb⟩
    subst hxj
    exact hp.not_encloses_of_root hck hroot hj s hsx

end WellFormed

/-! ### The state after the build -/

namespace LoopBuilt

variable (h : p.LoopBuilt r cond q)
include h

/-- What a statement after the build was: the loop, or a statement of `p` other than the jump,
    a moving one naming the body. -/
theorem stmt?_eq_some {s : StmtId} {st' : Stmt} (hs : q.stmt? s = some st') :
    s = p.freshStmt ∧ st' =
      { kind := r.loopKind, address := (p.stmtNode r.jump).address,
        parent := (p.stmtNode r.jump).parent, exprs := [cond], bodies := [some p.freshCntr] } ∨
    s ≠ r.jump ∧ s ≠ p.freshStmt ∧ ∃ st, p.stmt? s = some st ∧
      st' = if s ∈ p.moving r then { st with parent := some p.freshCntr } else st := by
  by_cases hsL : s = p.freshStmt
  · subst hsL
    rw [h.loop] at hs
    exact .inl ⟨rfl, (Option.some.inj hs).symm⟩
  · have hsj : s ≠ r.jump := fun hsj => by simp [hsj, h.jump] at hs
    rw [h.stmt s hsj hsL] at hs
    obtain ⟨st, hst, rfl⟩ := Option.map_eq_some_iff.1 hs
    exact .inr ⟨hsj, hsL, st, hst, rfl⟩

/-- What a container after the build was: the body, or a container of `p` less the moving
    statements, with the loop for the jump. -/
theorem cntr?_eq_some {c : CntrId} {ct' : Container} (hc : q.cntr? c = some ct') :
    c = p.freshCntr ∧ ct' = { address := r.head, parent := some p.freshStmt, stmts := p.moving r } ∨
    c ≠ p.freshCntr ∧ ∃ ct, p.cntr? c = some ct ∧ ct' = { ct with
      stmts := (ct.stmts.filter (· ∉ p.moving r)).map fun s =>
        if s = r.jump then p.freshStmt else s } := by
  by_cases hcF : c = p.freshCntr
  · subst hcF
    rw [h.body] at hc
    exact .inl ⟨rfl, (Option.some.inj hc).symm⟩
  · rw [h.cntr c hcF] at hc
    obtain ⟨ct, hct, rfl⟩ := Option.map_eq_some_iff.1 hc
    exact .inr ⟨hcF, ct, hct, rfl⟩

theorem cntrNode_stmts {c : CntrId} (hc : c ≠ p.freshCntr) :
    (q.cntrNode c).stmts = ((p.cntrNode c).stmts.filter (· ∉ p.moving r)).map fun s =>
      if s = r.jump then p.freshStmt else s := by
  rw [cntrNode, cntrNode, h.cntr c hc]
  cases p.cntr? c <;> rfl

/-- A statement other than the jump and the loop keeps its kind and its bodies. -/
theorem stmtNode_frame {s : StmtId} (hsj : s ≠ r.jump) (hsL : s ≠ p.freshStmt) :
    (q.stmtNode s).kind = (p.stmtNode s).kind ∧ (q.stmtNode s).bodies = (p.stmtNode s).bodies ∧
      (q.stmtNode s).exprs = (p.stmtNode s).exprs := by
  rw [stmtNode, stmtNode, h.stmt s hsj hsL]
  cases p.stmt? s with
  | none => exact ⟨rfl, rfl, rfl⟩
  | some st => by_cases hm : s ∈ p.moving r <;> simp [hm]

/-! ### The arena stays well-formed -/

variable (hp : p.WellFormed)
include hp

/-- The condition, if it was live before, was an expression of the jump. -/
theorem cond_parent {x : ExprNode} (hx : p.expr? cond = some x) :
    x.parent = some (.stmt r.jump) := by
  obtain ⟨x', -, -, hcases⟩ := h.condNode
  rcases hcases with ⟨htest, -⟩ | ⟨-, hnone, -⟩
  · obtain ⟨hhead, -⟩ := LoopRegion.test?_eq_some htest
    cases hj : p.stmt? r.jump with
    | none => simp [hj] at hhead
    | some st =>
      rw [stmtNode_of_stmt? hj] at hhead
      obtain ⟨y, hy, hypar⟩ := hp.exprs hj (List.mem_of_mem_head? hhead)
      rw [hx] at hy
      cases hy
      exact hypar
  · rw [hnone] at hx
    cases hx

/-- A live expression listed by a statement other than the jump, or by a node still live,
    stays live. -/
theorem isLive_of_listed {e : ExprId} {x : ExprNode} (hx : p.expr? e = some x)
    {par : ExprParent} (hpar : x.parent = some par) (hs : par ≠ .stmt r.jump)
    (hw : ∀ w, par = .expr w → q.isLive w = true) : q.isLive e = true := by
  cases hq : q.expr? e with
  | some _ => simp [isLive, hq]
  | none =>
    exfalso
    rcases h.gone e (by simp [isLive, hx]) hq with hd | ⟨w, hwl, hwq, ho⟩
    · -- the jump's expressions name the jump
      have hmem : e ∈ (p.stmtNode r.jump).exprs := by
        unfold LoopRegion.dropped at hd
        split at hd
        · exact List.mem_of_mem_tail hd
        · exact hd
      cases hj : p.stmt? r.jump with
      | none => simp [hj] at hmem
      | some st =>
        rw [stmtNode_of_stmt? hj] at hmem
        obtain ⟨y, hy, hypar⟩ := hp.exprs hj hmem
        rw [hx] at hy
        cases hy
        exact hs (Option.some.inj (hpar.symm.trans hypar))
    · -- an operand names the node listing it
      obtain ⟨y, hwy⟩ := Option.isSome_iff_exists.1 hwl
      rw [node_of_expr? p hwy] at ho
      obtain ⟨z, hz, hzpar⟩ := hp.operands hwy ho
      rw [hx] at hz
      cases hz
      have := hw w (Option.some.inj (hpar.symm.trans hzpar))
      simp [isLive, hwq] at this

/-- The operands of a live node are live and name it, as before. -/
theorem operands_listed {e : ExprId} {x' x : ExprNode} (he : q.expr? e = some x')
    (hx : p.expr? e = some x) (hops : x'.operands = x.operands) {o : ExprId}
    (ho : o ∈ x'.operands) : ∃ y, q.expr? o = some y ∧ y.parent = some (.expr e) := by
  rw [hops] at ho
  obtain ⟨y, hy, hypar⟩ := hp.operands hx ho
  have hlive := h.isLive_of_listed hp hy hypar (by simp) fun w hw => by
    cases hw
    simp [isLive, he]
  obtain ⟨y', hy'⟩ := Option.isSome_iff_exists.1 hlive
  have hoc : o ≠ cond := fun hoc => by
    subst hoc
    simp [h.cond_parent hp hy] at hypar
  obtain ⟨y₀, hy₀, -, hpar'⟩ := h.kept o y' hy' hoc
  rw [hy] at hy₀
  cases hy₀
  exact ⟨y', hy', hpar'.trans hypar⟩

/-- A loop built over a listed jump that no moving statement encloses keeps the arena
    well-formed: the loop is listed once, where the jump was, and owns the body, which lists the
    moving statements once; the loop ranks above them and below what enclosed the jump; and its
    condition, the test's or a new constant, is the only expression that changed its parent. -/
theorem wellFormed_of_apart {k : CntrId} (hj : r.jump ∈ (p.cntrNode k).stmts)
    (hjump : (p.stmtNode r.jump).kind.isJump = true)
    (hapart : ∀ m ∈ p.moving r, ¬p.Encloses m r.jump) : q.WellFormed := by
  obtain ⟨stj, hstj, hparj⟩ := hp.parent_of_mem hj
  rw [stmtNode_of_stmt? hstj] at hjump
  have hchj : stj.children = [] := hp.jumps hstj hjump
  obtain ⟨ck, hck, -⟩ := hp.once hstj hparj
  have hkF : k ≠ p.freshCntr := freshCntr_ne_of_cntr? hck
  have hjm : r.jump ∉ p.moving r := by simp [moving]
  have hloop : q.stmt? p.freshStmt = some
      { kind := r.loopKind, address := stj.address, parent := some k, exprs := [cond],
        bodies := [some p.freshCntr] } := by
    rw [h.loop, stmtNode_of_stmt? hstj, hparj]
  refine ⟨?listed, ?once, ?owned, ?owner, ?exprs, ?slots, ?operands, ?jumps, ?ranked, ?sorted,
    ?roots, ?distinct, ?entry⟩
  case listed =>
    intro c ct' s hc hs
    rcases h.cntr?_eq_some hc with ⟨rfl, rfl⟩ | ⟨hcF, ct, hct, rfl⟩
    · -- the body lists the moving statements, which name it
      obtain ⟨c', -, hs', hsj⟩ := mem_moving.1 hs
      obtain ⟨st, hst, -⟩ := hp.parent_of_mem hs'
      refine ⟨{ st with parent := some p.freshCntr }, ?_, rfl⟩
      rw [h.stmt s hsj (freshStmt_ne_of_stmt? hst), hst]
      simp [hs]
    · obtain ⟨x, hx, rfl⟩ := List.mem_map.1 hs
      have hxs : x ∈ ct.stmts := (List.mem_filter.1 hx).1
      have hxm : x ∉ p.moving r := by simpa using (List.mem_filter.1 hx).2
      by_cases hxj : x = r.jump
      · -- the loop, in the jump's container
        subst hxj
        obtain rfl : c = k := hp.eq_of_mem (by rwa [cntrNode_of_cntr? hct]) hj
        exact ⟨_, by rw [if_pos rfl]; exact hloop, rfl⟩
      · obtain ⟨st, hst, hpar⟩ := hp.listed hct hxs
        refine ⟨st, ?_, hpar⟩
        rw [if_neg hxj, h.stmt x hxj (freshStmt_ne_of_stmt? hst), hst]
        simp [hxm]
  case once =>
    intro s st' c hs hpar'
    rcases h.stmt?_eq_some hs with ⟨rfl, rfl⟩ | ⟨hsj, hsL, st, hst, rfl⟩
    · -- the loop is listed where the jump was, which was listed once
      rw [stmtNode_of_stmt? hstj, hparj] at hpar'
      obtain rfl := Option.some.inj hpar'
      obtain ⟨ck', hck', hcount⟩ := hp.once hstj hparj
      rw [hck] at hck'
      cases hck'
      have hLck : p.freshStmt ∉ ck.stmts := fun hL =>
        hp.live_of_mem (by rwa [cntrNode_of_cntr? hck]) rfl
      refine ⟨_, by rw [h.cntr k hkF, hck]; rfl, ?_⟩
      simp only
      rw [List.count_map_replace,
        List.count_filter (p := fun x => decide (x ∉ p.moving r)) (by simpa using hjm), hcount,
        List.count_eq_zero_of_not_mem fun hL => hLck (List.mem_filter.1 (List.mem_filter.1 hL).1).1]
    · by_cases hsm : s ∈ p.moving r
      · simp only [hsm, ↓reduceIte, Option.some.injEq] at hpar'
        subst hpar'
        exact ⟨_, h.body, List.count_eq_one_of_mem hp.nodup_moving hsm⟩
      · simp only [hsm, ↓reduceIte] at hpar'
        obtain ⟨ct, hct, hcount⟩ := hp.once hst hpar'
        refine ⟨_, by rw [h.cntr c (freshCntr_ne_of_cntr? hct), hct]; rfl, ?_⟩
        simp only
        rw [List.count_map_replace_of_ne hsj hsL,
          List.count_filter (p := fun x => decide (x ∉ p.moving r)) (by simpa using hsm), hcount]
  case owned =>
    intro s st' c hs hc
    rcases h.stmt?_eq_some hs with ⟨rfl, rfl⟩ | ⟨hsj, hsL, st, hst, rfl⟩
    · simp only [Stmt.children, List.filterMap_cons, List.filterMap_nil, id,
        List.mem_singleton] at hc
      subst hc
      exact ⟨_, h.body, rfl⟩
    · have hc' : c ∈ st.children := by
        by_cases hsm : s ∈ p.moving r <;> simpa [hsm, Stmt.children] using hc
      obtain ⟨ct, hct, hpar⟩ := hp.owned hst hc'
      refine ⟨_, by rw [h.cntr c (freshCntr_ne_of_cntr? hct), hct]; rfl, ?_⟩
      exact hpar
  case owner =>
    intro c ct' s hc hpar
    rcases h.cntr?_eq_some hc with ⟨rfl, rfl⟩ | ⟨hcF, ct, hct, rfl⟩
    · obtain rfl := Option.some.inj hpar
      exact ⟨_, hloop, by simp [Stmt.children]⟩
    · obtain ⟨st, hst, hcount⟩ := hp.owner hct hpar
      -- the jump owned no body
      have hsj : s ≠ r.jump := fun hsj => by
        subst hsj
        rw [hstj] at hst
        cases hst
        simp [hchj] at hcount
      refine ⟨_, by rw [h.stmt s hsj (freshStmt_ne_of_stmt? hst), hst]; rfl, ?_⟩
      by_cases hsm : s ∈ p.moving r <;> simpa [hsm, Stmt.children] using hcount
  case exprs =>
    intro s st' e hs he
    rcases h.stmt?_eq_some hs with ⟨rfl, rfl⟩ | ⟨hsj, hsL, st, hst, rfl⟩
    · obtain rfl := List.mem_singleton.1 he
      obtain ⟨x, hx, hxpar, -⟩ := h.condNode
      exact ⟨x, hx, hxpar⟩
    · have he' : e ∈ st.exprs := by
        by_cases hsm : s ∈ p.moving r <;> simpa [hsm] using he
      obtain ⟨x, hx, hxpar⟩ := hp.exprs hst he'
      have hec : e ≠ cond := fun hec => by
        subst hec
        rw [h.cond_parent hp hx] at hxpar
        exact hsj (by simpa using hxpar.symm)
      have hlive := h.isLive_of_listed hp hx hxpar (fun h' => hsj (by cases h'; rfl))
        fun w hw => by cases hw
      obtain ⟨x', hx'⟩ := Option.isSome_iff_exists.1 hlive
      obtain ⟨x₀, hx₀, -, hpar'⟩ := h.kept e x' hx' hec
      rw [hx] at hx₀
      cases hx₀
      exact ⟨x', hx', hpar'.trans hxpar⟩
  case slots =>
    intro s st' hs
    rcases h.stmt?_eq_some hs with ⟨rfl, rfl⟩ | ⟨hsj, hsL, st, hst, rfl⟩
    · simp
    · by_cases hsm : s ∈ p.moving r <;> simpa [hsm] using hp.slots hst
  case operands =>
    intro e x' o he ho
    by_cases hec : e = cond
    · -- the condition kept the operands of the test it came from
      subst hec
      obtain ⟨x, hx, -, hcases⟩ := h.condNode
      rw [he] at hx
      cases hx
      rcases hcases with ⟨htest, hops⟩ | ⟨-, -, hops⟩
      · obtain ⟨hhead, -⟩ := LoopRegion.test?_eq_some htest
        rw [stmtNode_of_stmt? hstj] at hhead
        obtain ⟨xc, hxc, -⟩ := hp.exprs hstj (List.mem_of_mem_head? hhead)
        exact h.operands_listed hp he hxc (by rw [hops, node_of_expr? p hxc]) ho
      · simp [hops] at ho
    · obtain ⟨x, hx, hops, -⟩ := h.kept e x' he hec
      exact h.operands_listed hp he hx hops ho
  case jumps =>
    intro s st' hs hjs
    rcases h.stmt?_eq_some hs with ⟨rfl, rfl⟩ | ⟨hsj, hsL, st, hst, rfl⟩
    · unfold LoopRegion.loopKind at hjs
      split at hjs <;> simp [StmtKind.isJump] at hjs
    · by_cases hsm : s ∈ p.moving r
      · simpa [hsm, Stmt.children] using hp.jumps hst (by simpa [hsm] using hjs)
      · simpa [hsm, Stmt.children] using hp.jumps hst (by simpa [hsm] using hjs)
  case ranked =>
    -- the loop ranks above every statement it takes in, and what enclosed the jump ranks above
    -- the loop standing in its place
    obtain ⟨rank, hr⟩ := hp.ranked
    classical
    refine ⟨fun s => if s = p.freshStmt then (p.moving r).foldr (fun t n => max (rank t + 1) n) 0
      else rank s + if p.Encloses s r.jump then (p.moving r).foldr
        (fun t n => max (rank t + 1) n) 0 + 1 else 0, ?_⟩
    intro t b s hb hs
    by_cases htL : t = p.freshStmt
    · subst htL
      rw [stmtNode_of_stmt? hloop] at hb
      simp only [Stmt.children, List.filterMap_cons, List.filterMap_nil, id,
        List.mem_singleton] at hb
      subst hb
      rw [cntrNode_of_cntr? h.body] at hs
      obtain ⟨c', -, hs', -⟩ := mem_moving.1 hs
      simp only [if_neg (hp.live_of_mem hs'), if_neg (hapart s hs), Nat.add_zero]
      exact List.lt_foldr_max_succ rank hs
    · have htj : t ≠ r.jump := fun htj => by
        subst htj
        simp [stmtNode, h.jump] at hb
      have hb' : b ∈ (p.stmtNode t).children := by
        rw [Stmt.children, ← (h.stmtNode_frame htj htL).2.1]
        exact hb
      obtain ⟨cb, hcb, -⟩ := hp.owner_of_mem hb'
      rw [h.cntrNode_stmts (freshCntr_ne_of_cntr? hcb)] at hs
      obtain ⟨x, hx, rfl⟩ := List.mem_map.1 hs
      have hxb : x ∈ (p.cntrNode b).stmts := (List.mem_filter.1 hx).1
      simp only [if_neg htL]
      by_cases hxj : x = r.jump
      · -- the loop stands where the jump was, below `t`
        have hte : p.Encloses t r.jump := ⟨b, hb', .listed (hxj ▸ hxb)⟩
        simp only [if_pos hxj, ↓reduceIte, if_pos hte]
        omega
      · have hxt := hr hb' hxb
        simp only [if_neg hxj, if_neg (hp.live_of_mem hxb)]
        by_cases hxe : p.Encloses x r.jump
        · -- what `x` encloses, `t` encloses too
          have hte : p.Encloses t r.jump := by
            obtain ⟨b', hb'', hw⟩ := hxe
            exact ⟨b, hb', Within.trans (.listed hxb) hb'' hw⟩
          simp only [if_pos hxe, if_pos hte]
          omega
        · simp only [if_neg hxe, Nat.add_zero]
          split <;> omega
  case sorted =>
    rw [h.blocks]
    exact hp.sorted
  case roots =>
    intro b hb
    rw [h.blocks] at hb
    obtain ⟨ct, hct, hpar⟩ := hp.roots b hb
    refine ⟨_, by rw [h.cntr _ (freshCntr_ne_of_cntr? hct), hct]; rfl, ?_⟩
    exact hpar
  case distinct =>
    rw [h.blocks]
    exact hp.distinct
  case entry =>
    rw [h.blocks, h.entry]
    exact hp.entry

/-- A loop built over a jump listed by a container it spans keeps the arena well-formed: a
    root lists the jump, so no statement encloses it. -/
theorem wellFormed {k : CntrId} (hk : k ∈ p.spanned r) (hj : r.jump ∈ (p.cntrNode k).stmts)
    (hjump : (p.stmtNode r.jump).kind.isJump = true) : q.WellFormed := by
  obtain ⟨ck, hck, hroot⟩ := hp.root_of_spanned hk
  exact h.wellFormed_of_apart hp hj hjump fun m _ hm => hp.not_encloses_of_root hck hroot hj m hm

/-! ### The listing loses the jump -/

/-- The blocks list what they listed, less the moving statements, with the loop for the
    jump. -/
theorem blockStmts_eq : q.blockStmts = (p.blockStmts.filter (· ∉ p.moving r)).map fun s =>
    if s = r.jump then p.freshStmt else s := by
  rw [blockStmts, blockStmts, h.blocks, List.filter_flatMap, List.map_flatMap]
  refine List.flatMap_congr fun b hb => ?_
  obtain ⟨ct, hct, -⟩ := hp.roots b hb
  exact h.cntrNode_stmts (freshCntr_ne_of_cntr? hct)

variable {k : CntrId} (hk : k ∈ p.spanned r) (hj : r.jump ∈ (p.cntrNode k).stmts)
include hk hj

/-- A statement other than the jump and the loop keeps the statements of its bodies: bodies
    list neither the jump nor the moving statements, which roots list. -/
theorem bodyStmts_frame {s : StmtId} (hsj : s ≠ r.jump) (hsL : s ≠ p.freshStmt) :
    q.bodyStmts s = p.bodyStmts s := by
  obtain ⟨ck, hck, hroot⟩ := hp.root_of_spanned hk
  have hch : (q.stmtNode s).children = (p.stmtNode s).children := by
    rw [Stmt.children, Stmt.children, (h.stmtNode_frame hsj hsL).2.1]
  rw [bodyStmts, bodyStmts, hch]
  refine List.flatMap_congr fun b hb => ?_
  obtain ⟨cb, hcb, -⟩ := hp.owner_of_mem hb
  have hkeep : ∀ x ∈ (p.cntrNode b).stmts, x ∉ p.moving r := fun x hx hxm => by
    obtain ⟨c, hc, hxc, -⟩ := mem_moving.1 hxm
    obtain ⟨cc, hcc, hrootc⟩ := hp.root_of_spanned hc
    exact hp.not_mem_root hb hcc hrootc hx hxc
  rw [h.cntrNode_stmts (freshCntr_ne_of_cntr? hcb),
    List.filter_eq_self.2 fun x hx => by simpa using hkeep x hx]
  exact List.map_replace_of_not_mem fun hjb => hp.not_mem_root hb hck hroot hjb hj

/-- A listing of listed statements other than the jump is still one after the build. -/
theorem flat {ss l : List StmtId} (hss : ∀ s ∈ ss, s ≠ r.jump ∧ ∃ c, s ∈ (p.cntrNode c).stmts)
    (hl : p.Flat ss l) : q.Flat ss l :=
  hl.frame fun _ hs =>
    have ⟨hsj, hsL⟩ := hp.ne_of_hangs hk hj hss hs
    ⟨(h.stmtNode_frame hsj hsL).1, h.bodyStmts_frame hp hk hj hsj hsL⟩

/-- Building a loop over a closing jump listed by a container it spans takes exactly the jump
    out of the listing: the spanned containers are consecutive in it, and the loop lists what
    they listed. -/
theorem listing (hjump : (p.stmtNode r.jump).kind.isJump = true) {l : List StmtId}
    (hl : p.Listing l) : q.Listing (l.filter (· != r.jump)) := by
  obtain ⟨ck, hck, hroot⟩ := hp.root_of_spanned hk
  obtain ⟨X, Y, hsplit, hout⟩ := hp.blockStmts_split r
  have hmoving : p.moving r =
      ((p.spanned r).flatMap fun c => (p.cntrNode c).stmts).filter (· != r.jump) := by
    rw [moving, List.filter_flatMap]
  have hlisted : ∀ s ∈ p.blockStmts, ∃ c, s ∈ (p.cntrNode c).stmts := fun s hs => by
    obtain ⟨b, -, hsb⟩ := List.mem_flatMap.1 hs
    exact ⟨_, hsb⟩
  -- outside the span nothing moves, and the jump is not there
  have hXY : ∀ s ∈ X ++ Y, s ∉ p.moving r ∧ s ≠ r.jump := fun s hs =>
    ⟨fun hsm => by
      obtain ⟨c, hc, hsc, -⟩ := mem_moving.1 hsm
      exact hout s hs c hc hsc,
    fun hsj => hout s hs k hk (hsj ▸ hj)⟩
  have hss : ∀ ss : List StmtId, (∀ s ∈ ss, s ∈ X ++ Y) →
      ∀ s ∈ ss, s ≠ r.jump ∧ ∃ c, s ∈ (p.cntrNode c).stmts := fun ss hss s hs =>
    ⟨(hXY s (hss s hs)).2, hlisted s (by
      rw [hsplit]
      rcases List.mem_append.1 (hss s hs) with h' | h' <;> simp [h'])⟩
  have hssX := hss X fun s hs => List.mem_append_left Y hs
  have hssY := hss Y fun s hs => List.mem_append_right X hs
  -- of what the spanned containers list, only the jump stays
  have hkept : ((p.spanned r).flatMap fun c => (p.cntrNode c).stmts).filter
      (· ∉ p.moving r) = [r.jump] := by
    have hnodup := hp.nodup_flatMap_stmts (hp.nodup_spanned (r := r))
    have hjW : r.jump ∈ (p.spanned r).flatMap fun c => (p.cntrNode c).stmts :=
      List.mem_flatMap.2 ⟨k, hk, hj⟩
    rw [List.filter_congr fun x hx => ?_, List.filter_eq, List.count_eq_one_of_mem hnodup hjW]
    · rfl
    · by_cases hxj : x = r.jump
      · simp [hxj, moving]
      · obtain ⟨c, hc, hxc⟩ := List.mem_flatMap.1 hx
        simp [hxj, mem_moving.2 ⟨c, hc, hxc, hxj⟩]
  have hq : q.blockStmts = X ++ [p.freshStmt] ++ Y := by
    rw [h.blockStmts_eq hp, hsplit, List.filter_append, List.filter_append, hkept,
      List.filter_eq_self.2 fun s hs => by simpa using (hXY s (List.mem_append_left Y hs)).1,
      List.filter_eq_self.2 fun s hs => by simpa using (hXY s (List.mem_append_right X hs)).1,
      List.map_append, List.map_append,
      List.map_replace_of_not_mem fun hjX => (hXY _ (List.mem_append_left Y hjX)).2 rfl,
      List.map_replace_of_not_mem fun hjY => (hXY _ (List.mem_append_right X hjY)).2 rfl]
    simp
  rw [Listing, hsplit] at hl
  obtain ⟨l₁, lY, rfl, h₁, hY⟩ := hl.of_append
  obtain ⟨lX, lW, rfl, hX, hW⟩ := h₁.of_append
  have hfilter : ∀ {ss l'}, (∀ s ∈ ss, s ≠ r.jump ∧ ∃ c, s ∈ (p.cntrNode c).stmts) →
      p.Flat ss l' → l'.filter (· != r.jump) = l' := fun hss' hl' =>
    List.filter_eq_self.2 fun x hx => by simpa using (hp.ne_of_hangs hk hj hss' (hl'.mem hx)).1
  -- the loop lists the spanned statements, less the jump
  have hM : q.Flat (p.moving r) (lW.filter (· != r.jump)) := by
    have hW' := hW.filter (P := (· != r.jump)) fun x hx => by
      obtain rfl : x = r.jump := by simpa using hx
      exact ⟨StmtKind.isLoop_of_isJump hjump, hp.not_encloses_of_root hck hroot hj⟩
    rw [← hmoving] at hW'
    refine h.flat hp hk hj (fun s hs => ?_) hW'
    obtain ⟨c, -, hsc, hsj⟩ := mem_moving.1 hs
    exact ⟨hsj, c, hsc⟩
  have hLkind : (q.stmtNode p.freshStmt).kind.isLoop = true := by
    rw [stmtNode_of_stmt? h.loop]
    unfold LoopRegion.loopKind
    split <;> rfl
  have hLbody : q.bodyStmts p.freshStmt = p.moving r := by
    simp [bodyStmts, stmtNode_of_stmt? h.loop, Stmt.children, cntrNode_of_cntr? h.body]
  have hL : q.Flat [p.freshStmt] (lW.filter (· != r.jump)) := by
    simpa using Flat.loop hLkind (hLbody ▸ hM) .nil
  rw [Listing, hq, List.filter_append, List.filter_append, hfilter hssX hX, hfilter hssY hY]
  exact ((h.flat hp hk hj hssX hX).append hL).append (h.flat hp hk hj hssY hY)

end LoopBuilt

end Procedure

end Decompilation
