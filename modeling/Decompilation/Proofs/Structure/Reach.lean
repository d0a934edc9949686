import Mathlib
import Decompilation.Proofs.Structure.Invariant

/-!
# What a loop built over a nested jump keeps

A loop's closing jump need not be listed by a container the loop spans: a loop built earlier may
have taken it into its body. Building the loop is still sound as long as no statement it moves
encloses the jump, for the loop takes the jump's place, wherever that is, and the moved
statements hang below the loop.

* `WellFormed.eq_of_within_roots`: a statement hangs below one root at most;
* `LoopBuilt.within_frame`: a statement hangs where it did when nothing above it moved;
* `LoopBuilt.within_of_moving`: a moved statement, and what it encloses, hang where the jump did;
* `LoopBuilt.reaches_iff`: the blocks reach what they reached, less the jump, and the loop;
* `LoopBuilt.reachesExpr`: every expression they reached they still reach, but those held by the
  jump and left to go with it.
-/

namespace Decompilation

namespace Procedure

variable {p q : Procedure} {r : LoopRegion} {cond : ExprId}

/-- A statement hanging below a container is listed by some container. -/
theorem Within.exists_mem {c : CntrId} {s : StmtId} (h : p.Within c s) :
    ∃ d, s ∈ (p.cntrNode d).stmts := by
  cases h with
  | listed hs => exact ⟨c, hs⟩
  | nested _ _ hs => exact ⟨_, hs⟩

/-- A statement with a body is live. -/
theorem freshStmt_ne_of_children {t : StmtId} {b : CntrId} (hb : b ∈ (p.stmtNode t).children) :
    t ≠ p.freshStmt := by
  rintro rfl
  simp at hb

/-- The moving statements leave the closing jump behind. -/
theorem jump_not_mem_moving (p : Procedure) (r : LoopRegion) : r.jump ∉ p.moving r := by
  simp [moving]

namespace WellFormed

variable (hp : p.WellFormed)
include hp

/-- A statement hanging below a body is listed by no root. -/
theorem not_mem_root_of_within {t : StmtId} {b : CntrId} (hb : b ∈ (p.stmtNode t).children)
    {s : StmtId} (hs : p.Within b s) {c : CntrId} {ct : Container} (hc : p.cntr? c = some ct)
    (hroot : ct.parent = none) : s ∉ (p.cntrNode c).stmts := by
  cases hs with
  | listed hs => exact hp.not_mem_root hb hc hroot hs
  | nested _ hb' hs => exact hp.not_mem_root hb' hc hroot hs

/-- A statement hangs below one root at most: each container and body above it is named once,
    by its parent. -/
theorem eq_of_within_roots {c c' : CntrId} {ct ct' : Container} (hc : p.cntr? c = some ct)
    (hroot : ct.parent = none) (hc' : p.cntr? c' = some ct') (hroot' : ct'.parent = none)
    {s : StmtId} (hs : p.Within c s) (hs' : p.Within c' s) : c = c' := by
  induction hs with
  | listed hs =>
    cases hs' with
    | listed hs' => exact hp.eq_of_mem hs hs'
    | nested _ hb hs' => exact absurd hs (hp.not_mem_root hb hc hroot hs')
  | nested _ hb hs ih =>
    cases hs' with
    | listed hs' => exact absurd hs' (hp.not_mem_root hb hc' hroot' hs)
    | nested ht' hb' hs' =>
      obtain rfl := hp.eq_of_mem hs hs'
      obtain rfl := hp.eq_of_mem_children hb hb'
      exact ih ht'

/-- A jump encloses nothing: it owns no body. -/
theorem ne_of_encloses {j t s : StmtId} (hj : (p.stmtNode j).kind.isJump = true)
    (ht : p.Encloses t s) : t ≠ j := by
  rintro rfl
  obtain ⟨b, hb, -⟩ := ht
  cases hst : p.stmt? t with
  | none => simp [stmtNode_of_stmt?_eq_none hst] at hb
  | some st =>
    rw [stmtNode_of_stmt? hst] at hj hb
    simp [hp.jumps hst hj] at hb

/-- An expression a statement holds is live. -/
theorem isLive_of_mem_exprs {s : StmtId} {e : ExprId} (he : e ∈ (p.stmtNode s).exprs) :
    p.isLive e = true := by
  cases hs : p.stmt? s with
  | none => simp [stmtNode_of_stmt?_eq_none hs] at he
  | some st =>
    rw [stmtNode_of_stmt? hs] at he
    obtain ⟨x, hx, -⟩ := hp.exprs hs he
    simp [isLive, hx]

end WellFormed

end Procedure

namespace LoopRegion

variable {p q : Procedure} {r : LoopRegion}

/-- What a loop takes over from its jump, and what it leaves to go, depend only on the jump's
    kind and expressions. -/
theorem dropped_congr (hk : (q.stmtNode r.jump).kind = (p.stmtNode r.jump).kind)
    (he : (q.stmtNode r.jump).exprs = (p.stmtNode r.jump).exprs) : r.dropped q = r.dropped p := by
  have hc : (q.stmtNode r.jump).cond? = (p.stmtNode r.jump).cond? := by
    unfold Stmt.cond?
    rw [hk, he]
  have ht : r.test? q = r.test? p := by
    unfold test?
    rw [hk, hc]
  unfold dropped
  rw [ht, he]

/-- What goes with the jump is some of its expressions. -/
theorem mem_exprs_of_mem_dropped {d : ExprId} (hd : d ∈ r.dropped p) :
    d ∈ (p.stmtNode r.jump).exprs := by
  unfold dropped at hd
  split at hd
  · exact List.mem_of_mem_tail hd
  · exact hd

end LoopRegion

namespace Procedure

variable {p q : Procedure} {r : LoopRegion} {cond : ExprId}

namespace LoopBuilt

section Lists

variable (h : p.LoopBuilt r cond q)
include h

/-- A statement listed before, other than the jump and the moving ones, is listed by the same
    container after. -/
theorem mem_of_mem {c : CntrId} (hc : c ≠ p.freshCntr) {s : StmtId}
    (hs : s ∈ (p.cntrNode c).stmts) (hsm : s ∉ p.moving r) (hsj : s ≠ r.jump) :
    s ∈ (q.cntrNode c).stmts := by
  rw [h.cntrNode_stmts hc]
  exact List.mem_map.2 ⟨s, List.mem_filter.2 ⟨hs, by simpa using hsm⟩, if_neg hsj⟩

/-- The loop is listed where the jump was. -/
theorem loop_mem {c : CntrId} (hc : c ≠ p.freshCntr) (hj : r.jump ∈ (p.cntrNode c).stmts) :
    p.freshStmt ∈ (q.cntrNode c).stmts := by
  rw [h.cntrNode_stmts hc]
  exact List.mem_map.2 ⟨r.jump, List.mem_filter.2
    ⟨hj, by simpa using jump_not_mem_moving p r⟩, if_pos rfl⟩

/-- The body lists the moving statements. -/
theorem mem_body {m : StmtId} (hm : m ∈ p.moving r) : m ∈ (q.cntrNode p.freshCntr).stmts := by
  rw [cntrNode_of_cntr? h.body]
  exact hm

/-- The loop owns the body, and nothing else. -/
theorem children_loop : (q.stmtNode p.freshStmt).children = [p.freshCntr] := by
  rw [stmtNode_of_stmt? h.loop]
  rfl

/-- A statement other than the jump and the loop keeps its bodies. -/
theorem children_frame {s : StmtId} (hsj : s ≠ r.jump) (hsL : s ≠ p.freshStmt) :
    (q.stmtNode s).children = (p.stmtNode s).children := by
  rw [Stmt.children, Stmt.children, (h.stmtNode_frame hsj hsL).2.1]

/-- The loop is of the kind of the region. -/
theorem kind_loop : (q.stmtNode p.freshStmt).kind = r.loopKind := by
  rw [stmtNode_of_stmt? h.loop]

/-- The build allocates the loop's slot. -/
theorem size_lt : p.stmts.size < q.stmts.size := index_lt_of_stmt? h.loop

/-- Another loop keeps the expressions its jump would leave behind. -/
theorem dropped_frame {a : LoopRegion} (haj : a.jump ≠ r.jump) (haL : a.jump ≠ p.freshStmt) :
    a.dropped q = a.dropped p :=
  have ⟨hk, _, he⟩ := h.stmtNode_frame haj haL
  LoopRegion.dropped_congr hk he

/-- A node live after the build has the operands it had; the condition, the test's, too. -/
theorem operands_eq {e : ExprId} (he : q.isLive e = true) :
    (q.node e).operands = (p.node e).operands := by
  obtain ⟨x', hx'⟩ := Option.isSome_iff_exists.1 he
  rw [node_of_expr? q hx']
  by_cases hec : e = cond
  · subst hec
    obtain ⟨x, hx, -, hcases⟩ := h.condNode
    rw [hx'] at hx
    cases hx
    rcases hcases with ⟨-, hops⟩ | ⟨-, hnone, hops⟩
    · exact hops
    · rw [hops, node_of_expr?_eq_none p hnone]
      rfl
  · obtain ⟨x, hx, hops, -⟩ := h.kept e x' hx' hec
    rw [hops, node_of_expr? p hx]

/-- What a live node reaches below it, it reached before, and all of it is live. -/
theorem below_of_below (hq : q.WellFormed) {w e : ExprId} (hw : q.isLive w = true)
    (he : p.Below w e) : q.Below w e ∧ q.isLive e = true := by
  induction he with
  | refl => exact ⟨.refl, hw⟩
  | @operand v o _ ho ih =>
    obtain ⟨hb, hv⟩ := ih
    rw [← h.operands_eq hv] at ho
    obtain ⟨y, hy⟩ := Option.isSome_iff_exists.1 hv
    obtain ⟨z, hz, -⟩ := hq.operands hy (by rwa [node_of_expr? q hy] at ho)
    exact ⟨.operand hb ho, by simp [isLive, hz]⟩

/-- What a live node reaches below it after the build, it reached before: the operands of every
    live node are as they were. -/
theorem below_before (hq : q.WellFormed) {w e : ExprId} (hw : q.isLive w = true)
    (he : q.Below w e) : p.Below w e ∧ q.isLive e = true := by
  induction he with
  | refl => exact ⟨.refl, hw⟩
  | @operand v o _ ho ih =>
    obtain ⟨hb, hv⟩ := ih
    obtain ⟨y, hy⟩ := Option.isSome_iff_exists.1 hv
    obtain ⟨z, hz, -⟩ := hq.operands hy (by rwa [node_of_expr? q hy] at ho)
    exact ⟨.operand hb (by rwa [← h.operands_eq hv]), by simp [isLive, hz]⟩

end Lists

variable (h : p.LoopBuilt r cond q) (hp : p.WellFormed)
include h hp

/-- A statement hangs below a container where it did, when neither it nor a statement above it
    below that container moved or was the jump. -/
theorem within_frame {c : CntrId} (hc : c ≠ p.freshCntr) {s : StmtId} (hs : p.Within c s)
    (hkeep : ∀ t, p.Within c t → (t = s ∨ p.Encloses t s) → t ∉ p.moving r ∧ t ≠ r.jump) :
    q.Within c s := by
  induction hs with
  | listed hs =>
    obtain ⟨hm, hj⟩ := hkeep _ (.listed hs) (.inl rfl)
    exact .listed (h.mem_of_mem hc hs hm hj)
  | @nested t b s ht hb hs ih =>
    obtain ⟨hm, hj⟩ := hkeep s (.nested ht hb hs) (.inl rfl)
    have hts : p.Encloses t s := ⟨b, hb, .listed hs⟩
    -- what is or encloses `t` encloses `s`
    have ht' := ih fun t' ht' hto => hkeep t' ht' (.inr (by
      rcases hto with rfl | ⟨b', hb', hw⟩
      · exact hts
      · exact ⟨b', hb', Within.trans hw hb (.listed hs)⟩))
    obtain ⟨-, htj⟩ := hkeep t ht (.inr hts)
    obtain ⟨cb, hcb, -⟩ := hp.owner_of_mem hb
    refine .nested ht' ?_ (h.mem_of_mem (freshCntr_ne_of_cntr? hcb) hs hm hj)
    rw [h.children_frame htj (freshStmt_ne_of_children hb)]
    exact hb

/-- The loop hangs where the jump did, when no moving statement encloses the jump. -/
theorem within_loop {c : CntrId} (hc : c ≠ p.freshCntr) (hj : p.Within c r.jump)
    (hapart : ∀ m ∈ p.moving r, ¬p.Encloses m r.jump) : q.Within c p.freshStmt := by
  cases hj with
  | listed hj => exact .listed (h.loop_mem hc hj)
  | @nested t b _ ht hb hj =>
    have htj : p.Encloses t r.jump := ⟨b, hb, .listed hj⟩
    -- `t` and what encloses it enclose the jump, so none of them moved or is the jump
    have ht' := h.within_frame hp hc ht fun t' _ hto => by
      have ht'j : p.Encloses t' r.jump := by
        rcases hto with rfl | ⟨b', hb', hw⟩
        · exact htj
        · exact ⟨b', hb', Within.trans hw hb (.listed hj)⟩
      exact ⟨fun hm => hapart t' hm ht'j, fun he => hp.not_encloses_self _ (he ▸ ht'j)⟩
    obtain ⟨cb, hcb, -⟩ := hp.owner_of_mem hb
    refine .nested ht' ?_ (h.loop_mem (freshCntr_ne_of_cntr? hcb) hj)
    rw [h.children_frame (fun he => hp.not_encloses_self _ (he ▸ htj))
      (freshStmt_ne_of_children hb)]
    exact hb

/-- A moved statement, and what it encloses, hang where the jump did, below the loop. -/
theorem within_of_moving {c : CntrId} (hc : c ≠ p.freshCntr) (hj : p.Within c r.jump)
    (hapart : ∀ m ∈ p.moving r, ¬p.Encloses m r.jump) {m s : StmtId} (hm : m ∈ p.moving r)
    (hms : m = s ∨ p.Encloses m s) : q.Within c s := by
  have hqm : q.Within c m := Within.trans (h.within_loop hp hc hj hapart)
    (by rw [h.children_loop]; exact List.mem_singleton_self _) (.listed (h.mem_body hm))
  rcases hms with rfl | ⟨b, hb, hw⟩
  · exact hqm
  obtain ⟨c', -, hmc', hmj⟩ := mem_moving.1 hm
  obtain ⟨cb, hcb, -⟩ := hp.owner_of_mem hb
  -- below a body no root lists anything, so nothing moved, and the jump is not there
  have hbq : q.Within b s := h.within_frame hp (freshCntr_ne_of_cntr? hcb) hw fun t ht _ => by
    refine ⟨fun htm => ?_, fun htj => hapart m hm ⟨b, hb, htj ▸ ht⟩⟩
    obtain ⟨c'', hc'', htc'', -⟩ := mem_moving.1 htm
    obtain ⟨ct'', hct'', hroot''⟩ := hp.root_of_spanned hc''
    exact hp.not_mem_root_of_within hb ht hct'' hroot'' htc''
  refine Within.trans hqm ?_ hbq
  rw [h.children_frame hmj (hp.live_of_mem hmc')]
  exact hb

/-- What hangs below a container after the build hung there before, or below a container the
    loop spans, or is the loop. -/
theorem within_before {c : CntrId} (hc : c ≠ p.freshCntr) {s : StmtId} (hs : q.Within c s) :
    (p.Within c s ∧ s ≠ r.jump) ∨ s = p.freshStmt ∨
      ∃ c' ∈ p.spanned r, p.Within c' s ∧ s ≠ r.jump := by
  -- a list after the build is the one before, with the loop for the jump
  have hlisted : ∀ {d}, d ≠ p.freshCntr → ∀ {x}, x ∈ (q.cntrNode d).stmts →
      (x ∈ (p.cntrNode d).stmts ∧ x ≠ r.jump) ∨ x = p.freshStmt := fun hd x hx => by
    rw [h.cntrNode_stmts hd] at hx
    obtain ⟨y, hy, rfl⟩ := List.mem_map.1 hx
    by_cases hyj : y = r.jump
    · exact .inr (if_pos hyj)
    · rw [if_neg hyj]
      exact .inl ⟨(List.mem_filter.1 hy).1, hyj⟩
  -- one step down from a statement that hung below `c'` before
  have hdown : ∀ {c' t b x}, p.Within c' t → t ≠ r.jump → b ∈ (q.stmtNode t).children →
      x ∈ (q.cntrNode b).stmts → (p.Within c' x ∧ x ≠ r.jump) ∨ x = p.freshStmt := by
    intro c' t b x ht htj hb hx
    obtain ⟨d, hd⟩ := ht.exists_mem
    rw [h.children_frame htj (hp.live_of_mem hd)] at hb
    obtain ⟨cb, hcb, -⟩ := hp.owner_of_mem hb
    rcases hlisted (freshCntr_ne_of_cntr? hcb) hx with ⟨hxb, hxj⟩ | hxL
    · exact .inl ⟨.nested ht hb hxb, hxj⟩
    · exact .inr hxL
  induction hs with
  | listed hs =>
    rcases hlisted hc hs with ⟨hs', hsj⟩ | hsL
    · exact .inl ⟨.listed hs', hsj⟩
    · exact .inr (.inl hsL)
  | @nested t b x _ hb hx ih =>
    rcases ih with ⟨ht, htj⟩ | rfl | ⟨c', hc', ht, htj⟩
    · exact (hdown ht htj hb hx).imp_right .inl
    · -- below the loop: its body lists the moving statements
      rw [h.children_loop, List.mem_singleton] at hb
      subst hb
      obtain ⟨c', hc', hxc, hxj⟩ := mem_moving.1 (by rwa [cntrNode_of_cntr? h.body] at hx)
      exact .inr (.inr ⟨c', hc', .listed hxc, hxj⟩)
    · rcases hdown ht htj hb hx with h' | hxL
      · exact .inr (.inr ⟨c', hc', h'⟩)
      · exact .inr (.inl hxL)

section Reaching

variable (hj : p.Reaches r.jump) (hapart : ∀ m ∈ p.moving r, ¬p.Encloses m r.jump)
include hj hapart

/-- What the blocks reached they still reach, the jump aside. -/
theorem reaches_of_reaches (hjump : (p.stmtNode r.jump).kind.isJump = true) {s : StmtId}
    (hs : p.Reaches s) (hsj : s ≠ r.jump) : q.Reaches s := by
  obtain ⟨b, hb, hw⟩ := hs
  obtain ⟨bj, hbj, hwj⟩ := hj
  obtain ⟨ct, hct, -⟩ := hp.roots b hb
  obtain ⟨ctj, hctj, -⟩ := hp.roots bj hbj
  by_cases hmv : ∃ m ∈ p.moving r, m = s ∨ p.Encloses m s
  · -- it moved, or hangs below what moved: it hangs below the loop, where the jump was
    obtain ⟨m, hm, hms⟩ := hmv
    refine ⟨bj, by rw [h.blocks]; exact hbj, ?_⟩
    exact h.within_of_moving hp (freshCntr_ne_of_cntr? hctj) hwj hapart hm hms
  · refine ⟨b, by rw [h.blocks]; exact hb, h.within_frame hp (freshCntr_ne_of_cntr? hct) hw
      fun t _ hts => ⟨fun htm => hmv ⟨t, htm, hts⟩, ?_⟩⟩
    rcases hts with rfl | hts
    · exact hsj
    · exact hp.ne_of_encloses hjump hts

/-- The blocks reach the loop, as they reached the jump. -/
theorem reaches_loop : q.Reaches p.freshStmt := by
  obtain ⟨bj, hbj, hwj⟩ := hj
  obtain ⟨ctj, hctj, -⟩ := hp.roots bj hbj
  exact ⟨bj, by rw [h.blocks]; exact hbj,
    h.within_loop hp (freshCntr_ne_of_cntr? hctj) hwj hapart⟩

/-- The blocks reach after the build what they reached before, the jump aside, and the loop. -/
theorem reaches_iff (hjump : (p.stmtNode r.jump).kind.isJump = true) {s : StmtId} :
    q.Reaches s ↔ (p.Reaches s ∧ s ≠ r.jump) ∨ s = p.freshStmt := by
  constructor
  · rintro ⟨b, hb, hw⟩
    rw [h.blocks] at hb
    obtain ⟨ct, hct, -⟩ := hp.roots b hb
    rcases h.within_before hp (freshCntr_ne_of_cntr? hct) hw with ⟨hw', hsj⟩ | hsL |
      ⟨c', hc', hw', hsj⟩
    · exact .inl ⟨⟨b, hb, hw'⟩, hsj⟩
    · exact .inr hsL
    · obtain ⟨b', hb', rfl⟩ := List.mem_map.1 hc'
      exact .inl ⟨⟨b', (List.mem_filter.1 hb').1, hw'⟩, hsj⟩
  · rintro (⟨hs, hsj⟩ | rfl)
    · exact h.reaches_of_reaches hp hj hapart hjump hs hsj
    · exact h.reaches_loop hp hj hapart

/-- Every expression the blocks reached they still reach, but those below an expression that
    the jump held and the loop did not take over. -/
theorem reachesExpr (hjump : (p.stmtNode r.jump).kind.isJump = true) (hq : q.WellFormed)
    {e : ExprId} (he : p.ReachesExpr e) :
    q.ReachesExpr e ∨ ∃ d ∈ r.dropped p, p.Below d e := by
  obtain ⟨-, s, hs, x, hx, hxe⟩ := he
  -- an expression of a statement still reached, live after the build, reaches `e` as before
  have hkeep : ∀ s', q.Reaches s' → x ∈ (q.stmtNode s').exprs → q.isLive x = true →
      q.ReachesExpr e := fun s' hs' hx' hl => by
    obtain ⟨hb, hl'⟩ := h.below_of_below hq hl hxe
    exact ⟨hl', s', hs', x, hx', hb⟩
  by_cases hsj : s = r.jump
  · subst hsj
    by_cases hxd : x ∈ r.dropped p
    · exact .inr ⟨x, hxd, hxe⟩
    -- an expression of the jump that does not go is the test's condition, the loop's now
    left
    cases ht : r.test? p with
    | none => exact absurd (by rwa [LoopRegion.dropped_of_test?_eq_none ht]) hxd
    | some c =>
      obtain ⟨hhead, hdrop⟩ := LoopRegion.test?_eq_some ht
      obtain ⟨rest, hrest⟩ := List.head?_eq_some_iff.1 hhead
      rw [hrest] at hx
      rw [hdrop, hrest] at hxd
      obtain rfl : x = c := (List.mem_cons.1 hx).resolve_right hxd
      obtain ⟨y, hy, -, hcases⟩ := h.condNode
      obtain rfl : cond = x := by
        rcases hcases with ⟨ht', -⟩ | ⟨ht', -⟩ <;> rw [ht] at ht'
        · exact (Option.some.inj ht').symm
        · cases ht'
      refine hkeep p.freshStmt (h.reaches_loop hp hj hapart) ?_ (by simp [isLive, hy])
      rw [stmtNode_of_stmt? h.loop]
      exact List.mem_singleton_self _
  · -- another statement keeps its expressions, which stay live
    left
    obtain ⟨b, hb, hw⟩ := hs
    obtain ⟨d, hd⟩ := hw.exists_mem
    obtain ⟨st, hst, -⟩ := hp.parent_of_mem hd
    rw [stmtNode_of_stmt? hst] at hx
    obtain ⟨y, hy, hypar⟩ := hp.exprs hst hx
    refine hkeep s (h.reaches_of_reaches hp hj hapart hjump ⟨b, hb, hw⟩ hsj) ?_
      (h.isLive_of_listed hp hy hypar (fun he => hsj (by cases he; rfl)) fun w hw => by cases hw)
    rw [(h.stmtNode_frame hsj (hp.live_of_mem hd)).2.2, stmtNode_of_stmt? hst]
    exact hx

end Reaching

end LoopBuilt

end Procedure

end Decompilation
