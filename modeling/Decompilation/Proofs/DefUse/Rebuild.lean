import Mathlib
import Decompilation.Proofs.DefUse.Passes

/-!
# Rebuilding the chains

A rebuild of the chains (`Procedure.linkDefs`) clears every link, deletes the old implicit
definitions, registers the definition sites of the walk and links every read of it. Put
together, the step lemmas of the two walks say exactly what it leaves: each read visited is
linked to the last definition of its place and subscript in the walk, or to an implicit
definition made up for the place, one per place, and nothing else is linked
(`Procedure.ChainsRebuilt`).

What the rebuild reads it leaves as it was, and the arena keeps what a rebuild needs of it, the
new implicit definitions standing apart from the rest as the old ones did. So a second rebuild
describes the chains in the same terms: the same links, up to the names of the implicit
definitions.

* `Procedure.Linked.rebuilt`: the linking walk over the whole order gives the chains described;
* `Procedure.Linked.linkable`: after the walks the arena can be rebuilt again;
* `Procedure.linkDefs_rebuilds`: what one rebuild leaves;
* `Procedure.linkDefs_exact`: the chains of a rebuild, and of a second one after it.
-/

namespace Decompilation

namespace Procedure

open ExprShape

variable {p r q : Procedure} {W T : List ((String × Nat) × ExprId)} {n : Nat}

/-- The name the pairs give to a place made up. -/
theorem weakOf_of_mem (hW : (W.map Prod.fst).Nodup) {kd : (String × Nat) × ExprId}
    (hkd : kd ∈ W) : weakOf W kd.1 = kd.2 := by
  simp [weakOf, lookupKey_of_mem hW hkd]

/-- The linking walk done over the whole order, after the registering walk, leaves the chains
    a rebuild describes. -/
theorem Linked.rebuilt {T₀ : List ((String × Nat) × ExprId)} {q₀ : Procedure}
    (hreg : r.Registered r.linkOrder T₀ q₀) (h : r.Linked r.linkOrder W T n q)
    (hr : r.Unchained) : r.ChainsRebuilt (weakOf W) n q := by
  have hkeys : W.map Prod.fst = r.undefinedKeys := h.keys
  refine
    { keys := fun x hx hs => ?_
      links := h.links
      uses := h.uses
      count := h.count
      registered := fun d => ?_
      implicit := fun k hk => ?_
      uninit := ?_
      stale := fun s hs => by rw [hr.uninit] at hs; cases hs }
  · -- a definition site was registered with its key, a read linked with its own
    cases hd : (r.node x).isDef
    · exact h.readKeys x (List.mem_filter.2 ⟨hx, by simp [hd, hs]⟩)
    · exact hreg.keys x hx hd hs
  · rw [h.tracked d, ← hkeys]
    refine or_congr Iff.rfl ⟨fun hd => ?_, fun hd => ?_⟩
    · obtain ⟨kd, hkd, rfl⟩ := List.mem_map.1 hd
      exact ⟨kd.1, List.mem_map_of_mem hkd, (weakOf_of_mem h.keys_nodup hkd).symm⟩
    · obtain ⟨k, hk, hd⟩ := hd
      obtain ⟨kd, hkd, rfl⟩ := List.mem_map.1 hk
      rw [hd, weakOf_of_mem h.keys_nodup hkd]
      exact List.mem_map_of_mem hkd
  · rw [← hkeys] at hk
    obtain ⟨kd, hkd, rfl⟩ := List.mem_map.1 hk
    have hi := h.implicit kd hkd
    rw [weakOf_of_mem h.keys_nodup hkd]
    exact ⟨hi.fresh, hi.weak, hi.isDef, hi.isSite, hi.key⟩
  · -- each statement made writes `0` to the implicit definition of its place
    rw [← hkeys, List.forall₂_map_left_iff]
    refine ((List.forall₂_and_left _ _).2 ⟨fun _ h => h, h.uninit⟩).imp fun kd s hks => ?_
    obtain ⟨hkd, hw, -⟩ := hks
    obtain ⟨a, z, w, t, hex, hka, hoa, hkz, -⟩ := hw.assign
    rw [weakOf_of_mem h.keys_nodup hkd]
    exact ⟨a, z, w, hex, hka, hoa, hkz⟩

/-! ### The arena after the walks -/

theorem Within.listed_in {c : CntrId} {s : StmtId} (h : p.Within c s) :
    ∃ c', s ∈ (p.cntrNode c').stmts := by
  cases h with
  | listed hs => exact ⟨_, hs⟩
  | nested _ _ hs => exact ⟨_, hs⟩

/-- Below a container whose statements own no bodies hang only its statements. -/
theorem within_of_childless {c : CntrId}
    (hc : ∀ t ∈ (p.cntrNode c).stmts, (p.stmtNode t).children = []) {s : StmtId}
    (h : p.Within c s) : s ∈ (p.cntrNode c).stmts := by
  induction h with
  | listed hs => exact hs
  | nested _ hb _ ih =>
    rw [hc _ ih] at hb
    cases hb

namespace Linkable

variable (hl : p.Linkable)
include hl

theorem index_lt_of_rooted {s : StmtId} (hs : p.Rooted s) : s.index < p.stmts.size := by
  obtain ⟨_, -, hw⟩ := hs
  obtain ⟨c, hc⟩ := hw.listed_in
  exact hl.listed c s hc

theorem index_lt_of_rootExpr {x : ExprId} (hx : p.RootExpr x) : x.index < p.exprs.size := by
  obtain ⟨s, hs, e, he, hb⟩ := hx
  obtain ⟨t, ht, rfl⟩ := hl.trees s hs e he
  exact ht.spans.index_lt (ht.mem_of_below hb)

end Linkable

/-- What the walks leave of the trimmed procedure reads like the procedure before the
    deletions. -/
theorem Trimmed.readsAlike_of_adds (hl : p.Linkable) (htrim : p.Trimmed r) (ha : r.Adds q) :
    p.ReadsAlike q := by
  have hra := htrim.readsAlike hl
  refine ⟨?_, fun c hc => ?_, fun s hs => ?_, fun x hx => ?_, hra.size.trans ha.size,
    ha.cntrs_size.trans htrim.cntrs_size⟩
  · rw [linkRoots, ha.blocks, ha.body]
    exact hra.roots
  · have hne : c ≠ uninitContainer := fun he => hl.cntrs c (.inl he) hc
    rw [ha.cntr c hne]
    exact hra.cntr c hc
  · rw [ha.stmt s (htrim.stmts_size ▸ hl.index_lt_of_rooted hs)]
    exact hra.stmt s hs
  · rw [ha.expr x (htrim.exprs_size ▸ hl.index_lt_of_rootExpr hx)]
    exact hra.expr x hx

/-- After the walks the arena can be rebuilt again: the new implicit definitions, statements
    of their own without bodies over new nodes, stand apart from what the walk reads as the old
    ones did. -/
theorem Linked.linkable (hl : p.Linkable) (htrim : p.Trimmed r)
    (h : r.Linked r.linkOrder W T n q) : q.Linkable := by
  have hra := htrim.readsAlike_of_adds hl h.adds
  -- the container of implicit definitions lists new statements writing `0` to new nodes
  have hnew : ∀ s ∈ (q.cntrNode uninitContainer).stmts,
      (∃ d, q.WritesZero r.exprs.size d s) ∧ p.stmts.size ≤ s.index := fun s hs => by
    obtain ⟨kd, -, hw, hle⟩ := exists_mem_left_of_forall₂ h.uninit hs
    exact ⟨⟨kd.2, hw⟩, htrim.stmts_size ▸ hle⟩
  have hstale : ∀ {s}, q.Stale s →
      (∃ d, q.WritesZero r.exprs.size d s) ∧ p.stmts.size ≤ s.index := fun hs => by
    refine hnew _ (within_of_childless (fun t ht => ?_) hs)
    obtain ⟨⟨d, hw⟩, -⟩ := hnew t ht
    exact hw.children
  -- another container lists what `p` lists there, or less
  have hsub : ∀ c, c ≠ uninitContainer → ∀ s ∈ (q.cntrNode c).stmts,
      s ∈ (p.cntrNode c).stmts := by
    intro c hc s hs
    rw [cntrNode, h.adds.cntr c hc] at hs
    cases hrc : r.cntr? c with
    | none =>
      rw [hrc] at hs
      cases hs
    | some ct =>
      rw [hrc] at hs
      obtain ⟨ct₀, l, hp, rfl, hsl⟩ := htrim.cntr c ct hrc
      rw [cntrNode, hp]
      exact hsl.subset hs
  have hfree : ∀ t, uninitContainer ∉ (q.stmtNode t).children := by
    intro t
    by_cases ht : t.index < r.stmts.size
    · rw [h.adds.stmtNode ht]
      cases hrt : r.stmt? t with
      | none => simp [stmtNode, hrt]
      | some st =>
        obtain ⟨st₀, par, hp, rfl⟩ := htrim.stmt t st hrt
        have := hl.uninit_free t
        rw [stmtNode, hp] at this
        rw [stmtNode, hrt]
        exact this
    · cases hqt : q.stmt? t with
      | none => simp [stmtNode, hqt]
      | some st =>
        obtain ⟨⟨d, hw⟩, -⟩ := hnew t (h.stmts_new t (Nat.le_of_not_lt ht) (by rw [hqt]; rfl))
        rw [hw.children]
        exact List.not_mem_nil
  refine
    { trees := fun s hs e he => ?_
      nodup := hra.linkOrder hl ▸ hl.nodup
      stmts := fun s hs hroot => ?_
      cntrs := fun c hc hroot => ?_
      exprs := fun x hx hroot => ?_
      uninit_live := h.uninit_live
      uninit_nodup := h.uninit_nodup
      uninit_parent := fun s hs => ?_
      uninit_once := fun s hs t c hc hsc => ?_
      uninit_free := hfree
      listed := fun c s hs => ?_ }
  · have hs' := hra.rooted.1 hs
    rw [hra.stmtNode hs'] at he
    obtain ⟨t, ht, rfl⟩ := hl.trees s hs' e he
    exact ⟨t, hra.holds ht ⟨s, hs', _, he, .refl⟩, rfl⟩
  · have := hl.index_lt_of_rooted (hra.rooted.1 hroot)
    have := (hstale hs).2
    omega
  · rcases hc with rfl | ⟨s, hs, hcs⟩
    · exact hl.cntrs _ (.inl rfl) (hra.rootCntr.1 hroot)
    · obtain ⟨⟨d, hw⟩, -⟩ := hstale hs
      rw [hw.children] at hcs
      cases hcs
  · -- a node below an implicit definition is new, one the walk reads is old
    obtain ⟨s, hs, e, he, hb⟩ := hx
    obtain ⟨⟨d, hw⟩, -⟩ := hstale hs
    obtain ⟨a, z, w, t, hex, -, -, -, ht, hta, hfresh⟩ := hw.assign
    rw [hex, List.mem_singleton] at he
    subst he
    have h1 := hfresh x (ht.mem_of_below (by rw [hta]; exact hb))
    have h2 := hl.index_lt_of_rootExpr (hra.rootExpr.1 hroot)
    rw [htrim.exprs_size] at h1
    omega
  · obtain ⟨⟨d, hw⟩, -⟩ := hnew s hs
    obtain ⟨st, hst⟩ := Option.isSome_iff_exists.1 hw.live
    refine ⟨st, hst, ?_⟩
    have := hw.parent
    rwa [stmtNode, hst] at this
  · have hcu : c ≠ uninitContainer := fun he => hfree t (he ▸ hc)
    have := hl.listed c s (hsub c hcu s hsc)
    have := (hnew s hs).2
    omega
  · by_cases hc : c = uninitContainer
    · subst hc
      obtain ⟨⟨d, hw⟩, -⟩ := hnew s hs
      obtain ⟨st, hst⟩ := Option.isSome_iff_exists.1 hw.live
      exact index_lt_of_stmt? hst
    · have := hl.listed c s (hsub c hc s hs)
      have := h.adds.stmts_size
      have := htrim.stmts_size
      omega

/-- A rebuild of the chains of a procedure it can be run on leaves the chains described, for
    some naming of the implicit definitions it makes. It reads like the procedure it started
    from, can be rebuilt again, and brings back no statement deleted before it. -/
theorem linkDefs_rebuilds (hl : p.Linkable) :
    Runs linkDefs p (fun n p' => ∃ weak, p.ChainsRebuilt weak n p' ∧ p.ReadsAlike p' ∧
      p'.Linkable ∧ p.stmts.size ≤ p'.stmts.size ∧
      ∀ s, s.index < p.stmts.size → (p'.stmt? s).isSome → (p.stmt? s).isSome) (fun _ => True) := by
  unfold linkDefs
  refine runs_modify_bind (runs_get_bind ?_)
  -- the chains are cleared and the old implicit definitions deleted
  refine runs_bind (runs_mono (forIn_pluckStmt_trimmed hl) (fun _ _ h => h) fun _ _ => trivial) ?_
  rintro _ r ⟨htrim, hempty, hgone, hlive⟩
  have hr : r.Unchained := htrim.unchained hl hempty hlive
  -- the walk meets each node once
  have hfirst : ∀ {l₁ l₂ : List ExprId} {x : ExprId}, r.linkOrder = l₁ ++ x :: l₂ →
      x ∈ r.linkOrder ∧ x ∉ l₁ := fun {l₁ l₂ x} hsplit => by
    have hnd := hr.nodup
    rw [hsplit] at hnd ⊢
    exact ⟨List.mem_append_right _ List.mem_cons_self,
      fun hx => (List.nodup_append.1 hnd).2.2 x hx x List.mem_cons_self rfl⟩
  refine runs_get_bind ?_
  -- the registering walk
  refine runs_bind (runs_forIn_done (fun l₁ T q => r.Registered l₁ T q) (.nil hr)
    fun l₁ x l₂ hsplit T q hreg => ?_) fun T q₀ hreg => ?_
  · obtain ⟨hx, hxl⟩ := hfirst hsplit
    -- registering changes no field the walk reads
    have hdef : (q.node x).isDef = (r.node x).isDef := by rw [hreg.node x]
    have hloc_eq : (q.node x).isLocation = (r.node x).isLocation := by rw [hreg.node x]; rfl
    have hidx_eq : (q.node x).idx = (r.node x).idx := by rw [hreg.node x]
    refine runs_get_bind ?_
    dsimp only
    split
    · next i hxi =>
      -- a definition site, with its place computed on the registering state
      have hd : (r.node x).isDef = true := hdef ▸ (Prod.mk.inj hxi).1
      have hloc : (r.node x).isLocation = true := hloc_eq ▸ (Prod.mk.inj (Prod.mk.inj hxi).2).1
      have hidx : (r.node x).idx = some i := hidx_eq ▸ (Prod.mk.inj (Prod.mk.inj hxi).2).2
      refine runs_get_bind (runs_bind (runs_liftM (Q := fun s q' => q' = q ∧
        q.locationKey x = .ok s) (fun s hs => ⟨rfl, hs⟩) trivial) fun s q' hs => ?_)
      obtain ⟨hq', hs⟩ := hs
      subst q'
      have hk : r.keyOf x = some (s, i) := by
        rw [hr.locationKey_eq hx fun y _ => hreg.unlinked y] at hs
        simp only [keyOf, hs, hidx]
      refine runs_modify_bind (runs_pure _ ⟨_, rfl, hreg.mark hxl hd ?_ hk⟩)
      simp [ExprNode.isSite, hloc, hidx]
    · next hxi =>
      refine runs_pure _ ⟨_, rfl, hreg.skip ?_⟩
      rw [Bool.eq_false_iff]
      intro hds
      simp only [Bool.and_eq_true, ExprNode.isSite, Option.isSome_iff_exists] at hds
      obtain ⟨hd, hloc, i, hi⟩ := hds
      exact hxi i (by rw [hdef, hloc_eq, hidx_eq, hd, hloc, hi])
  -- the linking walk
  refine runs_bind (runs_forIn_done (fun l₁ st q => ∃ W, r.Linked l₁ W st.1 st.2 q)
    ⟨[], .start hr hreg⟩ fun l₁ x l₂ hsplit st q hst => ?_) fun st q hst => ?_
  · obtain ⟨hx, hxl⟩ := hfirst hsplit
    obtain ⟨W, hlk⟩ := hst
    -- linking changes no field the walk reads
    have hn : (q.node x).unlinked = (r.node x).unlinked := hlk.adds.node (hr.index_lt hx)
    have hdef : (q.node x).isDef = (r.node x).isDef := (congrArg ExprNode.isDef hn :)
    have hloc_eq : (q.node x).isLocation = (r.node x).isLocation :=
      (congrArg ExprNode.isLocation hn :)
    have hidx_eq : (q.node x).idx = (r.node x).idx := (congrArg ExprNode.idx hn :)
    refine runs_get_bind ?_
    dsimp only
    split
    · next i hxi =>
      -- a read, with its place computed on the linking state
      have hd : (r.node x).isDef = false := hdef ▸ (Prod.mk.inj hxi).1
      have hloc : (r.node x).isLocation = true := hloc_eq ▸ (Prod.mk.inj (Prod.mk.inj hxi).2).1
      have hidx : (r.node x).idx = some i := hidx_eq ▸ (Prod.mk.inj (Prod.mk.inj hxi).2).2
      have hread : (!(r.node x).isDef && (r.node x).isSite) = true := by
        simp [hd, ExprNode.isSite, hloc, hidx]
      refine runs_get_bind (runs_bind (runs_liftM (Q := fun s q' => q' = q ∧
        q.locationKey x = .ok s) (fun s hs => ⟨rfl, hs⟩) trivial) fun s q' hs => ?_)
      obtain ⟨hq', hs⟩ := hs
      subst q'
      have hk : r.keyOf x = some (s, i) := by
        rw [hr.locationKey_eq hx hlk.adds.expr] at hs
        simp only [keyOf, hs, hidx]
      split
      · next d hT =>
        -- the table names the definition
        obtain ⟨htr, hnl, hlk'⟩ := hlk.found hr hx hxl hread hk hT
        rw [pure_bind]
        refine runs_bind (addUse_linkUse htr hnl) fun _ q' hq' => ?_
        subst hq'
        exact runs_pure _ ⟨_, rfl, W, hlk'⟩
      · next hT =>
        -- an implicit definition is made for the place
        obtain ⟨t, ht, rfl⟩ := hr.trees _ hx
        have hlinks : ∀ y ∈ t.ids, ∀ d, (q.node y).defLink = some d → q.isLive d := by
          intro y _ d hy
          rw [hlk.links y] at hy
          split_ifs at hy with hm
          · cases hy
            exact isLive_of_isTracked (hlk.tracked_defOf hm)
        refine runs_bind (runs_mono (defineUninit_implicit (hlk.adds.holds ht).1 hlinks
          hlk.uninit_live) (fun _ _ h => h) fun _ h => h.elim) fun d q₁ hi => ?_
        obtain ⟨htr, hnl, hlk'⟩ := hlk.missing hr hx hxl hread hk hT hi
        rw [pure_bind]
        refine runs_bind (addUse_linkUse htr hnl) fun _ q' hq' => ?_
        subst hq'
        exact runs_pure _ ⟨_, rfl, _, hlk'⟩
    · next hxi =>
      refine runs_pure _ ⟨_, rfl, W, hlk.skip hx ?_⟩
      rw [Bool.eq_false_iff]
      intro hds
      simp only [Bool.and_eq_true, Bool.not_eq_true', ExprNode.isSite,
        Option.isSome_iff_exists] at hds
      obtain ⟨hd, hloc, i, hi⟩ := hds
      exact hxi i (by rw [hdef, hloc_eq, hidx_eq, hd, hloc, hi])
  -- the chains of the whole walk, carried back to the procedure before the deletions
  obtain ⟨W, hlk⟩ := hst
  refine runs_pure _ ⟨weakOf W, (hlk.rebuilt hreg hr).of_readsAlike hl (htrim.readsAlike hl)
    fun s hs => ?_, htrim.readsAlike_of_adds hl hlk.adds, hlk.linkable hl htrim,
    htrim.stmts_size ▸ hlk.adds.stmts_size, fun s hs hq => ?_⟩
  · obtain ⟨st, hst, -⟩ := hl.uninit_parent s hs
    have hlt : s.index < r.stmts.size := htrim.stmts_size ▸ index_lt_of_stmt? hst
    rw [hlk.adds.stmt s hlt]
    exact hgone s hs
  · -- the walks make statements in new slots only, and the deletions make none
    rw [hlk.adds.stmt s (htrim.stmts_size ▸ hs)] at hq
    obtain ⟨st, hst⟩ := Option.isSome_iff_exists.1 hq
    obtain ⟨st₀, -, hst₀, -⟩ := htrim.stmt s st hst
    rw [hst₀]
    rfl

/-- The chains a rebuild leaves are those `ChainsRebuilt` describes, for some naming `weak` of
    the implicit definitions it makes; and a rebuild after it leaves the chains described in the
    same terms, of the same procedure: the same links, readers and count, up to the names of the
    implicit definitions, the first rebuild's implicit definitions gone in their turn. -/
theorem linkDefs_exact (hl : p.Linkable) :
    Runs linkDefs p (fun n p' => ∃ weak, p.ChainsRebuilt weak n p' ∧
      Runs linkDefs p' (fun n' p'' => ∃ weak', p.ChainsRebuilt weak' n' p'') (fun _ => True))
      (fun _ => True) := by
  refine runs_mono (linkDefs_rebuilds hl) (fun n p' h => ?_) fun _ _ => trivial
  obtain ⟨weak, hc, hra, hl', hsize, -⟩ := h
  refine ⟨weak, hc, runs_mono (linkDefs_rebuilds hl') (fun n' p'' h' => ?_) fun _ _ => trivial⟩
  obtain ⟨weak', hc', -, -, -, hrevive⟩ := h'
  refine ⟨weak', hc'.of_readsAlike hl hra fun s hs => ?_⟩
  -- a statement the first rebuild deleted is not brought back by the second
  obtain ⟨st, hst, -⟩ := hl.uninit_parent s hs
  have hlt : s.index < p'.stmts.size := (index_lt_of_stmt? hst).trans_le hsize
  cases hs'' : p''.stmt? s with
  | none => rfl
  | some _ =>
    have := hrevive s hlt (by rw [hs'']; rfl)
    rw [hc.stale s hs] at this
    cases this

/-- `x_1 = 5; return x_1 + y_1;` in one block: a definition, a read of it, and a read of a place
    defined nowhere. -/
def relinkSample : Procedure where
  address := 16
  exprs := #[some { kind := .reg "x" 64, parent := some (.expr ⟨2⟩), isDef := true, idx := some 1 },
    some { kind := .val 5 64, parent := some (.expr ⟨2⟩) },
    some { kind := .assign, operands := [⟨0⟩, ⟨1⟩], parent := some (.stmt ⟨0⟩) },
    some { kind := .reg "x" 64, parent := some (.expr ⟨5⟩), idx := some 1 },
    some { kind := .reg "y" 64, parent := some (.expr ⟨5⟩), idx := some 1 },
    some { kind := .binary .add, operands := [⟨3⟩, ⟨4⟩], parent := some (.stmt ⟨1⟩) }]
  stmts := #[some { kind := .expr, address := 16, parent := some ⟨1⟩, exprs := [⟨2⟩] },
    some { kind := .ret, address := 20, parent := some ⟨1⟩, exprs := [⟨5⟩] }]
  cntrs := #[some { address := 16 }, some { address := 16, stmts := [⟨0⟩, ⟨1⟩] }]
  blocks := [{ address := 16, container := ⟨1⟩ }]
  entry := some 16

theorem relinkSample_children (t : StmtId) : (relinkSample.stmtNode t).children = [] := by
  cases ht : relinkSample.stmt? t with
  | none => rw [stmtNode_of_stmt?_eq_none ht]; rfl
  | some st =>
    rw [stmtNode_of_stmt? ht]
    obtain ⟨i⟩ := t
    have hlt : i < 2 := index_lt_of_stmt? ht
    interval_cases i <;> (simp only [stmt?, relinkSample] at ht; cases ht; rfl)

theorem relinkSample_stmts (c : CntrId) :
    (relinkSample.cntrNode c).stmts = if c = ⟨1⟩ then [⟨0⟩, ⟨1⟩] else [] := by
  cases hc : relinkSample.cntr? c with
  | none =>
    rw [cntrNode_of_cntr?_eq_none hc]
    split_ifs with h
    · subst h; cases hc
    · rfl
  | some ct =>
    rw [cntrNode_of_cntr? hc]
    obtain ⟨i⟩ := c
    have hlt : i < 2 := index_lt_of_cntr? hc
    interval_cases i <;> (simp only [cntr?, relinkSample] at hc; cases hc; rfl)

theorem relinkSample_linkOrder_nodup : relinkSample.linkOrder.Nodup := by decide

theorem relinkSample_within {c : CntrId} {s : StmtId} (h : relinkSample.Within c s) :
    c = ⟨1⟩ ∧ (s = ⟨0⟩ ∨ s = ⟨1⟩) := by
  induction h with
  | listed hs =>
    rw [relinkSample_stmts] at hs
    split_ifs at hs with hc
    · simpa [hc] using hs
    · cases hs
  | nested _ hb _ _ =>
    rw [relinkSample_children] at hb
    cases hb

theorem relinkSample_holds_assign :
    relinkSample.Holds (.node ⟨2⟩ [.node ⟨0⟩ [], .node ⟨1⟩ []]) := by
  refine ⟨spans_node_iff.2 ⟨rfl, rfl, by decide, fun t ht => ?_⟩, by simp [ids_node]⟩
  simp only [List.mem_cons, List.not_mem_nil, or_false] at ht
  rcases ht with rfl | rfl <;> exact spans_node_iff.2 ⟨rfl, rfl, by simp, by simp⟩

theorem relinkSample_holds_sum :
    relinkSample.Holds (.node ⟨5⟩ [.node ⟨3⟩ [], .node ⟨4⟩ []]) := by
  refine ⟨spans_node_iff.2 ⟨rfl, rfl, by decide, fun t ht => ?_⟩, by simp [ids_node]⟩
  simp only [List.mem_cons, List.not_mem_nil, or_false] at ht
  rcases ht with rfl | rfl <;> exact spans_node_iff.2 ⟨rfl, rfl, by simp, by simp⟩

theorem relinkSample_linkable : relinkSample.Linkable := by
  have hstale : ∀ s, ¬ relinkSample.Stale s := fun s hs => by
    have := (relinkSample_within hs).1
    cases this
  refine
    { trees := fun s hs e he => ?_
      nodup := relinkSample_linkOrder_nodup
      stmts := fun s hs _ => hstale s hs
      cntrs := fun c hc hroot => ?_
      exprs := fun x hx _ => ?_
      uninit_live := rfl
      uninit_nodup := by rw [relinkSample_stmts]; simp [uninitContainer]
      uninit_parent := fun s hs => by rw [relinkSample_stmts] at hs; simp [uninitContainer] at hs
      uninit_once := fun s hs => by rw [relinkSample_stmts] at hs; simp [uninitContainer] at hs
      uninit_free := fun t => by rw [relinkSample_children]; exact List.not_mem_nil
      listed := fun c s hs => ?_ }
  · obtain ⟨_, -, hw⟩ := hs
    rcases (relinkSample_within hw).2 with rfl | rfl
    · obtain rfl : e = ⟨2⟩ := List.mem_singleton.1 he
      exact ⟨_, relinkSample_holds_assign, rfl⟩
    · obtain rfl : e = ⟨5⟩ := List.mem_singleton.1 he
      exact ⟨_, relinkSample_holds_sum, rfl⟩
  · rcases hc with rfl | ⟨s, hs, -⟩
    · rcases hroot with hr | ⟨s, -, hs⟩
      · simp [linkRoots, relinkSample, uninitContainer] at hr
      · rw [relinkSample_children] at hs
        cases hs
    · exact hstale s hs
  · obtain ⟨s, hs, -⟩ := hx
    exact hstale s hs
  · rw [relinkSample_stmts] at hs
    split_ifs at hs
    · simp only [List.mem_cons, List.not_mem_nil, or_false] at hs
      rcases hs with rfl | rfl <;> decide
    · cases hs

/-- `x_1 = 5; return x_1 + y_1;`, rebuilt twice. -/
theorem linkDefs_exact_relinkSample : relinkSample.Linkable ∧
    Runs linkDefs relinkSample (fun n p' => ∃ weak, relinkSample.ChainsRebuilt weak n p' ∧
      Runs linkDefs p' (fun n' p'' => ∃ weak', relinkSample.ChainsRebuilt weak' n' p'')
        (fun _ => True)) (fun _ => True) :=
  ⟨relinkSample_linkable, linkDefs_exact relinkSample_linkable⟩

/-- There, the two reads are linked, `y_1` to an implicit definition made as node 6. -/
example : (linkDefs.run.run relinkSample).1.toOption = some 2 := by decide +kernel

example : ((linkDefs.run.run relinkSample).2.node ⟨4⟩).defLink = some ⟨6⟩ := by decide +kernel

end Procedure

end Decompilation
