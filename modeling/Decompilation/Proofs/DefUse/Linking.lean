import Decompilation.Proofs.Simplify.Chains
import Decompilation.Proofs.DefUse.Statements

/-!
# Rebuilding the chains

`Procedure.linkDefs` throws the chains away and builds them again from the subscripts. From a
procedure whose definition positions stand in place it leaves the chains consistent, whether
it succeeds or fails: clearing them leaves nothing to disagree; registering marks definition
positions only; an implicit definition is a fresh copy made the written side of a fresh
assignment; and every link goes through `addUse`, which refuses an unregistered definition and
cuts the reader's old link first.

* `ChainsExact.of_unlinked`, `ChainsExact.register`, `ChainsExact.unlinkUse`: the chains
  after clearing, registering and unlinking;
* `assign_runs`: an assignment whose written side is a fresh node;
* `cloneExpr_fresh`: a copy that keeps no link is such a node;
* `defineUninit_runs`, `addUse_runs`: the two steps of linking a reader;
* `linkDefs_runs`: the whole rebuild.
-/

namespace Decompilation

/-- A second outcome of the answer, the failure left to the first. -/
theorem runs_and_ok {σ α : Type} {m : ExceptT Error (StateM σ) α} {s : σ}
    {Q Q' : α → σ → Prop} {E : σ → Prop} (h : Runs m s Q E) (h' : Runs m s Q' fun _ => True) :
    Runs m s (fun a s' => Q a s' ∧ Q' a s') E :=
  runs_mono (runs_and h h') (fun _ _ h => h) fun _ h => h.1

namespace Procedure

variable {p p' p'' : Procedure} {l : Option ExprId} {E : Procedure → Prop}

/-! ### Fresh nodes and nodes kept -/

/-- No live node lists `e`, neither as an operand nor as a statement's expression. -/
def Unlisted (p : Procedure) (e : ExprId) : Prop :=
  (∀ {q y}, p.expr? q = some y → e ∉ y.operands) ∧ ∀ {s st}, p.stmt? s = some st → e ∉ st.exprs

/-- Every live node of `p` is live in `p'`, with the same definition mark. -/
structure Keeps (p p' : Procedure) : Prop where
  live : ∀ {e x}, p.expr? e = some x → ∃ x', p'.expr? e = some x' ∧ x'.isDef = x.isDef

theorem Keeps.refl (p : Procedure) : p.Keeps p := ⟨fun he => ⟨_, he, rfl⟩⟩

theorem Keeps.trans (h₁ : p.Keeps p') (h₂ : p'.Keeps p'') : p.Keeps p'' := ⟨fun he => by
  obtain ⟨x', hx', hd'⟩ := h₁.live he
  obtain ⟨x'', hx'', hd''⟩ := h₂.live hx'
  exact ⟨x'', hx'', hd''.trans hd'⟩⟩

/-- A live node that is no definition position stays so. -/
theorem Keeps.reader (h : p.Keeps p') {e : ExprId} {x : ExprNode} (he : p.expr? e = some x)
    (hx : x.isDef = false) : ∃ x', p'.expr? e = some x' ∧ x'.isDef = false := by
  obtain ⟨x', hx', hd⟩ := h.live he
  exact ⟨x', hx', hd.trans hx⟩

theorem keeps_modifyExpr (e : ExprId) (f : ExprNode → ExprNode) (hf : ∀ x, (f x).isDef = x.isDef) :
    p.Keeps (p.modifyExpr e f) := ⟨fun {d x} hd => by
  rw [expr?_modifyExpr]
  split
  · exact ⟨f x, by simp [hd], hf x⟩
  · exact ⟨x, hd, rfl⟩⟩

theorem keeps_of_exprs (hx : p'.exprs = p.exprs) : p.Keeps p' := ⟨fun {d x} hd =>
  ⟨x, by simpa [expr?, hx] using hd, rfl⟩⟩

theorem keeps_foldl_modifyExpr (os : List ExprId) (f : ExprNode → ExprNode)
    (hf : ∀ x, (f x).isDef = x.isDef) : p.Keeps (os.foldl (fun p o => p.modifyExpr o f) p) := by
  induction os generalizing p with
  | nil => exact .refl p
  | cons o os ih => exact (keeps_modifyExpr o f hf).trans ih

theorem StmtsOnly.keeps (h : p.StmtsOnly p') : p.Keeps p' := keeps_of_exprs h.exprs

/-! ### Adding a node -/

/-- What `allocExpr` does: the new node takes the first free number, and each of its operands
    takes it as parent; nothing else changes, statements included. -/
theorem allocExpr_spec (n : ExprNode) :
    Runs (allocExpr n) p (fun r p' => r.index = p.exprs.size ∧ p'.stmts = p.stmts ∧
      ∀ e, p'.expr? e = if e = r then some n else
        if e ∈ n.operands then (p.expr? e).map fun x => { x with parent := some (.expr r) }
        else p.expr? e) E := by
  refine runs_modifyGet ?_
  dsimp only
  refine ⟨rfl, by simp only [stmts_foldl_modifyExpr], fun e => ?_⟩
  rw [expr?_push, size_foldl_modifyExpr, expr?_foldl_modifyExpr p n.operands
    (fun x => { x with parent := some (.expr ⟨p.exprs.size⟩) }) (fun _ => rfl) e]
  by_cases he : e = ⟨p.exprs.size⟩
  · subst he
    simp
  · rw [if_neg fun h => he (by cases e; simp_all), if_neg he]

/-- A node free to become a definition position: live, listed by nothing, reading nothing. -/
structure Free (p : Procedure) (e : ExprId) : Prop where
  unlisted : p.Unlisted e
  live : ∃ x, p.expr? e = some x ∧ x.defLink = none

/-- A new node keeps every node live with its mark, and a free node it does not list free. -/
theorem allocExpr_keeps (n : ExprNode) :
    Runs (allocExpr n) p (fun r p' => p.Keeps p' ∧ r.index = p.exprs.size ∧ p'.expr? r = some n ∧
      ∀ e, e ∉ n.operands → p.Free e → p'.Free e) E := by
  refine runs_mono (allocExpr_spec n) ?_ fun _ h => h
  rintro r p' ⟨hr, hs, hx⟩
  have hold : ∀ {e x}, p.expr? e = some x → e ≠ r := fun he her => by
    have := p.index_lt_of_expr? he
    rw [her, hr] at this
    exact Nat.lt_irrefl _ this
  refine ⟨⟨fun {e x} he => ?_⟩, hr, by simp [hx], fun e hne hu => ⟨⟨fun {q y} hq => ?_, ?_⟩, ?_⟩⟩
  · rw [hx, if_neg (hold he)]
    split
    · exact ⟨{ x with parent := some (.expr r) }, by rw [he]; rfl, rfl⟩
    · exact ⟨x, he, rfl⟩
  · rw [hx] at hq
    split at hq
    · rw [← Option.some.inj hq]
      exact hne
    · split at hq
      · obtain ⟨y₀, hy₀, rfl⟩ := Option.map_eq_some_iff.1 hq
        exact hu.unlisted.1 (y := y₀) hy₀
      · exact hu.unlisted.1 hq
  · intro s st hst
    exact hu.unlisted.2 (by simpa [stmt?, hs] using hst)
  · obtain ⟨x, hxe, hxl⟩ := hu.live
    exact ⟨x, by rw [hx, if_neg (hold hxe), if_neg hne, hxe], hxl⟩

/-- The new node is listed by nothing: every live node lists only older ones. -/
theorem allocExpr_unlisted (hd : p.DefsPlaced l) {n : ExprNode} (hfit : p.Fits n) :
    Runs (allocExpr n) p (fun r p' => p'.Unlisted r) E := by
  refine runs_mono (allocExpr_spec n) ?_ fun _ h => h
  rintro r p' ⟨hr, hs, hx⟩
  have hne : ∀ o : ExprId, o.index < p.exprs.size → r ≠ o := fun o ho hro => by
    rw [← hro, hr] at ho
    exact Nat.lt_irrefl _ ho
  refine ⟨fun {q y} hq hmem => ?_, fun {s st} hst hmem => ?_⟩
  · rw [hx] at hq
    split at hq
    · obtain rfl := Option.some.inj hq
      exact hne r (hfit.lt r hmem) rfl
    · split at hq
      · obtain ⟨y₀, hy₀, rfl⟩ := Option.map_eq_some_iff.1 hq
        exact hne r (hd.operand_lt hy₀ r hmem) rfl
      · exact hne r (hd.operand_lt hq r hmem) rfl
  · have hst' : p.stmt? s = some st := by simpa [stmt?, hs] using hst
    exact hne r (hd.stmt hst' r hmem).1 rfl

/-- A change of a node that keeps every node's operands and a free node's link keeps the
    node free. -/
theorem Free.modifyExpr {e : ExprId} (h : p.Free e) (d : ExprId) (f : ExprNode → ExprNode)
    (hf : ∀ x, (f x).operands = x.operands ∧ (f x).defLink = x.defLink) :
    (p.modifyExpr d f).Free e where
  unlisted := ⟨fun {q y} hq => by
      obtain ⟨y₀, hy₀, hv⟩ := expr?_modifyExpr_view p ExprNode.operands hq fun x => (hf x).1
      rw [hv]
      exact h.unlisted.1 hy₀,
    fun {s st} hs => h.unlisted.2 (by simpa using hs)⟩
  live := by
    obtain ⟨x, hx, hxl⟩ := h.live
    rw [expr?_modifyExpr]
    split
    · exact ⟨f x, by rw [hx]; rfl, (hf x).2.trans hxl⟩
    · exact ⟨x, hx, hxl⟩

/-! ### Registration and links -/

/-- A procedure with no registration, link or reader has exact chains. -/
theorem ChainsExact.of_unlinked
    (h : ∀ {e x}, p.expr? e = some x → x.tracked = false ∧ x.defLink = none ∧ x.uses = []) :
    p.ChainsExact where
  tracked hd ht := by simp [(h hd).1] at ht
  uses hd u hu := by simp [(h hd).2.2] at hu
  link he hl := by simp [(h he).2.1] at hl
  reader he hl := by simp [(h he).2.1] at hl

@[simp]
theorem expr?_map (f : ExprNode → ExprNode) (d : ExprId) :
    ({ p with exprs := p.exprs.map (Option.map f) } : Procedure).expr? d = (p.expr? d).map f := by
  simp only [expr?, Array.getElem?_map]
  cases p.exprs[d.index]? with
  | none => rfl
  | some x => cases x <;> rfl

/-- Clearing every link, reader and registration leaves exact chains and the definition
    positions where they stood. -/
theorem Consistent.of_cleared (h : p.DefsPlaced none) :
    ({ p with exprs := p.exprs.map (Option.map fun x =>
      { x with defLink := none, uses := [], tracked := false }) } : Procedure).Consistent := by
  refine ⟨h.of_shape (by simp) (fun {d x'} hd => ?_) (fun {s st'} hs => ⟨st', hs, rfl⟩)
    (fun {d x'} hd hdef hl => ?_), .of_unlinked fun {e x} he => ?_⟩
  · obtain ⟨x, hx, rfl⟩ := Option.map_eq_some_iff.1 ((expr?_map (p := p) _ d).symm.trans hd)
    exact ⟨x, hx, rfl, rfl, rfl⟩
  · obtain ⟨x, hx, rfl⟩ := Option.map_eq_some_iff.1 ((expr?_map (p := p) _ d).symm.trans hd)
    exact h.attached (x := x) hx hdef hl
  · obtain ⟨x, -, rfl⟩ := Option.map_eq_some_iff.1 ((expr?_map (p := p) _ e).symm.trans he)
    exact ⟨rfl, rfl, rfl⟩

/-- A change of one node that keeps its link and readers, and its registration if it had
    one, keeps the chains when the changed node is a definition position if registered, and
    none if it reads a definition. -/
theorem ChainsExact.modifyMarks (h : p.ChainsExact) (e : ExprId) (f : ExprNode → ExprNode)
    (hf : ∀ x, (f x).defLink = x.defLink ∧ (f x).uses = x.uses ∧
      (x.tracked = true → (f x).tracked = true))
    (he : ∀ x, p.expr? e = some x → ((f x).tracked = true → (f x).isDef = true) ∧
      ((f x).defLink.isSome = true → (f x).isDef = false)) :
    (p.modifyExpr e f).ChainsExact := by
  -- a node afterwards is the node before, changed if it is `e`
  have hv : ∀ {d x'}, (p.modifyExpr e f).expr? d = some x' → ∃ x, p.expr? d = some x ∧
      x' = if d = e then f x else x := fun hd => by
    obtain ⟨x, hx, rfl⟩ := (expr?_modifyExpr_eq_some p).1 hd
    exact ⟨x, hx, rfl⟩
  have hlive : ∀ {d x}, p.expr? d = some x → ∃ x', (p.modifyExpr e f).expr? d = some x' ∧
      x'.defLink = x.defLink ∧ x'.uses = x.uses ∧ (x.tracked = true → x'.tracked = true) :=
    fun {d x} hd => by
      rw [expr?_modifyExpr]
      split
      · exact ⟨f x, by rw [hd]; rfl, hf x⟩
      · exact ⟨x, hd, rfl, rfl, id⟩
  refine ⟨fun {d x'} hd ht => ?_, fun {d x'} hd u hu => ?_, fun {e' y' d} he' hl => ?_,
    fun {e' y' d} he' hl => ?_⟩
  · obtain ⟨x, hx, rfl⟩ := hv hd
    by_cases hde : d = e
    · rw [if_pos hde] at ht ⊢
      exact (he x (hde ▸ hx)).1 ht
    · rw [if_neg hde] at ht ⊢
      exact h.tracked hx ht
  · obtain ⟨x, hx, rfl⟩ := hv hd
    have hu' : u ∈ x.uses := by split at hu <;> simp_all [(hf x).2.1]
    obtain ⟨y, hy, hyl⟩ := h.uses hx u hu'
    obtain ⟨y', hy', hyl', -⟩ := hlive hy
    exact ⟨y', hy', hyl'.trans hyl⟩
  · obtain ⟨y, hy, rfl⟩ := hv he'
    have hl' : y.defLink = some d := by split at hl <;> simp_all [(hf y).1]
    obtain ⟨x, hx, ht, hmem⟩ := h.link hy hl'
    obtain ⟨x', hx', -, hu', ht'⟩ := hlive hx
    exact ⟨x', hx', ht' ht, hu' ▸ hmem⟩
  · obtain ⟨y, hy, rfl⟩ := hv he'
    by_cases hde : e' = e
    · rw [if_pos hde] at hl ⊢
      exact (he y (hde ▸ hy)).2 (by simp [hl])
    · rw [if_neg hde] at hl ⊢
      exact h.reader hy hl

/-- Registering a definition position keeps the chains. -/
theorem ChainsExact.register (h : p.ChainsExact) {n : ExprId}
    (hn : ∀ x, p.expr? n = some x → x.isDef = true) :
    (p.modifyExpr n fun y => { y with tracked := true }).ChainsExact :=
  h.modifyMarks n _ (fun _ => ⟨rfl, rfl, fun _ => rfl⟩) fun x hx =>
    ⟨fun _ => hn x hx, fun hl => by
      obtain ⟨d, hd⟩ := Option.isSome_iff_exists.1 hl
      exact absurd (hn x hx) (by simp [h.reader hx hd])⟩

/-- A node that reads no definition may become a definition position. -/
theorem ChainsExact.markDef (h : p.ChainsExact) {e : ExprId}
    (he : ∀ x, p.expr? e = some x → x.defLink = none) :
    (p.modifyExpr e fun y => { y with isDef := true }).ChainsExact :=
  h.modifyMarks e _ (fun _ => ⟨rfl, rfl, id⟩) fun x hx =>
    ⟨fun _ => rfl, fun hl => by simp [he x hx] at hl⟩

/-- Cutting a reader's link on both ends keeps the chains. -/
theorem ChainsExact.unlinkUse (h : p.ChainsExact) (u : ExprId) : (p.unlinkUse u).ChainsExact := by
  unfold Procedure.unlinkUse
  split
  · next d hl =>
    -- the reader is live, and is not the definition it reads
    obtain ⟨y, hy, hyl⟩ : ∃ y, p.expr? u = some y ∧ y.defLink = some d := by
      cases hu : p.expr? u with
      | none => simp [node_of_expr?_eq_none p hu] at hl
      | some y => exact ⟨y, rfl, by rwa [node_of_expr? p hu] at hl⟩
    obtain ⟨x, hx, hxt, hmem⟩ := h.link hy hyl
    have hud : u ≠ d := by
      rintro rfl
      rw [hy] at hx
      obtain rfl := Option.some.inj hx
      exact absurd (h.tracked hy hxt) (by simp [h.reader hy hyl])
    have hlook : ∀ m, ((p.modifyExpr u fun x => { x with defLink := none }).modifyExpr d
        fun x => { x with uses := x.uses.filter (· != u) }).expr? m =
        if m = d then some { x with uses := x.uses.filter (· != u) }
        else if m = u then some { y with defLink := none } else p.expr? m := fun m => by
      by_cases hmd : m = d
      · subst hmd
        simp [hx, hud.symm]
      · by_cases hmu : m = u
        · subst hmu
          simp [hy, hmd]
        · simp [hmd, hmu]
    -- no other definition records the reader
    have hnot : ∀ {m z}, p.expr? m = some z → m ≠ d → u ∉ z.uses := fun {m z} hm hmd hu => by
      obtain ⟨y', hy', hl'⟩ := h.uses hm u hu
      rw [hy] at hy'
      obtain rfl := Option.some.inj hy'
      exact hmd (Option.some.inj (hyl.symm.trans hl')).symm
    refine ⟨fun {m z} hm ht => ?_, fun {m z} hm w hw => ?_, fun {e z d'} he hl' => ?_,
      fun {e z d'} he hl' => ?_⟩
    · rw [hlook] at hm
      split at hm
      · obtain rfl := Option.some.inj hm
        exact h.tracked (x := x) hx ht
      · split at hm
        · obtain rfl := Option.some.inj hm
          exact h.tracked (x := y) hy ht
        · exact h.tracked hm ht
    · -- a recorded reader is not the one unlinked, so it keeps its link
      have hlink : ∀ {w' : ExprId} {v}, p.expr? w' = some v → w' ≠ u →
          ∃ v', ((p.modifyExpr u fun x => { x with defLink := none }).modifyExpr d
            fun x => { x with uses := x.uses.filter (· != u) }).expr? w' = some v' ∧
            v'.defLink = v.defLink := fun {w' v} hw' hwu => by
        rw [hlook]
        by_cases hwd : w' = d
        · subst hwd
          rw [if_pos rfl]
          exact ⟨_, rfl, by rw [hx] at hw'; cases hw'; rfl⟩
        · rw [if_neg hwd, if_neg hwu]
          exact ⟨v, hw', rfl⟩
      rw [hlook] at hm
      split at hm
      · next hmd =>
        subst hmd
        obtain rfl := Option.some.inj hm
        obtain ⟨hw, hwu⟩ := List.mem_filter.1 hw
        obtain ⟨v, hv, hvl⟩ := h.uses hx w hw
        obtain ⟨v', hv', hvl'⟩ := hlink hv (by simpa using hwu)
        exact ⟨v', hv', hvl'.trans hvl⟩
      · next hmd =>
        split at hm
        · next hmu =>
          subst hmu
          obtain rfl := Option.some.inj hm
          obtain ⟨v, hv, hvl⟩ := h.uses hy w hw
          obtain ⟨v', hv', hvl'⟩ := hlink hv fun hwu => hnot hy hmd (hwu ▸ hw)
          exact ⟨v', hv', hvl'.trans hvl⟩
        · obtain ⟨v, hv, hvl⟩ := h.uses hm w hw
          obtain ⟨v', hv', hvl'⟩ := hlink hv fun hwu => hnot hm hmd (hwu ▸ hw)
          exact ⟨v', hv', hvl'.trans hvl⟩
    · rw [hlook] at he
      split at he
      · obtain rfl := Option.some.inj he
        exact absurd (h.reader (y := x) hx hl') (by simp [h.tracked hx hxt])
      · next hed =>
        split at he
        · obtain rfl := Option.some.inj he
          simp at hl'
        · next heu =>
          obtain ⟨w, hw, hwt, hmem'⟩ := h.link he hl'
          rw [hlook]
          by_cases hdd : d' = d
          · subst hdd
            rw [hx] at hw
            obtain rfl := Option.some.inj hw
            exact ⟨_, if_pos rfl, hwt, List.mem_filter.2 ⟨hmem', by simpa using heu⟩⟩
          · have hdu : d' ≠ u := fun h' => by
              subst h'
              rw [hy] at hw
              obtain rfl := Option.some.inj hw
              exact absurd (h.tracked hy hwt) (by simp [h.reader hy hyl])
            rw [if_neg hdd, if_neg hdu]
            exact ⟨w, hw, hwt, hmem'⟩
    · rw [hlook] at he
      split at he
      · obtain rfl := Option.some.inj he
        exact h.reader (y := x) hx hl'
      · split at he
        · obtain rfl := Option.some.inj he
          simp at hl'
        · exact h.reader he hl'
  · exact h

theorem DefsPlaced.unlinkUse (h : p.DefsPlaced l) (u : ExprId) : (p.unlinkUse u).DefsPlaced l := by
  unfold Procedure.unlinkUse
  split
  · exact (h.modifyLinks u (fun x => { x with defLink := none }) fun _ => ⟨rfl, rfl, rfl, rfl⟩).modifyLinks
      _ (fun x => { x with uses := x.uses.filter (· != u) }) fun _ => ⟨rfl, rfl, rfl, rfl⟩
  · exact h

theorem keeps_unlinkUse (u : ExprId) : p.Keeps (p.unlinkUse u) := by
  unfold Procedure.unlinkUse
  split
  · exact (keeps_modifyExpr u (fun x => { x with defLink := none }) fun _ => rfl).trans
      (keeps_modifyExpr _ (fun x => { x with uses := x.uses.filter (· != u) }) fun _ => rfl)
  · exact .refl p

theorem keeps_linkUse (u d : ExprId) : p.Keeps (p.linkUse u d) :=
  (keeps_modifyExpr u (fun x => { x with defLink := some d }) fun _ => rfl).trans
    (keeps_modifyExpr d (fun x => { x with uses := x.uses ++ [u] }) fun _ => rfl)

/-! ### Assignments -/

/-- A node listed by nothing may become a definition position: it is loose until an
    assignment lists it. -/
theorem DefsPlaced.markDef (h : p.DefsPlaced none) {e : ExprId} (he : p.Unlisted e) :
    (p.modifyExpr e fun x => { x with isDef := true }).DefsPlaced (some e) := by
  -- every node keeps its kind and operands, and only `e` changes its mark
  have hv : ∀ {d x'}, (p.modifyExpr e fun x => { x with isDef := true }).expr? d = some x' →
      ∃ x, p.expr? d = some x ∧ x'.kind = x.kind ∧ x'.operands = x.operands ∧
        x'.parent = x.parent ∧ (d ≠ e → x'.isDef = x.isDef) := fun hd => by
    obtain ⟨x, hx, rfl⟩ := (expr?_modifyExpr_eq_some p).1 hd
    refine ⟨x, hx, ?_⟩
    split
    · exact ⟨rfl, rfl, rfl, fun hde => absurd ‹_› hde⟩
    · exact ⟨rfl, rfl, rfl, fun _ => rfl⟩
  refine ⟨fun {d x' q y'} hd hdef hq hdq => ?_, fun {q y'} hq o ho => ?_,
    fun {s st} hs o ho => ?_, fun {d x'} hd hdef hl => ?_⟩
  · obtain ⟨y, hy, hk, hops, -, -⟩ := hv hq
    by_cases hde : d = e
    · subst hde
      exact absurd (hops ▸ hdq) (he.1 hy)
    · obtain ⟨x, hx, -, -, -, hxd⟩ := hv hd
      rw [hk, hops] at ⊢
      exact h.operand hx ((hxd hde).symm.trans hdef) hy (hops ▸ hdq)
  · obtain ⟨y, hy, -, hops, -, -⟩ := hv hq
    simpa [modifyExpr] using h.operand_lt hy o (hops ▸ ho)
  · have hs' : p.stmt? s = some st := by simpa using hs
    obtain ⟨hlt, hnd⟩ := h.stmt hs' o ho
    refine ⟨by simpa [modifyExpr] using hlt, fun x' hx' => ?_⟩
    obtain ⟨x, hx, -, -, -, hxd⟩ := hv hx'
    exact (hxd fun hoe => he.2 hs' (hoe ▸ ho)).trans (hnd x hx)
  · obtain ⟨x, hx, -, -, hpar, hxd⟩ := hv hd
    have hde : d ≠ e := fun hde => hl (hde ▸ rfl)
    rw [hpar]
    exact h.attached hx ((hxd hde).symm.trans hdef) (by simp)

/-- Once the loose node has a parent, the placement needs no exception. -/
theorem DefsPlaced.tighten_of_parent {e : ExprId} (h : p.DefsPlaced (some e))
    (he : ∀ x, p.expr? e = some x → x.parent.isSome = true) : p.DefsPlaced none :=
  { h with
    attached := fun {d x} hd hdef _ => by
      by_cases hde : d = e
      · subst hde
        exact he x hd
      · exact h.attached hd hdef fun h' => hde (Option.some.inj h').symm }

/-- An assignment of a value a statement may list to a free node keeps the chains
    consistent: the node becomes a definition position, loose until the new assignment lists
    it first. The assignment is a new free node, which a statement may list; every other live
    node is kept with its mark. -/
theorem assign_runs (h : p.Consistent) {l r : ExprId} (hl : p.Free l) (hr : p.Listable r)
    (hlr : l ≠ r) :
    Runs (assign l r) p (fun a p' => p'.Consistent ∧ p'.Listable a ∧ p'.Free a ∧
      (∃ x, p'.expr? l = some x ∧ x.isDef = true) ∧
      ∀ {e x}, e ≠ l → p.expr? e = some x → ∃ x', p'.expr? e = some x' ∧ x'.isDef = x.isDef) E := by
  obtain ⟨xl, hxl, hxll⟩ := hl.live
  unfold assign
  refine runs_modify_bind ?_
  -- the written side is marked first, and is loose
  have hd₁ := h.placed.markDef hl.unlisted
  have hc₁ := h.chains.markDef fun x hx => by rw [hxl] at hx; cases hx; exact hxll
  have hxl₁ : (p.modifyExpr l fun x => { x with isDef := true }).expr? l =
      some { xl with isDef := true } := by simp [hxl]
  have hfit : (p.modifyExpr l fun x => { x with isDef := true }).Fits
      { kind := .assign, operands := [l, r] } := by
    refine ⟨fun o ho => ?_, fun {d x} hd hdef hdn => ⟨rfl, ?_⟩⟩
    · simp only [List.mem_cons, List.not_mem_nil, or_false] at ho
      rcases ho with rfl | rfl
      · simpa [modifyExpr] using p.index_lt_of_expr? hxl
      · simpa [modifyExpr] using hr.1
    · simp only [List.mem_cons, List.not_mem_nil, or_false] at hdn
      rcases hdn with rfl | rfl
      · exact ⟨[r], rfl, by simpa using hlr⟩
      · obtain ⟨x₀, hx₀, rfl⟩ := (expr?_modifyExpr_eq_some p).1 hd
        rw [if_neg (Ne.symm hlr)] at hdef
        simp [hr.2 x₀ hx₀] at hdef
  refine runs_mono (runs_and (runs_and (runs_and
    (allocExpr_runs_loose (E := E) hd₁ hc₁ ⟨rfl, rfl, rfl, rfl⟩ hfit) (allocExpr_spec (E := E) _))
    (allocExpr_unlisted (E := E) hd₁ hfit)) (allocExpr_keeps (E := E) _)) ?_ fun _ h => h.1.1.1
  rintro a p' ⟨⟨⟨⟨hd', hc', -, ha, hax⟩, -, -, hx'⟩, hun⟩, hk, -⟩
  -- the assignment gave the written side its parent
  have hla : l ≠ a := fun hla => by
    have hlt := p.index_lt_of_expr? hxl
    rw [hla, ha] at hlt
    simp [modifyExpr] at hlt
  have hxl' : p'.expr? l = some { xl with isDef := true, parent := some (.expr a) } := by
    rw [hx', if_neg hla, if_pos (by simp), hxl₁]
    rfl
  refine ⟨⟨hd'.tighten_of_parent fun x hx => ?_, hc'⟩, ⟨index_lt_of_expr? p' hax, fun x hx => ?_⟩,
    ⟨hun, _, hax, rfl⟩, ⟨_, hxl', rfl⟩, fun {e x} hel he => hk.live ?_⟩
  · rw [hxl'] at hx
    cases hx
    rfl
  · rw [hax] at hx
    cases hx
    rfl
  · rw [expr?_modifyExpr, if_neg hel, he]

/-- An assignment keeps free every free node it does not list. -/
theorem assign_frees (l r : ExprId) :
    Runs (assign l r) p (fun _ p' => ∀ e, e ∉ [l, r] → p.Free e → p'.Free e) E := by
  unfold assign
  refine runs_modify_bind (runs_mono (allocExpr_keeps _) (fun _ _ h e he hf => ?_) fun _ h => h)
  exact h.2.2.2 e he (hf.modifyExpr l _ fun _ => ⟨rfl, rfl⟩)

/-! ### Copies and statements -/

/-- Copying a subtree keeps every live node with its mark. -/
theorem cloneExpr_go_keeps (tags : CloneTags) :
    ∀ (n : Nat) (c : ExprId) {p : Procedure},
      Runs (cloneExpr.go tags n c) p (fun _ p' => p.Keeps p') E
  | 0, c, p => by
    rw [cloneExpr.go]
    exact runs_pure _ (.refl p)
  | n + 1, c, p => by
    rw [cloneExpr.go]
    refine runs_get_bind ?_
    dsimp only
    refine runs_bind (runs_mapM (fun _ => True) Keeps Keeps.refl Keeps.trans (fun _ _ _ => True)
      (fun _ _ => trivial) (fun o _ _ _ => runs_mono (cloneExpr_go_keeps tags n o)
        (fun _ _ h => ⟨trivial, h, trivial⟩) fun _ h => h) trivial) fun rs q hrs => ?_
    obtain ⟨_, hpq, _⟩ := hrs
    refine runs_bind (allocExpr_keeps _) fun new q' hnew => ?_
    have hkeep := hpq.trans hnew.1
    split
    · split
      · refine runs_get_bind ?_
        split
        · exact runs_modify_bind (runs_pure _ (hkeep.trans (keeps_linkUse _ _)))
        · exact runs_pure _ hkeep
      · exact runs_pure _ hkeep
    · exact runs_pure _ hkeep

/-- A copy not asked to keep links is a new node, free to become a definition position; every
    node live before stays live with its mark. -/
theorem cloneExpr_fresh (h : p.Consistent) (e : ExprId) {tags : CloneTags} (htags : tags.defLink = false) :
    Runs (cloneExpr e tags) p (fun r p' => p'.Consistent ∧ p.Keeps p' ∧
      p.exprs.size ≤ r.index ∧ p'.Free r) (fun p' => p'.Consistent) := by
  unfold cloneExpr
  refine runs_get_bind ?_
  rw [depthBound, cloneExpr.go]
  refine runs_get_bind ?_
  dsimp only
  -- the operands are copied first; the copy of the node itself is the last node added
  refine runs_bind (runs_and_ok (mapM_copies_runs (fun o _ hq ho => cloneExpr_go_runs tags _ o hq ho) h e)
    (runs_mapM (fun _ => True) Keeps Keeps.refl Keeps.trans (fun _ _ _ => True)
      (fun _ _ => trivial) (fun o _ _ _ => runs_mono (cloneExpr_go_keeps tags _ o)
        (fun _ _ h => ⟨trivial, h, trivial⟩) fun _ h => h) trivial))
    fun rs q hcopies => ?_
  obtain ⟨⟨hq, hpq, hrs⟩, _, hk, _⟩ := hcopies
  have hfit := fits_copies h.placed hpq e hrs
  refine runs_bind (runs_and_ok (runs_and_ok (allocExpr_runs hq ⟨rfl, rfl, rfl, rfl⟩ (hfit _ rfl rfl))
    (allocExpr_unlisted hq.placed (hfit _ rfl rfl))) (allocExpr_keeps _))
    fun new q' halloc => ?_
  obtain ⟨⟨⟨hq', _, hidx, hnew⟩, hun⟩, hk', _⟩ := halloc
  simp only [htags]
  exact runs_pure _ ⟨hq', hk.trans hk', hidx ▸ hpq.size_le, ⟨hun, _, hnew, rfl⟩⟩

theorem allocStmt_keeps (kind : StmtKind) (address : UInt64) (exprs : List ExprId)
    (bodies : List (Option CntrId)) :
    Runs (allocStmt kind address exprs bodies) p (fun _ p' => p.Keeps p') E := by
  refine runs_modifyGet ((keeps_foldl_modifyExpr exprs _ ?_).trans
    (keeps_of_exprs (stmtsOnly_foldl_modifyCntr _ _).exprs))
  exact fun _ => rfl

theorem pushStmt_keeps (c : CntrId) (s : StmtId) :
    Runs (pushStmt c s) p (fun _ p' => p.Keeps p') fun _ => True := by
  unfold pushStmt
  refine runs_get_bind ?_
  dsimp only
  split
  · exact runs_throw_bind _ trivial
  · refine runs_modify (StmtsOnly.keeps ?_)
    exact (stmtsOnly_modifyCntr c _).trans (stmtsOnly_modifyStmt s _ fun _ => rfl)

/-! ### Linking a reader -/

/-- The implicit definition of the place read by `u` keeps the chains consistent, also when
    it fails, and every node live before stays live with its mark. -/
theorem defineUninit_runs (h : p.Consistent) (u : ExprId) :
    Runs (defineUninit u) p (fun _ p' => p'.Consistent ∧ p.Keeps p') (fun p' => p'.Consistent) := by
  unfold defineUninit
  -- the written side is a fresh copy of the reader, newer than every node live before
  refine runs_bind (cloneExpr_fresh h u rfl) fun d q₁ ⟨h₁, hk₁, hd₁, hf₁⟩ => ?_
  refine runs_modify_bind ?_
  have h₂ : (q₁.modifyExpr d fun x => { x with weak := true }).Consistent :=
    ⟨h₁.placed.modifyLinks d _ fun _ => ⟨rfl, rfl, rfl, rfl⟩,
      h₁.chains.modifyShape d _ fun _ => ⟨rfl, rfl, rfl, rfl⟩⟩
  have hf₂ := hf₁.modifyExpr d (fun x => { x with weak := true }) fun _ => ⟨rfl, rfl⟩
  have hk₂ := hk₁.trans (keeps_modifyExpr d (fun x => { x with weak := true }) fun _ => rfl)
  refine runs_get_bind ?_
  -- the value is a new node, which does not list the written side
  refine runs_bind (runs_and_ok (val_runs h₂ 0 _) (allocExpr_keeps _))
    fun z q₃ ⟨⟨h₃, _, hz⟩, hk₃, hzi, _, hfree⟩ => ?_
  have hdz : d ≠ z := fun hdz => by
    obtain ⟨x, hx, _⟩ := hf₂.live
    have hlt := index_lt_of_expr? _ hx
    rw [← hzi, hdz] at hlt
    exact Nat.lt_irrefl _ hlt
  refine runs_bind (assign_runs h₃ (hfree d (by simp) hf₂) hz hdz)
    fun a q₄ ⟨h₄, ha, _, hdef, hk₄⟩ => ?_
  -- every node live before is older than the written side, so the assignment keeps it
  have hk₄' : p.Keeps q₄ := ⟨fun {e x} he => by
    obtain ⟨x₃, hx₃, hd₃⟩ := (hk₂.trans hk₃).live he
    have hed : e ≠ d := fun hed => by
      have hlt := p.index_lt_of_expr? he
      rw [hed] at hlt
      exact Nat.lt_irrefl _ (Nat.lt_of_lt_of_le hlt hd₁)
    obtain ⟨x₄, hx₄, hd₄⟩ := hk₄ hed hx₃
    exact ⟨x₄, hx₄, hd₄.trans hd₃⟩⟩
  refine runs_get_bind ?_
  refine runs_bind (runs_and_ok (allocStmt_runs h₄ .expr _
    (fun e he => List.mem_singleton.1 he ▸ ha) []) (allocStmt_keeps _ _ _ _))
    fun s q₅ ⟨⟨h₅, _⟩, hk₅⟩ => ?_
  refine runs_bind (runs_and_ok (pushStmt_runs h₅ _ s) (pushStmt_keeps _ s))
    fun _ q₆ ⟨⟨h₆, _⟩, hk₆⟩ => ?_
  -- the written side is a definition position still, and is registered last
  obtain ⟨xd, hxd, hxdd⟩ := hdef
  obtain ⟨xd', hxd', hxdd'⟩ := (hk₅.trans hk₆).live hxd
  refine runs_modify_bind (runs_pure _ ⟨⟨h₆.placed.modifyLinks d _ fun _ => ⟨rfl, rfl, rfl, rfl⟩,
    h₆.chains.register fun x hx => ?_⟩,
    (hk₄'.trans (hk₅.trans hk₆)).trans (keeps_modifyExpr d _ fun _ => rfl)⟩)
  rw [hxd'] at hx
  cases hx
  exact hxdd'.trans hxdd

/-- Unlinking a reader changes links and reader lists only, and leaves the reader reading
    nothing. -/
theorem unlinkUse_view (u : ExprId) {m : ExprId} {x : ExprNode} (hm : p.expr? m = some x) :
    ∃ x', (p.unlinkUse u).expr? m = some x' ∧ x'.tracked = x.tracked ∧ x'.isDef = x.isDef ∧
      (m = u → x'.defLink = none) := by
  unfold Procedure.unlinkUse
  split
  · next d _ =>
    by_cases hmd : m = d
    · subst hmd
      by_cases hmu : m = u
      · subst hmu
        simp [hm]
      · simp [hm, hmu]
    · by_cases hmu : m = u
      · subst hmu
        simp [hm, hmd]
      · simp [hm, hmd, hmu]
  · next hl =>
    refine ⟨x, hm, rfl, rfl, fun hmu => ?_⟩
    subst hmu
    rwa [node_of_expr? p hm] at hl

/-- Linking a live reader that is no definition position keeps the chains consistent; the
    link is refused, and nothing changes, when the definition is not registered. -/
theorem addUse_runs (h : p.Consistent) {u d : ExprId} {y : ExprNode} (hu : p.expr? u = some y)
    (hy : y.isDef = false) :
    Runs (addUse u d) p (fun _ p' => p'.Consistent ∧ p.Keeps p') (fun p' => p'.Consistent) := by
  unfold addUse
  refine runs_get_bind ?_
  split
  · -- refused before anything changes
    dsimp only
    exact runs_bind (runs_liftM (Q := fun _ q => q.Consistent) (fun _ _ => h) h)
      fun _ _ hq => runs_throw_bind _ hq
  · next ht =>
    obtain ⟨x, hx, hxt⟩ : ∃ x, p.expr? d = some x ∧ x.tracked = true := by
      cases hd : p.expr? d with
      | none => simp [isTracked, hd] at ht
      | some x => exact ⟨x, rfl, by simpa [isTracked, hd] using ht⟩
    obtain ⟨y', hy', _, hyd, hyl⟩ := unlinkUse_view u hu
    obtain ⟨x', hx', hxt', _, _⟩ := unlinkUse_view u hx
    exact runs_set ⟨⟨(h.placed.unlinkUse u).linkUse u d,
      (h.chains.unlinkUse u).linkUse hy' (hyl rfl) (hyd.trans hy) hx' (hxt'.trans hxt)⟩,
      (keeps_unlinkUse u).trans (keeps_linkUse u d)⟩

/-! ### The rebuild -/

/-- Rebuilding the chains from a procedure whose definition positions stand in place leaves
    them consistent, whether it succeeds or fails. -/
theorem linkDefs_runs (h : p.DefsPlaced none) :
    Runs linkDefs p (fun _ p' => p'.Consistent) (fun p' => p'.Consistent) := by
  unfold linkDefs
  -- cleared, the chains hold trivially; the old implicit definitions go
  refine runs_modify_bind ?_
  refine runs_get_bind ?_
  refine runs_bind (runs_forIn_inv (fun _ q => q.Consistent) (Consistent.of_cleared h)
    fun s _ _ q hq => runs_bind (pluckStmt_runs hq s true) fun _ _ hq' => runs_pure _ hq'.1)
    fun _ q₂ h₂ => ?_
  refine runs_get_bind ?_
  dsimp only
  -- registering marks definition positions only
  refine runs_bind (runs_forIn_inv (fun _ q => q.Consistent) h₂ fun n _ _ q hq => ?_)
    fun _ q₃ h₃ => ?_
  · refine runs_get_bind ?_
    split
    · next i hx =>
      refine runs_get_bind (runs_bind (runs_liftM (Q := fun _ q' => q' = q) (fun _ _ => rfl) hq)
        fun _ _ hq' => ?_)
      subst hq'
      refine runs_modify_bind (runs_pure _ ⟨hq.placed.modifyLinks n _ fun _ => ⟨rfl, rfl, rfl, rfl⟩,
        hq.chains.register fun x hxn => ?_⟩)
      rw [node_of_expr? _ hxn] at hx
      exact (Prod.mk.inj hx).1
    · exact runs_pure _ hq
  -- linking each reader, to an implicit definition made up when the place has none
  refine runs_bind (runs_forIn_inv (fun _ q => q.Consistent) h₃ fun n _ _ q hq => ?_)
    fun _ _ h₄ => runs_pure _ h₄
  refine runs_get_bind ?_
  split
  · next i hx =>
    -- the reader is live: a deleted node has no subscript
    obtain ⟨y, hy, hyd⟩ : ∃ y, q.expr? n = some y ∧ y.isDef = false := by
      cases hn : q.expr? n with
      | none =>
        rw [node_of_expr?_eq_none _ hn] at hx
        cases hx
      | some y =>
        rw [node_of_expr? _ hn] at hx
        exact ⟨y, rfl, (Prod.mk.inj hx).1⟩
    refine runs_get_bind (runs_bind (runs_liftM (Q := fun _ q' => q' = q) (fun _ _ => rfl) hq)
      fun _ _ hq' => ?_)
    subst hq'
    split
    · rw [pure_bind]
      exact runs_bind (addUse_runs hq hy hyd) fun _ _ h' => runs_pure _ h'.1
    · refine runs_bind (defineUninit_runs hq n) fun d q' ⟨hq', hk⟩ => ?_
      obtain ⟨y', hy', hyd'⟩ := hk.reader hy hyd
      rw [pure_bind]
      exact runs_bind (addUse_runs hq' hy' hyd') fun _ _ h' => runs_pure _ h'.1
  · exact runs_pure _ hq

end Procedure

end Decompilation
