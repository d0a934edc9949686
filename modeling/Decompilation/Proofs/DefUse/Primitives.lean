import Decompilation.Proofs.DefUse.Invariant

/-!
# What the primitive changes of a procedure keep

Every edit of the optimizer is made of a few changes of single nodes: setting the parent of an
expression, putting an expression in an operand or statement slot, taking one out, adding a
node, emptying a slot, and linking or unlinking a reader. Each lemma here says that one such
change keeps `DefsPlaced` or `ChainsExact`, under the condition the edits meet when they make
it: what is put in a slot or left without a parent is no definition position, what a new node
lists has a slot.
-/

namespace Decompilation

namespace Procedure

variable {p : Procedure} {l : Option ExprId}

/-! ### Expressions a statement may list -/

/-- A node that is not live, or live and no definition position, is none. -/
def NotDef (p : Procedure) (e : ExprId) : Prop := ∀ x, p.expr? e = some x → x.isDef = false

theorem Listable.notDef {e : ExprId} (h : p.Listable e) : p.NotDef e := h.2

/-- An operand of a live expression that is no assignment is no definition position. -/
theorem DefsPlaced.notDef_of_operand (h : p.DefsPlaced l) {q : ExprId} {y : ExprNode}
    (hq : p.expr? q = some y) (hkind : y.kind ≠ .assign) {e : ExprId} (he : e ∈ y.operands) :
    p.NotDef e := by
  intro x hx
  cases hdef : x.isDef with
  | false => rfl
  | true => exact absurd (h.operand hx hdef hq he).1 hkind

theorem DefsPlaced.listable_of_operand (h : p.DefsPlaced l) {q : ExprId} {y : ExprNode}
    (hq : p.expr? q = some y) (hkind : y.kind ≠ .assign) {e : ExprId} (he : e ∈ y.operands) :
    p.Listable e :=
  ⟨h.operand_lt hq e he, h.notDef_of_operand hq hkind he⟩

/-- A new node `n` lists its operands in `p` as a live node may: each has a slot, and a
    definition position among them heads the operands of an assignment, once. -/
structure Fits (p : Procedure) (n : ExprNode) : Prop where
  lt : ∀ o ∈ n.operands, o.index < p.exprs.size
  def_head : ∀ {d x}, p.expr? d = some x → x.isDef = true → d ∈ n.operands →
    n.kind = .assign ∧ ∃ rest, n.operands = d :: rest ∧ d ∉ rest

/-- A node whose operands a statement may list fits. -/
theorem Fits.of_listable {n : ExprNode} (hops : ∀ o ∈ n.operands, p.Listable o) : p.Fits n where
  lt o ho := (hops o ho).1
  def_head {d x} hd hdef hdn := by simp [(hops d hdn).2 x hd] at hdef

/-! ### Changes that keep the shape of every node -/

/-- The placement carries over to a procedure with no more live nodes, each of the same kind,
    operands and definition mark, whose statements list what they listed, when the definition
    positions that must be are still attached. -/
theorem DefsPlaced.of_shape {p' : Procedure} {l' : Option ExprId} (h : p.DefsPlaced l)
    (hsize : p.exprs.size ≤ p'.exprs.size)
    (hshape : ∀ {d x'}, p'.expr? d = some x' → ∃ x, p.expr? d = some x ∧ x.kind = x'.kind ∧
      x.operands = x'.operands ∧ x.isDef = x'.isDef)
    (hstmt : ∀ {s st'}, p'.stmt? s = some st' → ∃ st, p.stmt? s = some st ∧ st'.exprs = st.exprs)
    (hatt : ∀ {d x'}, p'.expr? d = some x' → x'.isDef = true → l' ≠ some d →
      x'.parent.isSome = true) :
    p'.DefsPlaced l' where
  operand {d x' q y'} hd hdef hq hdq := by
    obtain ⟨x, hx, -, -, hxd⟩ := hshape hd
    obtain ⟨y, hy, hk, ho, -⟩ := hshape hq
    rw [← hk, ← ho]
    exact h.operand hx (hxd.trans hdef) hy (ho ▸ hdq)
  operand_lt {q y'} hq o ho := by
    obtain ⟨y, hy, -, hops, -⟩ := hshape hq
    exact Nat.lt_of_lt_of_le (h.operand_lt hy o (hops ▸ ho)) hsize
  stmt {s st'} hs o ho := by
    obtain ⟨st, hst, hex⟩ := hstmt hs
    obtain ⟨hlt, hnd⟩ := h.stmt hst o (hex ▸ ho)
    refine ⟨Nat.lt_of_lt_of_le hlt hsize, fun x' hx' => ?_⟩
    obtain ⟨x, hx, -, -, hxd⟩ := hshape hx'
    exact hxd ▸ hnd x hx
  attached := hatt

/-! ### The loose node -/

/-- A placement with no loose node allows any. -/
theorem DefsPlaced.loosen (h : p.DefsPlaced none) (l : Option ExprId) : p.DefsPlaced l :=
  { h with attached := fun hd hdef _ => h.attached hd hdef (by simp) }

/-- Once the loose node is deleted, the placement needs no exception. -/
theorem DefsPlaced.tighten {e : ExprId} (h : p.DefsPlaced (some e)) (he : p.expr? e = none) :
    p.DefsPlaced none :=
  { h with
    attached := fun {d x} hd hdef _ => h.attached hd hdef fun hde => by
      obtain rfl := Option.some.inj hde
      simp [hd] at he }

/-! ### Parents -/

/-- Setting the parent of an expression keeps the placement, unless it leaves a definition
    position other than the loose node without a parent. -/
theorem DefsPlaced.setParent (h : p.DefsPlaced l) (e : ExprId) (par : Option ExprParent)
    (hpar : par.isSome = true ∨ p.NotDef e ∨ l = some e) :
    (p.modifyExpr e fun x => { x with parent := par }).DefsPlaced l := by
  refine h.of_shape (by simp [modifyExpr]) (fun hd => ?_) (fun {s st'} hs => ⟨st', hs, rfl⟩)
    (fun {d x'} hd hdef hl => ?_)
  · obtain ⟨x, hx, rfl⟩ := (expr?_modifyExpr_eq_some p).1 hd
    exact ⟨x, hx, by split <;> simp⟩
  · obtain ⟨x, hx, rfl⟩ := (expr?_modifyExpr_eq_some p).1 hd
    split
    · next hde =>
      subst hde
      rcases hpar with hpar | hnd | hle
      · exact hpar
      · simp_all [hnd x hx]
      · exact absurd hle hl
    · simp only [if_neg ‹_›] at hdef ⊢
      exact h.attached hx hdef hl

/-! ### Operand slots -/

/-- A definition position heading a list it occurs in once still does after another entry of
    the list is replaced by something else. -/
private theorem head_unique_set {d old new : ExprId} {rest : List ExprId} {slot : Nat}
    (hd : d ∉ rest) (hslot : (d :: rest)[slot]? = some old) (hold : old ≠ d) (hnew : new ≠ d) :
    ∃ rest', (d :: rest).set slot new = d :: rest' ∧ d ∉ rest' := by
  cases slot with
  | zero => simp at hslot; exact absurd hslot.symm hold
  | succ i =>
    refine ⟨rest.set i new, List.set_cons_succ, fun h => ?_⟩
    rcases List.mem_or_eq_of_mem_set h with h | h
    · exact hd h
    · exact hnew h.symm

/-- A definition position heading a list it occurs in once, if still in the list after an
    entry is taken out, still heads it once. -/
private theorem head_unique_eraseIdx {d : ExprId} {rest : List ExprId} {slot : Nat}
    (hd : d ∉ rest) (hmem : d ∈ (d :: rest).eraseIdx slot) :
    ∃ rest', (d :: rest).eraseIdx slot = d :: rest' ∧ d ∉ rest' := by
  cases slot with
  | zero => exact absurd (by simpa using hmem) hd
  | succ i => exact ⟨rest.eraseIdx i, List.eraseIdx_cons_succ, fun h => hd (List.mem_of_mem_eraseIdx h)⟩

/-- Putting an expression that is no definition position, and has a slot, in the operand slot
    of another keeps the placement. -/
theorem DefsPlaced.setOperand (h : p.DefsPlaced l) {q old new : ExprId} {slot : Nat}
    (hslot : (p.node q).operands[slot]? = some old) (hold : p.NotDef old)
    (hnew : p.Listable new) :
    (p.modifyExpr q fun x => { x with operands := x.operands.set slot new }).DefsPlaced l where
  operand {d x' q' y'} hd hdef hq' hdq := by
    obtain ⟨x, hx, hxx⟩ := (expr?_modifyExpr_eq_some p).1 hd
    have hxd : x.isDef = true := by rw [← hdef, ← hxx]; split <;> rfl
    obtain ⟨y, hy, rfl⟩ := (expr?_modifyExpr_eq_some p).1 hq'
    split at hdq
    · next hqq =>
      subst hqq
      rw [node_of_expr? p hy] at hslot
      have hdn : new ≠ d := fun h => by simp [hnew.2 x (h ▸ hx)] at hxd
      have hdo : old ≠ d := fun h => by simp [hold x (h ▸ hx)] at hxd
      rcases List.mem_or_eq_of_mem_set hdq with hdq | hdq
      · obtain ⟨hk, rest, hops, hrest⟩ := h.operand hx hxd hy hdq
        rw [if_pos rfl]
        rw [hops] at hslot ⊢
        exact ⟨hk, head_unique_set hrest hslot hdo hdn⟩
      · exact absurd hdq.symm hdn
    · rw [if_neg ‹_›]
      exact h.operand hx hxd hy hdq
  operand_lt {q' y'} hq' o ho := by
    obtain ⟨y, hy, rfl⟩ := (expr?_modifyExpr_eq_some p).1 hq'
    simp only [modifyExpr, Array.size_modify]
    split at ho
    · next hqq =>
      rcases List.mem_or_eq_of_mem_set ho with ho | rfl
      · exact h.operand_lt hy o ho
      · exact hnew.1
    · exact h.operand_lt hy o ho
  stmt {s st} hs o ho := by
    obtain ⟨hlt, hnd⟩ := h.stmt hs o ho
    refine ⟨by simpa [modifyExpr] using hlt, fun x' hx' => ?_⟩
    obtain ⟨x, hx, rfl⟩ := (expr?_modifyExpr_eq_some p).1 hx'
    split <;> exact hnd x hx
  attached {d x'} hd hdef hl := by
    obtain ⟨x, hx, hv⟩ := expr?_modifyExpr_view p (fun x => (x.isDef, x.parent)) hd fun _ => rfl
    simp only [Prod.mk.injEq] at hv
    rw [hv.2]
    exact h.attached hx (hv.1 ▸ hdef) hl

/-- Taking an entry out of an operand list keeps the placement. -/
theorem DefsPlaced.eraseOperand (h : p.DefsPlaced l) (q : ExprId) (slot : Nat) :
    (p.modifyExpr q fun x => { x with operands := x.operands.eraseIdx slot }).DefsPlaced l where
  operand {d x' q' y'} hd hdef hq' hdq := by
    obtain ⟨x, hx, hxx⟩ := (expr?_modifyExpr_eq_some p).1 hd
    have hxd : x.isDef = true := by rw [← hdef, ← hxx]; split <;> rfl
    obtain ⟨y, hy, rfl⟩ := (expr?_modifyExpr_eq_some p).1 hq'
    split at hdq
    · obtain ⟨hk, rest, hops, hrest⟩ := h.operand hx hxd hy (List.mem_of_mem_eraseIdx hdq)
      rw [if_pos ‹_›]
      rw [hops] at hdq ⊢
      exact ⟨hk, head_unique_eraseIdx hrest hdq⟩
    · rw [if_neg ‹_›]
      exact h.operand hx hxd hy hdq
  operand_lt {q' y'} hq' o ho := by
    obtain ⟨y, hy, rfl⟩ := (expr?_modifyExpr_eq_some p).1 hq'
    simp only [modifyExpr, Array.size_modify]
    split at ho
    · exact h.operand_lt hy o (List.mem_of_mem_eraseIdx ho)
    · exact h.operand_lt hy o ho
  stmt {s st} hs o ho := by
    obtain ⟨hlt, hnd⟩ := h.stmt hs o ho
    refine ⟨by simpa [modifyExpr] using hlt, fun x' hx' => ?_⟩
    obtain ⟨x, hx, rfl⟩ := (expr?_modifyExpr_eq_some p).1 hx'
    split <;> exact hnd x hx
  attached {d x'} hd hdef hl := by
    obtain ⟨x, hx, hv⟩ := expr?_modifyExpr_view p (fun x => (x.isDef, x.parent)) hd fun _ => rfl
    simp only [Prod.mk.injEq] at hv
    rw [hv.2]
    exact h.attached hx (hv.1 ▸ hdef) hl

/-! ### Statements -/

/-- A change of the statements only, after which every statement lists expressions a
    statement may list, keeps the placement. -/
theorem DefsPlaced.of_stmts {p' : Procedure} (h : p.DefsPlaced l) (hx : p'.exprs = p.exprs)
    (hs : ∀ {s st'}, p'.stmt? s = some st' → ∀ e ∈ st'.exprs, p.Listable e) :
    p'.DefsPlaced l := by
  have he : ∀ d, p'.expr? d = p.expr? d := fun d => by simp [expr?, hx]
  exact {
    operand := fun hd hdef hq hdq => h.operand ((he _).symm ▸ hd) hdef ((he _).symm ▸ hq) hdq
    operand_lt := fun hq o ho => hx ▸ h.operand_lt ((he _).symm ▸ hq) o ho
    stmt := fun hs' o ho => by
      obtain ⟨hlt, hnd⟩ := hs hs' o ho
      exact ⟨hx ▸ hlt, fun x hx' => hnd x ((he _).symm ▸ hx')⟩
    attached := fun hd hdef hl => h.attached ((he _).symm ▸ hd) hdef hl }

/-- Putting an expression a statement may list in a statement's expression slot keeps the
    placement. -/
theorem DefsPlaced.setStmtExpr (h : p.DefsPlaced l) (s : StmtId) (slot : Nat) {new : ExprId}
    (hnew : p.Listable new) :
    (p.modifyStmt s fun x => { x with exprs := x.exprs.set slot new }).DefsPlaced l := by
  refine h.of_stmts rfl fun {t st'} ht e he => ?_
  rw [stmt?_modifyStmt] at ht
  split at ht
  · obtain ⟨st, hst, rfl⟩ := Option.map_eq_some_iff.1 ht
    rcases List.mem_or_eq_of_mem_set he with he | rfl
    · exact h.stmt hst e he
    · exact hnew
  · exact h.stmt ht e he

/-- Taking an entry out of a statement's expressions keeps the placement. -/
theorem DefsPlaced.eraseStmtExpr (h : p.DefsPlaced l) (s : StmtId) (slot : Nat) :
    (p.modifyStmt s fun x => { x with exprs := x.exprs.eraseIdx slot }).DefsPlaced l := by
  refine h.of_stmts rfl fun {t st'} ht e he => ?_
  rw [stmt?_modifyStmt] at ht
  split at ht
  · obtain ⟨st, hst, rfl⟩ := Option.map_eq_some_iff.1 ht
    exact h.stmt hst e (List.mem_of_mem_eraseIdx he)
  · exact h.stmt ht e he

/-! ### New nodes and emptied slots -/

/-- A new node that is no definition position keeps the placement when it lists its
    operands as the live nodes do. -/
theorem DefsPlaced.push (h : p.DefsPlaced l) {n : ExprNode} (hn : n.isDef = false)
    (hfit : p.Fits n) :
    ({ p with exprs := p.exprs.push (some n) } : Procedure).DefsPlaced l where
  operand {d x q y} hd hdef hq hdq := by
    rw [expr?_push] at hd hq
    split at hd
    · simp_all
    · split at hq
      · obtain rfl := Option.some.inj hq
        exact hfit.def_head hd hdef hdq
      · exact h.operand hd hdef hq hdq
  operand_lt {q y} hq o ho := by
    rw [expr?_push] at hq
    simp only [Array.size_push]
    split at hq
    · obtain rfl := Option.some.inj hq
      exact Nat.lt_succ_of_lt (hfit.lt o ho)
    · exact Nat.lt_succ_of_lt (h.operand_lt hq o ho)
  stmt {s st} hs e he := by
    obtain ⟨hlt, hnd⟩ := h.stmt hs e he
    refine ⟨by simp only [Array.size_push]; omega, fun x hx => ?_⟩
    rw [expr?_push, if_neg (by omega)] at hx
    exact hnd x hx
  attached {d x} hd hdef hl := by
    rw [expr?_push] at hd
    split at hd
    · simp_all
    · exact h.attached hd hdef hl

/-- Emptying a slot keeps the placement. -/
theorem DefsPlaced.clear (h : p.DefsPlaced l) (e : ExprId) :
    ({ p with exprs := p.exprs.modify e.index fun _ => none } : Procedure).DefsPlaced l := by
  refine h.of_shape (by simp) (fun {d x'} hd => ?_) (fun {s st'} hs => ⟨st', hs, rfl⟩)
    (fun {d x'} hd hdef hl => ?_)
  · rw [expr?_clear] at hd
    split at hd
    · simp at hd
    · exact ⟨x', hd, rfl, rfl, rfl⟩
  · rw [expr?_clear] at hd
    split at hd
    · simp at hd
    · exact h.attached hd hdef hl

/-- A change of an expression's links and readers keeps the placement. -/
theorem DefsPlaced.modifyLinks (h : p.DefsPlaced l) (e : ExprId) (f : ExprNode → ExprNode)
    (hf : ∀ x, (f x).kind = x.kind ∧ (f x).operands = x.operands ∧ (f x).isDef = x.isDef ∧
      (f x).parent = x.parent) :
    (p.modifyExpr e f).DefsPlaced l := by
  refine h.of_shape (by simp [modifyExpr]) (fun {d x'} hd => ?_) (fun {s st'} hs => ⟨st', hs, rfl⟩)
    (fun {d x'} hd hdef hl => ?_)
  · obtain ⟨x, hx, hv⟩ := expr?_modifyExpr_view p (fun x => (x.kind, x.operands, x.isDef)) hd
      fun x => by simp [hf x]
    simp only [Prod.mk.injEq] at hv
    exact ⟨x, hx, hv.1.symm, hv.2.1.symm, hv.2.2.symm⟩
  · obtain ⟨x, hx, hv⟩ := expr?_modifyExpr_view p (fun x => (x.isDef, x.parent)) hd
      fun x => by simp [hf x]
    simp only [Prod.mk.injEq] at hv
    rw [hv.2]
    exact h.attached hx (hv.1 ▸ hdef) hl

/-! ### The chains -/

/-- The chains carry over to a procedure with the same expression slots. -/
theorem ChainsExact.of_exprs {p' : Procedure} (h : p.ChainsExact) (hx : p'.exprs = p.exprs) :
    p'.ChainsExact := by
  have he : ∀ d, p'.expr? d = p.expr? d := fun d => by simp [expr?, hx]
  exact {
    tracked := fun hd ht => h.tracked ((he _) ▸ hd) ht
    uses := fun hd u hu => by simpa only [he] using h.uses ((he _) ▸ hd) u hu
    link := fun he' hl => by simpa only [he] using h.link ((he _) ▸ he') hl
    reader := fun he' hl => h.reader ((he _) ▸ he') hl }

/-- A change of an expression that keeps its registration, definition mark, link and readers
    keeps the chains. -/
theorem ChainsExact.modifyShape (h : p.ChainsExact) (e : ExprId) (f : ExprNode → ExprNode)
    (hf : ∀ x, (f x).tracked = x.tracked ∧ (f x).isDef = x.isDef ∧ (f x).defLink = x.defLink ∧
      (f x).uses = x.uses) :
    (p.modifyExpr e f).ChainsExact := by
  have hv : ∀ {d x'}, (p.modifyExpr e f).expr? d = some x' → ∃ x, p.expr? d = some x ∧
      x'.tracked = x.tracked ∧ x'.isDef = x.isDef ∧ x'.defLink = x.defLink ∧ x'.uses = x.uses :=
    fun hd => by
      obtain ⟨x, hx, hv⟩ := expr?_modifyExpr_view p
        (fun x => (x.tracked, x.isDef, x.defLink, x.uses)) hd fun x => by simp [hf x]
      simp only [Prod.mk.injEq] at hv
      exact ⟨x, hx, hv⟩
  have hlive : ∀ {d x}, p.expr? d = some x → ∃ x', (p.modifyExpr e f).expr? d = some x' ∧
      x'.tracked = x.tracked ∧ x'.isDef = x.isDef ∧ x'.defLink = x.defLink ∧ x'.uses = x.uses :=
    fun {d x} hd => by
      rw [expr?_modifyExpr]
      split
      · exact ⟨f x, by simp [hd], hf x⟩
      · exact ⟨x, hd, rfl, rfl, rfl, rfl⟩
  exact {
    tracked := fun hd ht => by
      obtain ⟨x, hx, ht', hd', -⟩ := hv hd
      rw [hd']
      exact h.tracked hx (ht' ▸ ht)
    uses := fun hd u hu => by
      obtain ⟨x, hx, -, -, -, hu'⟩ := hv hd
      obtain ⟨y, hy, hl⟩ := h.uses hx u (hu' ▸ hu)
      obtain ⟨y', hy', -, -, hl', -⟩ := hlive hy
      exact ⟨y', hy', hl' ▸ hl⟩
    link := fun he' hl => by
      obtain ⟨y, hy, -, -, hl', -⟩ := hv he'
      obtain ⟨x, hx, ht, hmem⟩ := h.link hy (hl' ▸ hl)
      obtain ⟨x', hx', ht', -, -, hu'⟩ := hlive hx
      exact ⟨x', hx', ht' ▸ ht, hu' ▸ hmem⟩
    reader := fun he' hl => by
      obtain ⟨y, hy, -, hd', hl', -⟩ := hv he'
      exact hd' ▸ h.reader hy (hl' ▸ hl) }

/-- Adding an unregistered node with no link and no readers keeps the chains. -/
theorem ChainsExact.push (h : p.ChainsExact) {n : ExprNode} (ht : n.tracked = false)
    (hl : n.defLink = none) (hu : n.uses = []) :
    ({ p with exprs := p.exprs.push (some n) } : Procedure).ChainsExact := by
  -- the lookups of the live nodes of `p` are unchanged
  have hold : ∀ {d x}, p.expr? d = some x →
      ({ p with exprs := p.exprs.push (some n) } : Procedure).expr? d = some x := fun hd => by
    rw [expr?_push, if_neg (Nat.ne_of_lt (p.index_lt_of_expr? hd))]
    exact hd
  exact {
    tracked := fun hd ht' => by
      rw [expr?_push] at hd
      split at hd
      · obtain rfl := Option.some.inj hd
        simp [ht] at ht'
      · exact h.tracked hd ht'
    uses := fun hd u hu' => by
      rw [expr?_push] at hd
      split at hd
      · obtain rfl := Option.some.inj hd
        simp [hu] at hu'
      · obtain ⟨y, hy, hly⟩ := h.uses hd u hu'
        exact ⟨y, hold hy, hly⟩
    link := fun he hl' => by
      rw [expr?_push] at he
      split at he
      · obtain rfl := Option.some.inj he
        simp [hl] at hl'
      · obtain ⟨x, hx, htx, hmem⟩ := h.link he hl'
        exact ⟨x, hold hx, htx, hmem⟩
    reader := fun he hl' => by
      rw [expr?_push] at he
      split at he
      · obtain rfl := Option.some.inj he
        simp [hl] at hl'
      · exact h.reader he hl' }

/-- Linking an unlinked reader that is no definition position to a live registered
    definition keeps the chains. -/
theorem ChainsExact.linkUse (h : p.ChainsExact) {u d : ExprId} {y x : ExprNode}
    (hu : p.expr? u = some y) (hyl : y.defLink = none) (hyd : y.isDef = false)
    (hd : p.expr? d = some x) (hxt : x.tracked = true) : (p.linkUse u d).ChainsExact := by
  have hud : u ≠ d := by
    rintro rfl
    obtain rfl := Option.some.inj (hu.symm.trans hd)
    simp [h.tracked hu hxt] at hyd
  -- the reader is recorded by no node yet
  have hnot : ∀ {m z}, p.expr? m = some z → u ∉ z.uses := fun hm hmem => by
    obtain ⟨y', hy', hl⟩ := h.uses hm u hmem
    rw [hu] at hy'
    obtain rfl := Option.some.inj hy'
    simp [hyl] at hl
  have hlook : ∀ m, (p.linkUse u d).expr? m =
      if m = u then some { y with defLink := some d }
      else if m = d then some { x with uses := x.uses ++ [u] } else p.expr? m := fun m => by
    by_cases hmu : m = u
    · subst hmu
      simp [Procedure.linkUse, hu, hud]
    · by_cases hmd : m = d
      · subst hmd
        simp [Procedure.linkUse, hd, hmu]
      · simp [Procedure.linkUse, hmu, hmd]
  have hcases : ∀ {m z'}, (p.linkUse u d).expr? m = some z' →
      (m = u ∧ z' = { y with defLink := some d }) ∨
      (m = d ∧ z' = { x with uses := x.uses ++ [u] }) ∨
      (m ≠ u ∧ m ≠ d ∧ p.expr? m = some z') := fun {m z'} hm => by
    rw [hlook] at hm
    by_cases hmu : m = u
    · rw [if_pos hmu] at hm
      exact .inl ⟨hmu, (Option.some.inj hm).symm⟩
    · by_cases hmd : m = d
      · rw [if_neg hmu, if_pos hmd] at hm
        exact .inr (.inl ⟨hmd, (Option.some.inj hm).symm⟩)
      · rw [if_neg hmu, if_neg hmd] at hm
        exact .inr (.inr ⟨hmu, hmd, hm⟩)
  -- a node of `p` is live afterwards, with its link unless it is the reader
  have hlive : ∀ {m z}, p.expr? m = some z → m ≠ u →
      ∃ z', (p.linkUse u d).expr? m = some z' ∧ z'.defLink = z.defLink := fun {m z} hm hmu => by
    rw [hlook, if_neg hmu]
    by_cases hmd : m = d
    · subst hmd
      rw [if_pos rfl]
      exact ⟨_, rfl, by rw [hd] at hm; cases hm; rfl⟩
    · exact ⟨z, by rw [if_neg hmd, hm], rfl⟩
  refine ⟨fun {m z'} hm ht => ?_, fun {m z'} hm w hw => ?_, fun {e z' d'} he hl => ?_,
    fun {e z' d'} he hl => ?_⟩
  · -- registration is unchanged
    rcases hcases hm with ⟨-, rfl⟩ | ⟨-, rfl⟩ | ⟨-, -, hm⟩
    · exact absurd (h.tracked (x := y) hu ht) (by simp [hyd])
    · exact h.tracked (x := x) hd ht
    · exact h.tracked hm ht
  · -- the readers recorded: the new one links to `d`, the others are as they were
    rcases hcases hm with ⟨rfl, rfl⟩ | ⟨rfl, rfl⟩ | ⟨hmu, -, hm⟩
    · obtain ⟨v, hv, hvl⟩ := h.uses hu w hw
      obtain ⟨v', hv', hvl'⟩ := hlive hv fun hwu => by subst hwu; simp_all
      exact ⟨v', hv', hvl'.trans hvl⟩
    · rcases List.mem_append.1 hw with hw | hw
      · obtain ⟨v, hv, hvl⟩ := h.uses hd w hw
        obtain ⟨v', hv', hvl'⟩ := hlive hv fun hwu => hnot hd (hwu ▸ hw)
        exact ⟨v', hv', hvl'.trans hvl⟩
      · obtain rfl := List.mem_singleton.1 hw
        rw [hlook, if_pos rfl]
        exact ⟨_, rfl, rfl⟩
    · obtain ⟨v, hv, hvl⟩ := h.uses hm w hw
      obtain ⟨v', hv', hvl'⟩ := hlive hv fun hwu => hnot hm (hwu ▸ hw)
      exact ⟨v', hv', hvl'.trans hvl⟩
  · -- a link names a live registered definition recording the reader
    rcases hcases he with ⟨rfl, rfl⟩ | ⟨rfl, rfl⟩ | ⟨heu, -, he⟩
    · obtain rfl := Option.some.inj hl
      rw [hlook, if_neg (Ne.symm hud), if_pos rfl]
      exact ⟨_, rfl, hxt, List.mem_append_right _ (List.mem_singleton_self _)⟩
    · -- a registered definition is no reader
      exact absurd (h.reader (y := x) hd hl) (by simp [h.tracked hd hxt])
    · obtain ⟨w, hw, hwt, hmem⟩ := h.link he hl
      have hdu : d' ≠ u := fun h' => by
        subst h'
        obtain rfl := Option.some.inj (hu.symm.trans hw)
        simp [h.tracked hu hwt] at hyd
      rw [hlook, if_neg hdu]
      by_cases hdd : d' = d
      · subst hdd
        obtain rfl := Option.some.inj (hd.symm.trans hw)
        exact ⟨_, if_pos rfl, hwt, List.mem_append_left _ hmem⟩
      · exact ⟨w, by rw [if_neg hdd, hw], hwt, hmem⟩
  · rcases hcases he with ⟨rfl, rfl⟩ | ⟨rfl, rfl⟩ | ⟨-, -, he⟩
    · exact hyd
    · exact h.reader (y := x) hd hl
    · exact h.reader he hl

/-! ### Deleting one node -/

/-- After deleting the node `n`, the definition `n` read no longer records it as a reader, and
    if `n` was a definition position its readers lose their link. -/
theorem expr?_dropExpr {n : ExprId} {x : ExprNode} (hn : p.expr? n = some x) (m : ExprId) :
    (p.dropExpr n).expr? m =
      if m = n then none
      else (p.expr? m).map fun z =>
        { z with
          uses := if some m = x.defLink then z.uses.filter (· != n) else z.uses
          defLink := if x.isDef = true ∧ m ∈ x.uses then none else z.defLink } := by
  unfold dropExpr
  rw [hn]
  dsimp only
  cases hl : x.defLink <;> cases hd : x.isDef <;>
    simp only [if_true, if_false, Bool.false_eq_true, false_and, true_and, expr?_foldl_unlink,
      expr?_modifyExpr, expr?_clear, Option.some.injEq, reduceCtorEq] <;>
    by_cases hmn : m = n <;> simp only [hmn, if_true, if_false, Option.map_none]
  all_goals
    clear hn
    cases p.expr? m <;> by_cases hu : m ∈ x.uses <;> simp [hu] <;> split <;> simp_all

theorem stmt?_dropExpr (n : ExprId) (s : StmtId) : (p.dropExpr n).stmt? s = p.stmt? s := by
  unfold dropExpr
  split
  · rfl
  · dsimp only
    split <;> split <;> simp only [stmt?, stmts_foldl_modifyExpr] <;> rfl

theorem size_dropExpr (n : ExprId) : (p.dropExpr n).exprs.size = p.exprs.size := by
  unfold dropExpr
  split
  · rfl
  · dsimp only
    split <;> split <;> (try simp only [size_foldl_modifyExpr]) <;> simp [modifyExpr]

/-- A node of `p` that is still there after deleting `n`, with the link and readers
    `expr?_dropExpr` gives it. -/
theorem expr?_dropExpr_eq_some {n : ExprId} {x : ExprNode} (hn : p.expr? n = some x)
    {m : ExprId} {z' : ExprNode} (hm : (p.dropExpr n).expr? m = some z') :
    m ≠ n ∧ ∃ z, p.expr? m = some z ∧ z'.kind = z.kind ∧ z'.operands = z.operands ∧
      z'.parent = z.parent ∧ z'.isDef = z.isDef ∧ z'.tracked = z.tracked ∧
      z'.uses = (if some m = x.defLink then z.uses.filter (· != n) else z.uses) ∧
      z'.defLink = (if x.isDef = true ∧ m ∈ x.uses then none else z.defLink) := by
  rw [expr?_dropExpr hn] at hm
  split at hm
  · simp at hm
  · obtain ⟨z, hz, rfl⟩ := Option.map_eq_some_iff.1 hm
    exact ⟨‹_›, z, hz, rfl, rfl, rfl, rfl, rfl, rfl, rfl⟩

/-- Deleting a node keeps the placement. -/
theorem DefsPlaced.drop (h : p.DefsPlaced l) (n : ExprId) : (p.dropExpr n).DefsPlaced l := by
  cases hn : p.expr? n with
  | none => simpa [dropExpr, hn] using h
  | some x =>
    refine h.of_shape (Nat.le_of_eq (size_dropExpr n).symm) (fun {d x'} hd => ?_)
      (fun {s st'} hs => ⟨st', by rwa [stmt?_dropExpr] at hs, rfl⟩) (fun {d x'} hd hdef hl => ?_)
    · obtain ⟨-, z, hz, hk, ho, -, hdz, -⟩ := expr?_dropExpr_eq_some hn hd
      exact ⟨z, hz, hk.symm, ho.symm, hdz.symm⟩
    · obtain ⟨-, z, hz, -, -, hp, hdz, -⟩ := expr?_dropExpr_eq_some hn hd
      rw [hp]
      exact h.attached hz (hdz ▸ hdef) hl

/-- Deleting a node keeps the chains: the definition it read forgets it, and the readers of
    a definition position deleted lose their link to it. -/
theorem ChainsExact.drop (h : p.ChainsExact) (n : ExprId) : (p.dropExpr n).ChainsExact := by
  cases hn : p.expr? n with
  | none => simpa [dropExpr, hn] using h
  | some x =>
    have hlook := expr?_dropExpr hn
    -- a node other than `n` is still there
    have hlive : ∀ {m z}, p.expr? m = some z → m ≠ n →
        (p.dropExpr n).expr? m = some
          { z with
            uses := if some m = x.defLink then z.uses.filter (· != n) else z.uses
            defLink := if x.isDef = true ∧ m ∈ x.uses then none else z.defLink } :=
      fun hm hmn => by rw [hlook, if_neg hmn, hm]; rfl
    refine ⟨fun {m z'} hm ht => ?_, fun {m z'} hm w hw => ?_, fun {e z' d'} he hl => ?_,
      fun {e z' d'} he hl => ?_⟩
    · obtain ⟨-, z, hz, -, -, -, hdz, htz, -⟩ := expr?_dropExpr_eq_some hn hm
      rw [hdz]
      exact h.tracked hz (htz ▸ ht)
    · obtain ⟨hmn, z, hz, -, -, -, -, -, huz, -⟩ := expr?_dropExpr_eq_some hn hm
      rw [huz] at hw
      have hw' : w ∈ z.uses := by
        split at hw
        · exact (List.mem_filter.1 hw).1
        · exact hw
      obtain ⟨v, hv, hvl⟩ := h.uses hz w hw'
      -- the reader is not `n`: `n` read `m`, so it was filtered out
      have hwn : w ≠ n := by
        rintro rfl
        obtain rfl := Option.some.inj (hn.symm.trans hv)
        rw [if_pos hvl.symm] at hw
        simp at hw
      -- nor a reader of `n`, which links to `n` and not to `m`
      have hwx : ¬(x.isDef = true ∧ w ∈ x.uses) := fun ⟨_, hwx⟩ => by
        obtain ⟨v', hv', hvl'⟩ := h.uses hn w hwx
        obtain rfl := Option.some.inj (hv.symm.trans hv')
        exact hmn (Option.some.inj (hvl.symm.trans hvl'))
      exact ⟨_, hlive hv hwn, by simp [hwx, hvl]⟩
    · obtain ⟨hen, z, hz, -, -, -, -, -, -, hlz⟩ := expr?_dropExpr_eq_some hn he
      have hex : ¬(x.isDef = true ∧ e ∈ x.uses) := fun hex => by simp [hex] at hlz; simp_all
      rw [if_neg hex] at hlz
      obtain ⟨w, hw, hwt, hmem⟩ := h.link hz (hlz ▸ hl)
      -- the definition read is not `n`, or its readers would have lost their link
      have hdn : d' ≠ n := by
        rintro rfl
        obtain rfl := Option.some.inj (hn.symm.trans hw)
        exact hex ⟨h.tracked hn hwt, hmem⟩
      refine ⟨_, hlive hw hdn, hwt, ?_⟩
      dsimp only
      split
      · exact List.mem_filter.2 ⟨hmem, by simpa using hen⟩
      · exact hmem
    · obtain ⟨-, z, hz, -, -, -, hdz, -, -, hlz⟩ := expr?_dropExpr_eq_some hn he
      have hl' : z.defLink = some d' := by
        rw [hlz] at hl
        split at hl
        · simp at hl
        · exact hl
      rw [hdz]
      exact h.reader hz hl'

end Procedure

end Decompilation
