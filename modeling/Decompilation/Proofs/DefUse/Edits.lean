import Decompilation.Proofs.Runs
import Decompilation.Proofs.DefUse.Primitives

/-!
# Edits of expressions keep the chains

The edits of expressions are made of the primitive changes of `Primitives`. Each lemma here
follows one edit through its `do` block and says how its run ends: with the chains consistent
in both outcomes, and, when it succeeds, in a state that comes *later* than the one it started
from.

A later state (`Procedure.Later`) only adds slots, keeps the definition mark and the
registration of every node still there, and adds no definition position. What a statement may
list stays listable in every later state, and that is what an edit made of several others
needs of the nodes it handles at its start.

* `allocExpr_runs`: a new node that lists its operands as the others do;
* `pluckExpr_runs`, `replaceExpr_runs`: moving expressions that are no definition positions;
* `discardExpr_runs`: deleting any subtree;
* `cloneExpr_runs`: a copy, which is no definition position unless the walk ran out.
-/

namespace Decompilation

/-- A node not yet in the chains: no definition position, not registered, with no link and
    no readers. -/
structure ExprNode.Plain (n : ExprNode) : Prop where
  isDef : n.isDef = false
  tracked : n.tracked = false
  defLink : n.defLink = none
  uses : n.uses = []

namespace Procedure

variable {p p' p'' : Procedure} {l : Option ExprId}

/-! ### Later states -/

/-- `p'` is later than `p`: slots are only added, a node of `p` still there keeps its
    definition mark and registration, and a node added is no definition position. -/
structure Later (p p' : Procedure) : Prop where
  size_le : p.exprs.size ≤ p'.exprs.size
  old : ∀ {e x'}, p'.expr? e = some x' → e.index < p.exprs.size →
    ∃ x, p.expr? e = some x ∧ x'.isDef = x.isDef ∧ x'.tracked = x.tracked
  new : ∀ {e x'}, p'.expr? e = some x' → p.exprs.size ≤ e.index → x'.isDef = false

namespace Later

theorem refl (p : Procedure) : p.Later p where
  size_le := Nat.le_refl _
  old {_ x'} he _ := ⟨x', he, rfl, rfl⟩
  new {_ _} he hge := absurd (p.index_lt_of_expr? he) (Nat.not_lt.2 hge)

theorem trans (h₁ : p.Later p') (h₂ : p'.Later p'') : p.Later p'' where
  size_le := Nat.le_trans h₁.size_le h₂.size_le
  old {e x''} he hlt := by
    obtain ⟨x', hx', hd', ht'⟩ := h₂.old he (Nat.lt_of_lt_of_le hlt h₁.size_le)
    obtain ⟨x, hx, hd, ht⟩ := h₁.old hx' hlt
    exact ⟨x, hx, hd'.trans hd, ht'.trans ht⟩
  new {e x''} he hge := by
    rcases Nat.lt_or_ge e.index p'.exprs.size with hlt | hge'
    · -- a node added before `p'` and kept since
      obtain ⟨x', hx', hd', -⟩ := h₂.old he hlt
      exact hd'.trans (h₁.new hx' hge)
    · exact h₂.new he hge'

/-- What is no definition position stays none. -/
theorem notDef (h : p.Later p') {e : ExprId} (he : p.NotDef e) : p'.NotDef e := by
  intro x' hx'
  rcases Nat.lt_or_ge e.index p.exprs.size with hlt | hge
  · obtain ⟨x, hx, hd, -⟩ := h.old hx' hlt
    exact hd.trans (he x hx)
  · exact h.new hx' hge

/-- What a statement may list stays listable. -/
theorem listable (h : p.Later p') {e : ExprId} (he : p.Listable e) : p'.Listable e :=
  ⟨Nat.lt_of_lt_of_le he.1 h.size_le, h.notDef he.2⟩

/-- A node fits in every later state. -/
theorem fits (h : p.Later p') {n : ExprNode} (hn : p.Fits n) : p'.Fits n where
  lt o ho := Nat.lt_of_lt_of_le (hn.lt o ho) h.size_le
  def_head {d x'} hd hdef hdn := by
    obtain ⟨x, hx, hxd, -⟩ := h.old hd (hn.lt d hdn)
    exact hn.def_head hx (hxd ▸ hdef) hdn

/-- A node live in both states has the same registration. -/
theorem tracked_eq (h : p.Later p') {d : ExprId} {x x' : ExprNode} (hx : p.expr? d = some x)
    (hx' : p'.expr? d = some x') : x'.tracked = x.tracked := by
  obtain ⟨x₀, hx₀, -, ht⟩ := h.old hx' (p.index_lt_of_expr? hx)
  rw [hx₀] at hx
  rw [ht, Option.some.inj hx]

end Later

/-- A change of one node that keeps its definition mark and registration. -/
theorem later_modifyExpr (e : ExprId) (f : ExprNode → ExprNode)
    (hf : ∀ x, (f x).isDef = x.isDef ∧ (f x).tracked = x.tracked) :
    p.Later (p.modifyExpr e f) where
  size_le := by simp [modifyExpr]
  old {d x'} hd _ := by
    obtain ⟨x, hx, hv⟩ := expr?_modifyExpr_view p (fun x => (x.isDef, x.tracked)) hd
      fun x => by simp [hf x]
    simp only [Prod.mk.injEq] at hv
    exact ⟨x, hx, hv.1, hv.2⟩
  new {d x'} hd hge := by
    obtain ⟨x, hx, -⟩ := (expr?_modifyExpr_eq_some p).1 hd
    exact absurd (p.index_lt_of_expr? hx) (Nat.not_lt.2 hge)

/-- A new node that is no definition position. -/
theorem later_push {n : ExprNode} (hn : n.isDef = false) :
    p.Later { p with exprs := p.exprs.push (some n) } where
  size_le := by simp
  old {d x'} hd hlt := by
    rw [expr?_push, if_neg (Nat.ne_of_lt hlt)] at hd
    exact ⟨x', hd, rfl, rfl⟩
  new {d x'} hd hge := by
    rw [expr?_push] at hd
    split at hd
    · rw [← Option.some.inj hd, hn]
    · exact absurd (p.index_lt_of_expr? hd) (Nat.not_lt.2 hge)

/-- A change that leaves the expression slots alone. -/
theorem later_of_exprs (hx : p'.exprs = p.exprs) : p.Later p' where
  size_le := Nat.le_of_eq (congrArg Array.size hx).symm
  old {d x'} hd _ := ⟨x', by simpa [expr?, hx] using hd, rfl, rfl⟩
  new {d x'} hd hge := by
    have : p.expr? d = some x' := by simpa [expr?, hx] using hd
    exact absurd (p.index_lt_of_expr? this) (Nat.not_lt.2 hge)

/-- Deleting a node. -/
theorem later_dropExpr (n : ExprId) : p.Later (p.dropExpr n) := by
  cases hn : p.expr? n with
  | none => simpa [dropExpr, hn] using Later.refl p
  | some x =>
    refine ⟨Nat.le_of_eq (size_dropExpr n).symm, fun {d x'} hd _ => ?_, fun {d x'} hd hge => ?_⟩
    · obtain ⟨-, z, hz, -, -, -, hdz, htz, -⟩ := expr?_dropExpr_eq_some hn hd
      exact ⟨z, hz, hdz, htz⟩
    · obtain ⟨-, z, hz, -⟩ := expr?_dropExpr_eq_some hn hd
      exact absurd (p.index_lt_of_expr? hz) (Nat.not_lt.2 hge)

/-! ### Deleting nodes -/

theorem expr?_dropExpr_self (n : ExprId) : (p.dropExpr n).expr? n = none := by
  cases hn : p.expr? n with
  | none => simp [dropExpr, hn]
  | some x => rw [expr?_dropExpr hn, if_pos rfl]

theorem expr?_dropExpr_of_none (n : ExprId) {m : ExprId} (hm : p.expr? m = none) :
    (p.dropExpr n).expr? m = none := by
  cases hn : p.expr? n with
  | none => simpa [dropExpr, hn] using hm
  | some x =>
    rw [expr?_dropExpr hn, hm]
    split <;> rfl

/-- Deleting the nodes of a list keeps the invariant, whichever node is loose; the state is
    later, and the nodes of the list are gone. -/
theorem drops_keep (hd : p.DefsPlaced l) (hc : p.ChainsExact) (ns : List ExprId) :
    (ns.foldl dropExpr p).DefsPlaced l ∧ (ns.foldl dropExpr p).ChainsExact ∧
    p.Later (ns.foldl dropExpr p) ∧ ∀ e, e ∈ ns ∨ p.expr? e = none →
      (ns.foldl dropExpr p).expr? e = none := by
  induction ns generalizing p with
  | nil => exact ⟨hd, hc, .refl p, fun e he => he.resolve_left List.not_mem_nil⟩
  | cons n ns ih =>
    obtain ⟨hd', hc', hl', hgone⟩ := ih (hd.drop n) (hc.drop n)
    refine ⟨hd', hc', (later_dropExpr n).trans hl', fun e he => hgone e ?_⟩
    rcases he with he | he
    · rcases List.mem_cons.1 he with rfl | he
      · exact .inr (expr?_dropExpr_self e)
      · exact .inl he
    · exact .inr (expr?_dropExpr_of_none n he)

/-- A walk of a subtree puts it in front of what follows. -/
theorem postOrder_go_append (p : Procedure) : ∀ (n : Nat) (c : ExprId) (acc : List ExprId),
    postOrder.go p n c acc = postOrder.go p n c [] ++ acc
  | 0, _, _ => rfl
  | n + 1, c, acc => by
    rw [postOrder.go, postOrder.go]
    -- the walks of the operands go in front of the walks of those after them
    have hfold : ∀ (l x : List ExprId), l.foldr (postOrder.go p n) (x ++ acc) =
        l.foldr (postOrder.go p n) x ++ acc := by
      intro l x
      induction l with
      | nil => rfl
      | cons o l ih =>
        rw [List.foldr_cons, List.foldr_cons, ih, postOrder_go_append p n o,
          postOrder_go_append p n o (List.foldr _ x l), List.append_assoc]
    exact hfold _ [c]

/-- A walk of a subtree lists the walks of the operands, then the root. -/
theorem postOrder_go_succ (p : Procedure) (n : Nat) (c : ExprId) :
    postOrder.go p (n + 1) c [] =
      (p.node c).operands.flatMap (fun o => postOrder.go p n o []) ++ [c] := by
  rw [postOrder.go]
  induction (p.node c).operands with
  | nil => rfl
  | cons o l ih => rw [List.foldr_cons, ih, postOrder_go_append, List.flatMap_cons,
      List.append_assoc]

/-- A subtree holds its root. -/
theorem mem_postOrder_self (p : Procedure) (e : ExprId) : e ∈ p.postOrder e := by
  simp [postOrder, depthBound, postOrder_go_succ]

/-! ### Parents -/

/-- Giving several expressions the same parent keeps the invariant; the state is later. -/
theorem attach_keeps (hd : p.DefsPlaced l) (hc : p.ChainsExact) (os : List ExprId)
    (par : ExprParent) :
    (os.foldl (fun p o => p.modifyExpr o fun x => { x with parent := some par }) p).DefsPlaced l ∧
    (os.foldl (fun p o => p.modifyExpr o fun x => { x with parent := some par }) p).ChainsExact ∧
    p.Later (os.foldl (fun p o => p.modifyExpr o fun x => { x with parent := some par }) p) := by
  induction os generalizing p with
  | nil => exact ⟨hd, hc, .refl p⟩
  | cons o os ih =>
    obtain ⟨hd', hc', hl'⟩ := ih (hd.setParent o (some par) (.inl rfl))
      (hc.modifyShape o _ fun _ => ⟨rfl, rfl, rfl, rfl⟩)
    exact ⟨hd', hc', (later_modifyExpr o (fun x => { x with parent := some par })
      fun _ => ⟨rfl, rfl⟩).trans hl'⟩

/-- Leaving an expression with no parent keeps the invariant when it is no definition
    position, or the loose node. -/
theorem detach_keeps (hd : p.DefsPlaced l) (hc : p.ChainsExact) {e : ExprId}
    (he : p.NotDef e ∨ l = some e) :
    (p.modifyExpr e fun x => { x with parent := none }).DefsPlaced l ∧
    (p.modifyExpr e fun x => { x with parent := none }).ChainsExact ∧
    p.Later (p.modifyExpr e fun x => { x with parent := none }) :=
  ⟨hd.setParent e none (.inr he), hc.modifyShape e _ fun _ => ⟨rfl, rfl, rfl, rfl⟩,
    later_modifyExpr e (fun x => { x with parent := none }) fun _ => ⟨rfl, rfl⟩⟩

/-- The slot an expression's parent lists it in. -/
theorem getElem?_slotOf_expr {e q : ExprId} {slot : Nat}
    (hpar : (p.node e).parent = some (.expr q)) (hs : p.slotOf e = some slot) :
    (p.node q).operands[slot]? = some e := by
  rw [slotOf, hpar] at hs
  obtain ⟨hlt, heq, -⟩ := List.idxOf?_eq_some_iff.1 hs
  rw [List.getElem?_eq_getElem hlt, heq]

/-! ### Adding and moving expressions -/

/-- A new node that lists its operands as the live nodes do keeps the chains, and the
    placement whichever node is loose; it takes the first free number. -/
theorem allocExpr_runs_loose {E : Procedure → Prop} (hd : p.DefsPlaced l) (hc : p.ChainsExact)
    {n : ExprNode} (hn : n.Plain) (hfit : p.Fits n) :
    Runs (allocExpr n) p (fun r p' => p'.DefsPlaced l ∧ p'.ChainsExact ∧ p.Later p' ∧
      r.index = p.exprs.size ∧ p'.expr? r = some n) E := by
  obtain ⟨hd', hc', hl⟩ := attach_keeps hd hc n.operands (.expr ⟨p.exprs.size⟩)
  refine runs_modifyGet ⟨hd'.push hn.isDef (hl.fits hfit), hc'.push hn.tracked hn.defLink hn.uses,
    hl.trans (later_push hn.isDef), rfl, (expr?_push _ n _).trans (if_pos ?_)⟩
  simp

/-- A new node that lists its operands as the live nodes do keeps the chains consistent. -/
theorem allocExpr_runs {E : Procedure → Prop} (h : p.Consistent) {n : ExprNode} (hn : n.Plain)
    (hfit : p.Fits n) :
    Runs (allocExpr n) p (fun r p' => p'.Consistent ∧ p.Later p' ∧ r.index = p.exprs.size ∧
      p'.expr? r = some n) E :=
  runs_mono (allocExpr_runs_loose h.placed h.chains hn hfit)
    (fun _ _ ⟨hd, hc, hr⟩ => ⟨⟨hd, hc⟩, hr⟩) fun _ h => h

theorem pluckExpr_runs (hd : p.DefsPlaced l) (hc : p.ChainsExact) {e : ExprId}
    (he : p.NotDef e ∨ l = some e) :
    Runs (pluckExpr e) p (fun r p' => p'.DefsPlaced l ∧ p'.ChainsExact ∧ p.Later p' ∧ r = e)
      (fun p' => p'.DefsPlaced l ∧ p'.ChainsExact ∧ p.Later p') := by
  unfold pluckExpr
  refine runs_get_bind ?_
  split
  · next par slot hpar hslot =>
    refine runs_set_bind (runs_pure _ ?_)
    cases par with
    | expr q =>
      -- the operand list that held `e` loses it, then `e` loses its parent
      have hl₁ := later_modifyExpr (p := p) q
        (fun x => { x with operands := x.operands.eraseIdx slot }) fun _ => ⟨rfl, rfl⟩
      obtain ⟨hd₂, hc₂, hl₂⟩ := detach_keeps (hd.eraseOperand q slot)
        (hc.modifyShape q _ fun _ => ⟨rfl, rfl, rfl, rfl⟩) (he.imp_left hl₁.notDef)
      exact ⟨hd₂, hc₂, hl₁.trans hl₂, rfl⟩
    | stmt s =>
      have hl₁ : p.Later (p.modifyStmt s fun x => { x with exprs := x.exprs.eraseIdx slot }) :=
        later_of_exprs rfl
      obtain ⟨hd₂, hc₂, hl₂⟩ := detach_keeps (hd.eraseStmtExpr s slot) (hc.of_exprs rfl)
        (he.imp_left hl₁.notDef)
      exact ⟨hd₂, hc₂, hl₁.trans hl₂, rfl⟩
  · exact runs_throw _ ⟨hd, hc, .refl p⟩

/-- The expression put in a slot takes the parent of the one it replaces, which loses it. -/
theorem reparent_keeps (hd : p.DefsPlaced none) (hc : p.ChainsExact) {old new : ExprId}
    (hold : p.NotDef old) (par : ExprParent) :
    ((p.modifyExpr new fun x => { x with parent := some par }).modifyExpr old
      fun x => { x with parent := none }).Consistent ∧
    p.Later ((p.modifyExpr new fun x => { x with parent := some par }).modifyExpr old
      fun x => { x with parent := none }) := by
  obtain ⟨hd₁, hc₁, hl₁⟩ := attach_keeps hd hc [new] par
  obtain ⟨hd₂, hc₂, hl₂⟩ := detach_keeps hd₁ hc₁ (.inl (hl₁.notDef hold))
  exact ⟨⟨hd₂, hc₂⟩, hl₁.trans hl₂⟩

/-- Deleting a subtree keeps the chains consistent. The root, taken out first, may be a
    definition position: it stays loose until its slot is emptied, last. -/
theorem discardExpr_runs (h : p.Consistent) (e : ExprId) :
    Runs (discardExpr e) p (fun _ p' => p'.Consistent ∧ p.Later p') (fun p' => p'.Consistent) := by
  have hdrop : ∀ q : Procedure, q.DefsPlaced (some e) → q.ChainsExact → p.Later q →
      Runs (get >>= fun q => modify fun p => (q.postOrder e).foldl dropExpr p) q
        (fun _ p' => p'.Consistent ∧ p.Later p') (fun p' => p'.Consistent) := by
    intro q hd hc hl
    refine runs_get_bind (runs_modify ?_)
    obtain ⟨hd', hc', hl', hgone⟩ := drops_keep hd hc (q.postOrder e)
    exact ⟨⟨hd'.tighten (hgone e (.inl (mem_postOrder_self q e))), hc'⟩, hl.trans hl'⟩
  unfold discardExpr
  refine runs_get_bind ?_
  split
  · exact runs_pure _ ⟨h, .refl p⟩
  · dsimp only
    split
    · refine runs_bind (runs_tryCatch
        (Q := fun _ q => q.DefsPlaced (some e) ∧ q.ChainsExact ∧ p.Later q)
        (runs_bind (pluckExpr_runs (h.placed.loosen _) h.chains (.inr rfl))
          fun _ q hq => runs_pure _ ⟨hq.1, hq.2.1, hq.2.2.1⟩)
        fun _ q hq => runs_pure _ hq) fun _ q hq => hdrop q hq.1 hq.2.1 hq.2.2
    · exact hdrop p (h.placed.loosen _) h.chains (.refl p)

theorem replaceExpr_runs (h : p.Consistent) {old new : ExprId} (hold : p.NotDef old)
    (hnew : p.Listable new) :
    Runs (replaceExpr old new) p (fun _ p' => p'.Consistent ∧ p.Later p')
      (fun p' => p'.Consistent) := by
  unfold replaceExpr
  refine runs_get_bind ?_
  dsimp only
  split
  · exact runs_bind (runs_throw (Q := fun _ _ => False) _ h) fun _ _ hf => hf.elim
  · split
    · next par slot hpar hslot =>
      refine runs_set ?_
      cases par with
      | expr q =>
        -- the operand slot of `q` that held `old` takes `new`
        have hl₁ : p.Later (p.modifyExpr q fun x => { x with operands := x.operands.set slot new }) :=
          later_modifyExpr q _ fun _ => ⟨rfl, rfl⟩
        exact (reparent_keeps (h.placed.setOperand (getElem?_slotOf_expr hpar hslot) hold hnew)
          (h.chains.modifyShape q _ fun _ => ⟨rfl, rfl, rfl, rfl⟩) (hl₁.notDef hold) _).imp_right
          hl₁.trans
      | stmt s =>
        have hl₁ : p.Later (p.modifyStmt s fun x => { x with exprs := x.exprs.set slot new }) :=
          later_of_exprs rfl
        exact (reparent_keeps (h.placed.setStmtExpr s slot hnew) (h.chains.of_exprs rfl)
          (hl₁.notDef hold) _).imp_right hl₁.trans
    · exact runs_throw _ h

/-! ### Links -/

/-- Recording a reader changes links and readers only. -/
theorem later_linkUse (u d : ExprId) : p.Later (p.linkUse u d) :=
  (later_modifyExpr u (fun x => { x with defLink := some d }) fun _ => ⟨rfl, rfl⟩).trans
    (later_modifyExpr d (fun x => { x with uses := x.uses ++ [u] }) fun _ => ⟨rfl, rfl⟩)

theorem DefsPlaced.linkUse (h : p.DefsPlaced l) (u d : ExprId) : (p.linkUse u d).DefsPlaced l :=
  (h.modifyLinks u (fun x => { x with defLink := some d }) fun _ => ⟨rfl, rfl, rfl, rfl⟩).modifyLinks
    d (fun x => { x with uses := x.uses ++ [u] }) fun _ => ⟨rfl, rfl, rfl, rfl⟩

/-! ### Copies -/

/-- An operand of the node at `c` has a slot; a node that is not live has none. -/
theorem DefsPlaced.operand_lt_node (h : p.DefsPlaced l) {c o : ExprId}
    (ho : o ∈ (p.node c).operands) : o.index < p.exprs.size := by
  cases hc : p.expr? c with
  | none => simp [node_of_expr?_eq_none p hc] at ho
  | some x => exact h.operand_lt hc o (node_of_expr? p hc ▸ ho)

/-- A copy `r` of the subtree at `c`: it has a slot, and it is `c` itself (when the walk ran
    out) or no definition position. -/
def CopyOf (p : Procedure) (c r : ExprId) : Prop := r.index < p.exprs.size ∧ (r = c ∨ p.NotDef r)

theorem CopyOf.later {c r : ExprId} (h : p.CopyOf c r) (hl : p.Later p') : p'.CopyOf c r :=
  ⟨Nat.lt_of_lt_of_le h.1 hl.size_le, h.2.imp_right hl.notDef⟩

private theorem exists_of_forall₂ {α β : Type} {R : α → β → Prop} {l₁ : List α} {l₂ : List β}
    (h : List.Forall₂ R l₁ l₂) {b : β} (hb : b ∈ l₂) : ∃ a ∈ l₁, R a b := by
  induction h with
  | nil => simp at hb
  | cons hab _ ih =>
    rcases List.mem_cons.1 hb with rfl | hb
    · exact ⟨_, List.mem_cons_self, hab⟩
    · obtain ⟨a, ha, hr⟩ := ih hb
      exact ⟨a, List.mem_cons_of_mem _ ha, hr⟩

/-- A node over copies of the operands of the node at `c` lists them as that node listed its
    operands: a definition position among the copies is an operand left uncopied, so it heads
    the operands of an assignment, once. -/
theorem fits_copies (h : p.DefsPlaced l) (hl : p.Later p') (c : ExprId) {rs : List ExprId}
    (hrs : List.Forall₂ (fun o r => p'.CopyOf o r) (p.node c).operands rs) (n : ExprNode)
    (hk : n.kind = (p.node c).kind) (hops : n.operands = rs) : p'.Fits n where
  lt r hr := by
    obtain ⟨o, -, hcopy⟩ := exists_of_forall₂ hrs (hops ▸ hr)
    exact hcopy.1
  def_head {d x'} hd hdef hdn := by
    have hnd : ¬p'.NotDef d := fun hnd => by simp [hnd x' hd] at hdef
    -- the definition position is an operand of the node at `c`, which is live
    obtain ⟨o, ho, -, hdo⟩ := exists_of_forall₂ hrs (hops ▸ hdn)
    obtain rfl := hdo.resolve_right hnd
    cases hc : p.expr? c with
    | none => simp [node_of_expr?_eq_none p hc] at ho
    | some x =>
      rw [node_of_expr? p hc] at ho hk hrs
      obtain ⟨xd, hxd, hdd, -⟩ := hl.old hd (h.operand_lt hc _ ho)
      obtain ⟨hkind, rest, hops', hrest⟩ := h.operand hxd (hdd ▸ hdef) hc ho
      rw [hops'] at hrs
      obtain ⟨r₀, rs', hr₀, hrs', rfl⟩ := List.forall₂_cons_left_iff.1 hrs
      -- no copy of a later operand is the definition position
      have hnot : d ∉ rs' := fun hmem => by
        obtain ⟨o', ho', -, hr'⟩ := exists_of_forall₂ hrs' hmem
        rcases hr' with rfl | hr'
        · exact hrest ho'
        · exact hnd hr'
      have hhead : d = r₀ := by
        rw [hops] at hdn
        exact (List.mem_cons.1 hdn).resolve_right hnot
      exact ⟨hk.trans hkind, rs', hhead ▸ hops, hnot⟩

/-- The operands of the node at `c` copied one after another, when each copy keeps the chains
    consistent: every copy is a copy of its operand in the final state. -/
theorem mapM_copies_runs {copy : ExprId → Edit ExprId}
    (hcopy : ∀ (o : ExprId) {q : Procedure}, q.Consistent → o.index < q.exprs.size →
      Runs (copy o) q (fun r q' => q'.Consistent ∧ q.Later q' ∧ q'.CopyOf o r)
        (fun q' => q'.Consistent))
    (h : p.Consistent) (c : ExprId) :
    Runs ((p.node c).operands.mapM copy) p (fun rs q => q.Consistent ∧ p.Later q ∧
      List.Forall₂ (fun o r => q.CopyOf o r) (p.node c).operands rs) (fun q => q.Consistent) :=
  runs_mono (runs_mapM (fun q => q.Consistent ∧ p.Later q) Later Later.refl Later.trans
      (fun o r q => q.CopyOf o r) (fun hr hl => hr.later hl)
      (fun o ho _ hq => runs_mono (hcopy o hq.1
          (Nat.lt_of_lt_of_le (h.placed.operand_lt_node ho) hq.2.size_le))
        (fun _ _ hr => ⟨⟨hr.1, hq.2.trans hr.2.1⟩, hr.2.1, hr.2.2⟩) (fun _ h => h))
      ⟨h, .refl p⟩) (fun _ _ ⟨⟨hq, hpq⟩, _, hrs⟩ => ⟨hq, hpq, hrs⟩) fun _ h => h

/-- The copy of a subtree, with a fuel. Each node is copied over the copies of its operands;
    asked for, a copy of a reader reads the same live definition. -/
theorem cloneExpr_go_runs (tags : CloneTags) :
    ∀ (n : Nat) (c : ExprId) {p : Procedure}, p.Consistent → c.index < p.exprs.size →
      Runs (cloneExpr.go tags n c) p (fun r p' => p'.Consistent ∧ p.Later p' ∧ p'.CopyOf c r)
        (fun p' => p'.Consistent)
  | 0, c, p, h, hc => by
    rw [cloneExpr.go]
    exact runs_pure _ ⟨h, .refl p, hc, .inl rfl⟩
  | n + 1, c, p, h, hc => by
    rw [cloneExpr.go]
    refine runs_get_bind ?_
    dsimp only
    -- the operands are copied first, each into a later state
    refine runs_bind (mapM_copies_runs (fun o _ hq ho => cloneExpr_go_runs tags n o hq ho) h c)
      fun rs q ⟨hq, hpq, hrs⟩ => ?_
    -- then the node over the copies, which is new and no definition position
    refine runs_bind (allocExpr_runs hq ⟨rfl, rfl, rfl, rfl⟩
      (fits_copies h.placed hpq c hrs _ rfl rfl)) fun new q' ⟨hq', hl', _, hnew⟩ => ?_
    have hcopy : q'.CopyOf c new :=
      ⟨index_lt_of_expr? q' hnew, .inr fun x hx => by rw [hnew] at hx; cases hx; rfl⟩
    split
    · split
      · next d hsrc =>
        refine runs_get_bind ?_
        split
        · next hlive =>
          -- the node copied read `d`, so `d` was registered, and still is
          obtain ⟨x, hx, hxl⟩ : ∃ x, p.expr? c = some x ∧ x.defLink = some d := by
            cases hc' : p.expr? c with
            | none => simp [node_of_expr?_eq_none p hc'] at hsrc
            | some x => exact ⟨x, rfl, by rwa [node_of_expr? p hc'] at hsrc⟩
          obtain ⟨xd, hxd, hxdt, -⟩ := h.chains.link hx hxl
          obtain ⟨xd', hxd'⟩ := Option.isSome_iff_exists.1 hlive
          have ht : xd'.tracked = true := by
            rw [(hpq.trans hl').tracked_eq hxd hxd', hxdt]
          have hlink : q'.Later (q'.linkUse new d) := later_linkUse new d
          exact runs_modify_bind (runs_pure _ ⟨⟨hq'.placed.linkUse new d,
            hq'.chains.linkUse hnew rfl rfl hxd' ht⟩, hpq.trans (hl'.trans hlink), hcopy.later hlink⟩)
        · exact runs_pure _ ⟨hq', hpq.trans hl', hcopy⟩
      · exact runs_pure _ ⟨hq', hpq.trans hl', hcopy⟩
    · exact runs_pure _ ⟨hq', hpq.trans hl', hcopy⟩

/-- A copy of the subtree at a node with a slot keeps the chains consistent. -/
theorem cloneExpr_runs (h : p.Consistent) {e : ExprId} (he : e.index < p.exprs.size)
    (tags : CloneTags) :
    Runs (cloneExpr e tags) p (fun r p' => p'.Consistent ∧ p.Later p' ∧ p'.CopyOf e r)
      (fun p' => p'.Consistent) :=
  runs_get_bind (cloneExpr_go_runs tags _ e h he)

end Procedure

end Decompilation
