import Mathlib
import Decompilation.Proofs.Simplify.RuleForms
import Decompilation.Proofs.Simplify.Effects

/-!
# The simplifier settles

Every step of the simplifier lowers the rank of the tree it works on (`ExprShape.rank`, a
number computed from the tree's kinds): the rule that fires gives a replacement of a lowering
form (`firstReplacement_lowers`), the tree built for it weighs what that form says
(`Replacement.build_measured`), and putting it in the place of the replaced subtree lowers the
whole (`Ctx.rank_fill_lt`). So the steps stop after at most the tree's rank of them, on a tree no
rule fires on, and the cap of the simplifier is met only below that rank.

* `RunsE`: the outcome of a run with its error in sight;
* `Simplifier.Settled`: no rule fires at a node of the tree that is no definition position;
* `Simplifier.step_lowers`: a step either finds the tree settled or lowers its rank;
* `Simplifier.reduceCounted_settles`: a reduction ends on a settled tree after at most the
  tree's rank of replacements, and fails for its cap only when the cap is below that rank.
-/

namespace Decompilation

/-! ### Runs with their errors -/

section RunsWithErrors

variable {σ α β : Type}

/-- `m` run from `s` answers `a` in a state satisfying `Q a`, or fails with an error `e` in a
    state satisfying `F e`: `Runs` with the error in sight. -/
def RunsE (m : ExceptT Error (StateM σ) α) (s : σ) (Q : α → σ → Prop) (F : Error → σ → Prop) :
    Prop :=
  match m.run.run s with
  | (.ok a, s') => Q a s'
  | (.error e, s') => F e s'

variable {s : σ} {Q : α → σ → Prop} {F : Error → σ → Prop}

/-- A run that fails only in states satisfying `E` fails with errors satisfying `F` when every
    such state does. -/
theorem runsE_of_runs {m : ExceptT Error (StateM σ) α} {E : σ → Prop} (h : Runs m s Q E)
    (hE : ∀ e s', E s' → F e s') : RunsE m s Q F := by
  unfold Runs at h
  unfold RunsE
  revert h
  rcases m.run.run s with ⟨e | a, s'⟩
  · exact hE e s'
  · exact id

/-- What a run answers, from `Runs`, and how it fails, from `RunsE`. -/
theorem runsE_of_runs_of_runsE {m : ExceptT Error (StateM σ) α} {E : σ → Prop} {Q' : α → σ → Prop}
    (h : Runs m s Q E) (h' : RunsE m s Q' F) : RunsE m s (fun a s' => Q a s' ∧ Q' a s') F := by
  unfold Runs at h
  unfold RunsE at h' ⊢
  revert h h'
  rcases m.run.run s with ⟨e | a, s'⟩
  · exact fun _ h' => h'
  · exact fun h h' => ⟨h, h'⟩

theorem runsE_pure (a : α) (h : Q a s) : RunsE (pure a : ExceptT Error (StateM σ) α) s Q F := h

theorem runsE_throw (e : Error) (h : F e s) :
    RunsE (throw e : ExceptT Error (StateM σ) α) s Q F := h

theorem runsE_get_bind {f : σ → ExceptT Error (StateM σ) α} (h : RunsE (f s) s Q F) :
    RunsE (get >>= f) s Q F := h

theorem runsE_bind {x : ExceptT Error (StateM σ) α} {f : α → ExceptT Error (StateM σ) β}
    {R : β → σ → Prop} (hx : RunsE x s Q F) (hf : ∀ a s', Q a s' → RunsE (f a) s' R F) :
    RunsE (x >>= f) s R F := by
  unfold RunsE at hx ⊢
  simp only [ExceptT.run_bind, StateT.run_bind]
  revert hx
  rcases x.run.run s with ⟨e | a, s'⟩
  · exact id
  · exact hf a s'

theorem runsE_mono {m : ExceptT Error (StateM σ) α} {Q' : α → σ → Prop} {F' : Error → σ → Prop}
    (h : RunsE m s Q F) (hQ : ∀ a s', Q a s' → Q' a s') (hF : ∀ e s', F e s' → F' e s') :
    RunsE m s Q' F' := by
  unfold RunsE at h ⊢
  revert h
  rcases m.run.run s with ⟨e | a, s'⟩
  · exact hF e s'
  · exact hQ a s'

/-- A loop over a list whose rounds go on with an invariant `J` that follows the entries already
    done, or leave with `D`. -/
theorem runsE_forIn_done {l : List α} {b : β}
    {f : α → β → ExceptT Error (StateM σ) (ForInStep β)} (J : List α → β → σ → Prop)
    (D : β → σ → Prop) (h0 : J [] b s)
    (hf : ∀ l₁ a l₂, l = l₁ ++ a :: l₂ → ∀ b s, J l₁ b s →
      RunsE (f a b) s (RoundEnds (J (l₁ ++ [a])) D) F) :
    RunsE (forIn l b f) s (fun b s => J l b s ∨ D b s) F := by
  -- the entries done so far are `pre`, the rest `l`
  suffices h : ∀ pre : List α, ∀ (l : List α) (b : β) (s : σ),
      (∀ l₁ a l₂, pre ++ l = l₁ ++ a :: l₂ → ∀ b s, J l₁ b s →
        RunsE (f a b) s (RoundEnds (J (l₁ ++ [a])) D) F) →
      J pre b s → RunsE (forIn l b f) s (fun b s => J (pre ++ l) b s ∨ D b s) F from
    h [] l b s (by simpa using hf) h0
  intro pre l
  induction l generalizing pre with
  | nil => exact fun b s _ h => runsE_pure _ (.inl (by simpa using h))
  | cons a l ih =>
    intro b s hf h
    rw [List.forIn_cons]
    refine runsE_bind (hf pre a l rfl b s h) fun r s' hr => ?_
    cases r with
    | done b' => exact .inr hr
    | yield b' =>
      have hrest := ih (pre ++ [a]) b' s' (fun l₁ a' l₂ he => hf l₁ a' l₂ (by simpa using he)) hr
      simpa using hrest

end RunsWithErrors

/-! ### What a replacement builds weighs what it says -/

namespace Replacement

theorem weightWith_congr {f g : ExprId → Nat} :
    ∀ w : Replacement, (∀ k ∈ w.parts, f k = g k) → w.weightWith f = w.weightWith g
  | .keep k, h | .copy k, h => h k (by simp [parts])
  | .val _ _, _ => rfl
  | .unary op a, h => by
    simp only [weightWith]
    rw [weightWith_congr a fun k hk => h k hk]
  | .binary op l r, h => by
    simp only [weightWith]
    rw [weightWith_congr l fun k hk => h k (List.mem_append_left _ hk),
      weightWith_congr r fun k hk => h k (List.mem_append_right _ hk)]

theorem rootKind_congr {k k' : ExprId → ExprKind} :
    ∀ w : Replacement, (∀ x ∈ w.parts, k x = k' x) → w.rootKind k = w.rootKind k'
  | .keep x, h | .copy x, h => h x (by simp [parts])
  | .val _ _, _ | .unary _ _, _ | .binary _ _ _, _ => rfl

theorem negsWith_congr {f g : ExprId → Nat} {k k' : ExprId → ExprKind} :
    ∀ w : Replacement, (∀ x ∈ w.parts, f x = g x ∧ k x = k' x) →
      w.negsWith f k = w.negsWith g k'
  | .keep x, h | .copy x, h => (h x (by simp [parts])).1
  | .val _ _, _ => rfl
  | .unary op a, h => by
    simp only [negsWith]
    exact negsWith_congr a h
  | .binary op l r, h => by
    have hl : ∀ x ∈ l.parts, f x = g x ∧ k x = k' x := fun x hx => h x (List.mem_append_left _ hx)
    have hr : ∀ x ∈ r.parts, f x = g x ∧ k x = k' x := fun x hx => h x (List.mem_append_right _ hx)
    simp only [negsWith]
    rw [negsWith_congr l hl, negsWith_congr r hr, rootKind_congr r fun x hx => (hr x hx).2]

/-- The tree `W` built in `q'` for a replacement over the trees `sub` of its parts in `q` weighs
    what the replacement says, counts the additions of a negative literal it says, and has the
    root it says. -/
structure Weighs (w : Replacement) (q : Procedure) (sub : ExprId → ExprShape) (W : ExprShape)
    (q' : Procedure) : Prop where
  weight : W.weight q' = w.weightWith fun k => (sub k).weight q
  negs : W.negs q' = w.negsWith (fun k => (sub k).negs q) fun k => (q.node k).kind
  rootKind : (q'.node W.root).kind = w.rootKind fun k => (q.node k).kind

end Replacement

open Procedure ExprShape

/-- Building a replacement that copies nothing over parts ready to be moved gives a tree that
    weighs what the replacement says: a part keeps its tree and its kinds, and each new node is
    of the kind the replacement names. -/
theorem Replacement.build_measured : ∀ (w : Replacement) {q : Procedure}
    {sub : ExprId → ExprShape}, w.copies = false → (∀ k ∈ w.parts, q.Ready (sub k) k) →
    w.parts.Pairwise (fun a b => List.Disjoint (sub a).ids (sub b).ids) →
    Runs w.build q (fun r q' => ∀ W, W.root = r → q.Built sub w.parts W q' → w.Weighs q sub W q')
      (fun _ => False)
  | .keep k, q, sub, _, hr, _ => by
    have hk := hr k (by simp [Replacement.parts])
    obtain ⟨y, hpar, hky, hnd, -⟩ := hk.parent
    rw [Replacement.build]
    refine runs_get_bind ?_
    split
    · refine runs_bind (pluckExpr_plucked hpar hky hnd) fun _ q' hpl =>
        runs_pure _ fun W hW hb => ?_
      -- the tree built is the part's, whose nodes keep their kinds
      have hks : ∀ k' ∈ [k], k' ∈ (sub k).ids → k' = (sub k).root := fun k' hk' _ => by
        rw [List.mem_singleton.1 hk', hk.root]
      obtain rfl : W = sub k :=
        hb.holds.spans.unique (hpl.1.holds hk.holds hks).spans (hW.trans hk.root.symm)
      have hkind : ∀ x ∈ (sub k).ids, (q'.node x).kind = (q.node x).kind := fun x hx =>
        hpl.1.kind x (hk.holds.spans.index_lt hx)
      refine ⟨weight_frame hkind, negs_frame hkind, ?_⟩
      rw [hkind _ (sub k).root_mem_ids, hW]
      rfl
    · next hnone => simp [hpar] at hnone
  | .copy _, _, _, hc, _, _ => by simp [Replacement.copies] at hc
  | .val v s, q, sub, _, _, _ => by
    refine runs_mono (allocExpr_grown _) (fun m q' hg W hW hb => ?_) fun _ h => h
    -- the new literal has no operand: the tree is the node alone
    obtain ⟨e, ts⟩ := W
    obtain rfl : e = m := hW
    have hts : ts = [] := by
      have hops := (spans_node_iff.1 hb.holds.spans).2.1
      rw [hg.node_self] at hops
      simpa using hops.symm
    subst hts
    refine ⟨?_, ?_, ?_⟩ <;>
      simp [weight_node, negs_node, turned, hg.node_self, Replacement.weightWith,
        Replacement.negsWith, Replacement.rootKind, ExprKind.weight]
  | .unary op a, q, sub, hc, hr, hpw => by
    rw [Replacement.build]
    refine runs_bind (runs_mono (runs_and (Replacement.build_built a hc hr hpw)
      (Replacement.build_measured a hc hr hpw)) (fun _ _ h => h) fun _ h => h.1)
      fun _ q₁ hab => ?_
    obtain ⟨⟨A, hA, hb⟩, hm⟩ := hab
    have hmA := hm A hA hb
    refine runs_mono (allocExpr_grown _) (fun m q₂ hg W hW hbW => ?_) fun _ h => h
    -- the tree built is the new node over the operand's tree, whose nodes keep their kinds
    have hnode : q₂.Holds (.node m [A]) := hg.holds_node (by simp [hA])
      (by simpa using hb.holds) (List.pairwise_singleton _ _)
    obtain rfl : W = .node m [A] := hbW.holds.spans.unique hnode.spans hW
    have hkA : ∀ x ∈ A.ids, (q₂.node x).kind = (q₁.node x).kind := fun x hx =>
      hg.kind_eq (hg.ne_of_lt (hb.holds.spans.index_lt hx))
    refine ⟨?_, ?_, ?_⟩
    · rw [weight_node, hg.node_self]
      simp [weight_frame hkA, hmA.weight, Replacement.weightWith]
    · rw [negs_node]
      simp [negs_frame hkA, hmA.negs, Replacement.negsWith, turned]
    · rw [root_node, hg.node_self]
      rfl
  | .binary op l r, q, sub, hc, hr, hpw => by
    simp only [Replacement.copies, Bool.or_eq_false_iff] at hc
    simp only [Replacement.parts] at hr hpw ⊢
    obtain ⟨hpwl, hpwr, hlr⟩ := List.pairwise_append.1 hpw
    have hrl : ∀ k ∈ l.parts, q.Ready (sub k) k := fun k hk => hr k (List.mem_append_left _ hk)
    have hrr : ∀ k ∈ r.parts, q.Ready (sub k) k := fun k hk => hr k (List.mem_append_right _ hk)
    rw [Replacement.build]
    refine runs_bind (runs_mono (runs_and (Replacement.build_built l hc.1 hrl hpwl)
      (Replacement.build_measured l hc.1 hrl hpwl)) (fun _ _ h => h) fun _ h => h.1)
      fun _ q₁ hab => ?_
    obtain ⟨⟨A, hA, ha⟩, hmA⟩ := hab
    replace hmA := hmA A hA ha
    -- the right side's parts are still ready: the left side took out only its own parts
    have hnot : ∀ k ∈ r.parts, k ∉ l.parts := fun k hk hkl => hlr k hkl k hk (hrr k hk).mem
      (hrr k hk).mem
    have hrr₁ : ∀ k ∈ r.parts, q₁.Ready (sub k) k := fun k hk =>
      (hrr k hk).plucked ha.plucked (hnot k hk) fun k' hk' hkt =>
        hlr k' hk' k hk (hrl k' hk').mem hkt
    refine runs_bind (runs_mono (runs_and (Replacement.build_built r hc.2 hrr₁ hpwr)
      (Replacement.build_measured r hc.2 hrr₁ hpwr)) (fun _ _ h => h) fun _ h => h.1)
      fun _ q₂ hab => ?_
    obtain ⟨⟨B, hB, hb⟩, hmB⟩ := hab
    replace hmB := hmB B hB hb
    obtain ⟨hA₂, hAB⟩ := ha.pair hb hrr hlr
    refine runs_mono (allocExpr_grown _) (fun m q₃ hg W hW hbW => ?_) fun _ h => h
    have hnode : q₃.Holds (.node m [A, B]) := hg.holds_node (by simp [hA, hB])
      (by simpa using ⟨hA₂, hb.holds⟩) (by simpa using hAB)
    obtain rfl : W = .node m [A, B] := hbW.holds.spans.unique hnode.spans hW
    -- the two trees keep their kinds, and the right parts' trees kept theirs through the left build
    have hkA : ∀ x ∈ A.ids, (q₃.node x).kind = (q₁.node x).kind := fun x hx =>
      (hg.kind_eq (hg.ne_of_lt (hA₂.spans.index_lt hx))).trans
        (hb.plucked.kind x (ha.holds.spans.index_lt hx))
    have hkB : ∀ x ∈ B.ids, (q₃.node x).kind = (q₂.node x).kind := fun x hx =>
      hg.kind_eq (hg.ne_of_lt (hb.holds.spans.index_lt hx))
    have hsub : ∀ k ∈ r.parts, ∀ x ∈ (sub k).ids, (q₁.node x).kind = (q.node x).kind :=
      fun k hk x hx => ha.plucked.kind x ((hrr k hk).holds.spans.index_lt hx)
    have hwr : r.weightWith (fun k => (sub k).weight q₁) = r.weightWith fun k => (sub k).weight q :=
      Replacement.weightWith_congr r fun k hk => weight_frame (hsub k hk)
    have hnr : r.negsWith (fun k => (sub k).negs q₁) (fun k => (q₁.node k).kind) =
        r.negsWith (fun k => (sub k).negs q) fun k => (q.node k).kind :=
      Replacement.negsWith_congr r fun k hk =>
        ⟨negs_frame (hsub k hk), hsub k hk k ((hrr k hk).mem)⟩
    have hkr : r.rootKind (fun k => (q₁.node k).kind) = r.rootKind fun k => (q.node k).kind :=
      Replacement.rootKind_congr r fun k hk => hsub k hk k ((hrr k hk).mem)
    refine ⟨?_, ?_, ?_⟩
    · rw [weight_node, hg.node_self]
      simp [weight_frame hkA, weight_frame hkB, hmA.weight, hmB.weight, hwr,
        Replacement.weightWith]
    · rw [negs_node]
      simp only [List.map_cons, List.map_nil, List.sum_cons, List.sum_nil, turned, hg.node_self,
        negs_frame hkA, negs_frame hkB, hmA.negs, hmB.negs, hnr, Replacement.negsWith]
      rw [hkB _ B.root_mem_ids, hmB.rootKind, hkr]
      omega
    · rw [root_node, hg.node_self]
      rfl

/-! ### A replacement inside a tree -/

namespace Ctx

open ExprShape Procedure

variable {p : Procedure}

/-- A replacement of a lowering form, built and put in place, lowers the rank of the whole tree:
    the context keeps its kinds, and the new tree weighs what the form says. -/
theorem rank_replaced {C : Ctx} {N W : ExprShape} {ks : List ExprId} {sub : ExprId → ExprShape}
    {q₁ q₃ : Procedure} {D : List ExprId} {w : Replacement} (hS : p.Holds (C.fill N))
    (hR : C.Replaced N W ks sub p q₁ D q₃) (hw : w.Weighs p sub W q₁) (hlow : w.Lower p sub N) :
    (C.fill W).rank q₃ < (C.fill N).rank p := by
  have hCN := (nodup_fill.1 hS.nodup).2.2
  have hkC : ∀ x ∈ C.ids, (q₃.node x).kind = (p.node x).kind := fun x hx =>
    hR.kind x (hS.spans.index_lt (mem_ids_fill.2 (.inl hx))) fun hxD => hCN hx (hR.removed x hxD).1
  refine rank_fill_lt hkC ?_
  -- the new tree in `q₃` weighs what it weighed when built
  have hweight : W.weight q₃ = w.weightWith fun k => (sub k).weight p :=
    (weight_frame hR.kindW).trans hw.weight
  have hnegs : W.negs q₃ = w.negsWith (fun k => (sub k).negs p) fun k => (p.node k).kind :=
    (negs_frame hR.kindW).trans hw.negs
  have hroot : (q₃.node W.root).kind = w.rootKind fun k => (p.node k).kind :=
    (hR.kindW _ W.root_mem_ids).trans hw.rootKind
  rcases hlow with hlt | ⟨heq, hlt, hlit⟩
  · exact .inl (hweight ▸ hlt)
  · exact .inr ⟨hweight ▸ heq, hnegs ▸ hlt, hroot ▸ hlit⟩

end Ctx

namespace Procedure

variable {q : Procedure}

/-- Putting one expression in the place of another fails only for a malformed arena: a
    replacement already owned, or an expression no list holds. -/
theorem replaceExpr_raises {old new : ExprId} :
    RunsE (replaceExpr old new) q (fun _ _ => True) (fun e _ => ∃ m, e = .malformed m) := by
  unfold replaceExpr
  refine runsE_get_bind ?_
  dsimp only
  split
  · exact runsE_bind (Q := fun _ _ => False) (runsE_throw _ ⟨_, rfl⟩) fun _ _ h => h.elim
  · split
    · exact trivial
    · exact runsE_throw _ ⟨_, rfl⟩

end Procedure

namespace Simplifier

open ExprShape Procedure

variable {p : Procedure} {S : ExprShape}

/-- Lifting an answer that may fail: the state does not change. -/
theorem lift_runsE {α : Type} {x : Except Error α} {Q : α → Procedure → Prop}
    {F : Error → Procedure → Prop} (hok : ∀ a, x = .ok a → Q a p)
    (herr : ∀ e, x = .error e → F e p) : RunsE (lift x) p Q F := by
  cases x with
  | ok a => exact runsE_pure a (hok a rfl)
  | error e => exact runsE_throw e (herr e rfl)

/-- No rule fires at a node of the tree at `r` that is no definition position. -/
def Settled (s : Simplifier) (p : Procedure) (r : ExprId) : Prop :=
  ∀ x, p.Below r x → (p.node x).isDef = false → firstReplacement s.signed p x = .ok none

/-- One step over a held tree laid out by kinds: it finds the tree settled and changes nothing,
    or it answers the root of a held tree, laid out, of lower rank. It fails only with an error of
    the rules or for a malformed arena. -/
theorem step_lowers (s : Simplifier) (hS : p.Holds S) (hl : S.Laid p) :
    RunsE (s.step S.root) p
      (fun o p' => (o = none ∧ p' = p ∧ s.Settled p S.root) ∨
        ∃ S', o = some S'.root ∧ p'.Holds S' ∧ S'.Laid p' ∧ S'.rank p' < S.rank p)
      (fun e _ => e.OfRules ∨ ∃ m, e = .malformed m) := by
  unfold Simplifier.step
  refine runsE_get_bind (runsE_bind (runsE_forIn_done
    (fun done b q => q = p ∧ b.1 = none ∧
      ∀ x ∈ done, (p.node x).isDef = false → firstReplacement s.signed p x = .ok none)
    (fun b q => ∃ S', b.1 = some (some S'.root) ∧ q.Holds S' ∧ S'.Laid q ∧ S'.rank q < S.rank p)
    ⟨rfl, rfl, by simp⟩ ?_) ?_)
  · rintro done node rest hsplit b q ⟨hq, -, hdone⟩
    subst q
    have hnode : node ∈ p.postOrder S.root := hsplit ▸ List.mem_append_right _ List.mem_cons_self
    -- the nodes done so far, and now `node`, are settled
    have hnext : ((p.node node).isDef = false → firstReplacement s.signed p node = .ok none) →
        ∀ x ∈ done ++ [node], (p.node x).isDef = false →
          firstReplacement s.signed p x = .ok none := fun ho x hx => by
      rcases List.mem_append.1 hx with hx | hx
      · exact hdone x hx
      · rw [List.mem_singleton.1 hx]
        exact ho
    split
    · next hdef => exact runsE_pure _ ⟨rfl, rfl, hnext fun h => by simp [hdef] at h⟩
    · next hdef =>
      refine runsE_bind (lift_runsE
        (Q := fun o q' => q' = p ∧ firstReplacement s.signed p node = .ok o)
        (fun o ho => ⟨rfl, ho⟩) fun e he => .inl (firstReplacement_eq_error he)) ?_
      rintro o q' ⟨hq', ho⟩
      subst q'
      split
      · next w =>
        -- the node the round fires on is a node of the tree, the root of a subtree `N`
        obtain ⟨C, N, rfl, rfl⟩ := Ctx.exists_fill (hS.mem_of_below (mem_postOrder_go hnode).1)
        have hN : p.Holds N := hS.sub (Ctx.mem_subs_fill C N)
        have hlN : N.Laid p := hl.sub (Ctx.mem_subs_fill C N)
        -- the replacement has a lowering form, over parts of `N` that are ready to be moved
        obtain ⟨hcopies, sub, hparts, hlower⟩ := (firstReplacement_lowers ho).lower hN
        have hsub : ∀ k ∈ w.parts, sub k ∈ N.subs ∧ (sub k).root = k ∧ sub k ≠ N := fun k hk =>
          ⟨hparts.mem k hk, hparts.root k hk,
            fun h => hparts.ne_root k hk (by rw [← hparts.root k hk, h])⟩
        have hready : ∀ k ∈ w.parts, p.Ready (sub k) k := fun k hk => by
          have := Ready.of_sub hN hlN (hsub k hk).1 (hsub k hk).2.2
          rwa [(hsub k hk).2.1] at this
        refine runsE_bind (runsE_of_runs (runs_and
          (Replacement.build_built w hcopies hready hparts.disjoint)
          (Replacement.build_measured w hcopies hready hparts.disjoint)) fun _ _ h => h.1.elim)
          fun _ q₁ hbuilt => ?_
        obtain ⟨⟨W, rfl, hb⟩, hm⟩ := hbuilt
        have hw := hm W rfl hb
        -- the replacement in place, the rest of the tree of `N` goes, and the rank drops
        have hdiscard : ∀ q₂, q₁.Substituted N.root W.root q₂ → RunsE (discardExpr N.root) q₂
            (fun _ q₃ => q₃.Holds (C.fill W) ∧ (C.fill W).Laid q₃ ∧
              (C.fill W).rank q₃ < (C.fill N).rank p)
            (fun e _ => e.OfRules ∨ ∃ m, e = .malformed m) := fun q₂ hP => by
          have hlive : q₂.isLive N.root := by
            rw [hP.live, hb.plucked.live _ (hN.spans.index_lt N.root_mem_ids)]
            exact hN.spans.live N.root_mem_ids
          refine runsE_of_runs (runs_mono (discardExpr_detached hP.parent_old)
            (fun _ q₃ hq₃ => ?_) fun _ h => h) fun _ _ h => h.elim
          rw [hq₃, if_pos hlive]
          have hR := Ctx.fill_replaced hS hl hsub hb hP
          exact ⟨hR.holds, hR.laid, Ctx.rank_replaced hS hR hw hlower⟩
        refine runsE_get_bind ?_
        dsimp only
        have hroot := Ctx.ite_root_eq_top hS.nodup W.root
        split
        · refine runsE_bind (runsE_mono (runsE_of_runs_of_runsE
            (replaceExpr_substituted hb.detached (hb.holds.spans.live W.root_mem_ids))
            replaceExpr_raises) (fun _ _ h => h) fun _ _ h => .inr h)
            fun _ q₂ hP => runsE_bind (hdiscard q₂ hP.1) fun _ q₃ hk =>
              runsE_pure _ ⟨C.fill W, ?_, hk⟩
          rw [hroot, Ctx.root_fill]
        · next hnone =>
          refine runsE_bind (hdiscard q₁ (.of_detached (by simpa using hnone) hb.detached))
            fun _ q₃ hk => runsE_pure _ ⟨C.fill W, ?_, hk⟩
          rw [hroot, Ctx.root_fill]
      · next hnone =>
        rw [Option.eq_none_iff_forall_ne_some.2 hnone] at ho
        exact runsE_pure _ ⟨rfl, rfl, hnext fun _ => ho⟩
  · rintro b q (⟨rfl, hb, hdone⟩ | ⟨S', hb, hS', hl', hlt⟩) <;> dsimp only <;> rw [hb]
    · -- every node below the root was visited, and none fired
      refine runsE_pure _ (.inl ⟨rfl, rfl, fun x hx hxd => ?_⟩)
      obtain ⟨l, hw, hlen⟩ := hx.exists_short_walk
      exact hdone x (hw.mem_postOrder_go hlen) hxd
    · exact runsE_pure _ (.inr ⟨S', rfl, hS', hl', hlt⟩)

/-- No error of the rules and no malformed arena is the failure to settle. -/
theorem ne_nonConvergence {e : Error} (h : e.OfRules ∨ ∃ m, e = .malformed m) (stage) (n : Nat) :
    e ≠ .nonConvergence stage n := by
  rintro rfl
  rcases h with h | ⟨m, h⟩
  · exact h
  · cases h

/-- Steps repeated from a held tree laid out by kinds stop within its rank: the count of
    replacements grows by at most the rank, the tree it answers is settled, and the fuel runs out
    only when there is no more of it than the rank. -/
theorem reduceCounted_go_settles (s : Simplifier) (fuel : Nat) :
    ∀ {p : Procedure} {S : ExprShape} (done : Nat), p.Holds S → S.Laid p →
      RunsE (reduceCounted.go s fuel S.root done) p
        (fun res p' => res.2 ≤ done + S.rank p ∧ s.Settled p' res.1)
        (fun e _ => e = .nonConvergence .simplifier s.maxIterations → fuel ≤ S.rank p) := by
  -- on the fuel; each step that fires lowers the rank by one at least
  induction fuel with
  | zero =>
    intro p S done _ _
    exact runsE_throw _ fun _ => Nat.zero_le _
  | succ fuel ih =>
    intro p S done hS hl
    rw [reduceCounted.go]
    refine runsE_bind (runsE_mono (s.step_lowers hS hl) (fun _ _ h => h)
      fun e _ h he => absurd he (ne_nonConvergence h _ _)) fun o q h => ?_
    rcases h with ⟨rfl, rfl, hset⟩ | ⟨S', rfl, hS', hl', hlt⟩
    · exact runsE_pure _ ⟨Nat.le_add_right _ _, hset⟩
    · refine runsE_mono (ih (done + 1) hS' hl') (fun res _ h => ⟨by omega, h.2⟩)
        fun e _ h he => ?_
      have := h he
      omega

/-- The simplifier settles every held tree laid out by kinds. Reducing it makes at most as many
    replacements as the tree's rank and answers a tree on which no rule fires at any expression
    outside a definition position; it reports a failure to settle only when its cap on
    replacements is below that rank. -/
theorem reduceCounted_settles (s : Simplifier) (hS : p.Holds S) (hl : S.Laid p) :
    RunsE (s.reduceCounted S.root) p (fun r p' => r.2 ≤ S.rank p ∧ s.Settled p' r.1)
      (fun e _ => e = .nonConvergence .simplifier s.maxIterations → s.maxIterations < S.rank p) :=
  runsE_mono (s.reduceCounted_go_settles _ 0 hS hl) (fun _ _ h => ⟨by omega, h.2⟩)
    fun _ _ h he => h he

/-- Reducing `f() * 0` settles within the rank of its tree. -/
theorem reduceCounted_settles_product : callTimesZero.Holds callTimesZeroShape ∧
    callTimesZeroShape.Laid callTimesZero ∧
    RunsE (({} : Simplifier).reduceCounted callTimesZeroShape.root) callTimesZero
      (fun r p' => r.2 ≤ callTimesZeroShape.rank callTimesZero ∧ ({} : Simplifier).Settled p' r.1)
      (fun e _ => e = .nonConvergence .simplifier 256 →
        256 < callTimesZeroShape.rank callTimesZero) :=
  ⟨callTimesZero_holds, callTimesZero_laid,
    reduceCounted_settles {} callTimesZero_holds callTimesZero_laid⟩

end Simplifier

end Decompilation
