import Mathlib.Data.List.Forall2
import Decompilation.Error

/-!
# Outcomes of edits

Edits of a procedure and steps of a session run in a state monad that may fail, and a failure
keeps the changes made before it. `Runs m s Q E` says how a run of `m` from the state `s` ends:
in a state satisfying `Q a` when it answers `a`, and in one satisfying `E` when it fails. The
lemmas take a run apart along the structure of the computation, so that a proof about an edit
follows its `do` block step by step, citing what each called edit does and never unfolding it.

* `runs_bind`, `runs_pure`, `runs_throw`, `runs_tryCatch` and the state steps: the structure of
  a computation;
* `runs_forIn`: a loop over a list, with an invariant, and a separate condition for the round
  that leaves it early; `runs_forIn_done`, an invariant that follows the entries done;
* `runs_mapM`: a map over a list, relating each answer to its entry.
-/

namespace Decompilation

variable {σ α β : Type}

/-- `m` run from `s` answers `a` in a state satisfying `Q a`, or fails in a state satisfying
    `E`. -/
def Runs (m : ExceptT Error (StateM σ) α) (s : σ) (Q : α → σ → Prop) (E : σ → Prop) : Prop :=
  match m.run.run s with
  | (.ok a, s') => Q a s'
  | (.error _, s') => E s'

variable {s : σ} {Q : α → σ → Prop} {E : σ → Prop}

theorem runs_pure (a : α) (h : Q a s) : Runs (pure a : ExceptT Error (StateM σ) α) s Q E := h

theorem runs_throw (e : Error) (h : E s) : Runs (throw e : ExceptT Error (StateM σ) α) s Q E := h

theorem runs_throw_bind {f : α → ExceptT Error (StateM σ) β} {R : β → σ → Prop} (e : Error)
    (h : E s) : Runs (throw e >>= f) s R E := h

theorem runs_get_bind {f : σ → ExceptT Error (StateM σ) α} (h : Runs (f s) s Q E) :
    Runs (get >>= f) s Q E := h

theorem runs_set {Q : PUnit → σ → Prop} {s' : σ} (h : Q ⟨⟩ s') :
    Runs (set s' : ExceptT Error (StateM σ) PUnit) s Q E := h

theorem runs_modify {Q : PUnit → σ → Prop} {f : σ → σ} (h : Q ⟨⟩ (f s)) :
    Runs (modify f : ExceptT Error (StateM σ) PUnit) s Q E := h

theorem runs_modifyGet {f : σ → α × σ} (h : Q (f s).1 (f s).2) :
    Runs (modifyGet f : ExceptT Error (StateM σ) α) s Q E := h

theorem runs_set_bind {s' : σ} {f : PUnit → ExceptT Error (StateM σ) α} (h : Runs (f ⟨⟩) s' Q E) :
    Runs (set s' >>= f) s Q E := h

theorem runs_modify_bind {g : σ → σ} {f : PUnit → ExceptT Error (StateM σ) α}
    (h : Runs (f ⟨⟩) (g s) Q E) : Runs (modify g >>= f) s Q E := h

/-- A composed computation: the first step's outcome, then the rest from each of its answers. -/
theorem runs_bind {x : ExceptT Error (StateM σ) α} {f : α → ExceptT Error (StateM σ) β}
    {R : β → σ → Prop} (hx : Runs x s Q E) (hf : ∀ a s', Q a s' → Runs (f a) s' R E) :
    Runs (x >>= f) s R E := by
  unfold Runs at hx ⊢
  simp only [ExceptT.run_bind, StateT.run_bind]
  revert hx
  rcases x.run.run s with ⟨_ | a, s'⟩
  · exact id
  · exact hf a s'

/-- Two outcomes of one run hold together. -/
theorem runs_and {m : ExceptT Error (StateM σ) α} {Q' : α → σ → Prop} {E' : σ → Prop}
    (h : Runs m s Q E) (h' : Runs m s Q' E') :
    Runs m s (fun a s' => Q a s' ∧ Q' a s') (fun s' => E s' ∧ E' s') := by
  unfold Runs at h h' ⊢
  revert h h'
  rcases m.run.run s with ⟨_ | a, s'⟩ <;> exact fun h h' => ⟨h, h'⟩

/-- A run that answers ends as it ends: its answer and its state are those the computation
    gives. -/
theorem runs_self (m : ExceptT Error (StateM σ) α) (s : σ) :
    Runs m s (fun a s' => m.run.run s = (.ok a, s')) (fun _ => True) := by
  unfold Runs
  split
  · next a s' h => exact h
  · trivial

/-- An answer that may fail, lifted: the state does not change. -/
theorem runs_liftM {x : Except Error α} (hok : ∀ a, x = .ok a → Q a s) (herr : E s) :
    Runs (liftM x : ExceptT Error (StateM σ) α) s Q E := by
  cases x with
  | ok a => exact hok a rfl
  | error e => exact herr

/-- A conditional computation: each branch under its condition. -/
theorem runs_ite {c : Prop} [Decidable c] {a b : ExceptT Error (StateM σ) α}
    (ha : c → Runs a s Q E) (hb : ¬c → Runs b s Q E) : Runs (if c then a else b) s Q E := by
  by_cases hc : c
  · rw [if_pos hc]
    exact ha hc
  · rw [if_neg hc]
    exact hb hc

/-- Weakening both outcomes. -/
theorem runs_mono {m : ExceptT Error (StateM σ) α} {Q' : α → σ → Prop} {E' : σ → Prop}
    (h : Runs m s Q E) (hQ : ∀ a s', Q a s' → Q' a s') (hE : ∀ s', E s' → E' s') :
    Runs m s Q' E' := by
  unfold Runs at h ⊢
  rcases hm : m.run.run s with ⟨_ | a, s'⟩ <;> rw [hm] at h
  · exact hE s' h
  · exact hQ a s' h

/-- A caught failure: the handler runs from the state the failure left. -/
theorem runs_tryCatch {x : ExceptT Error (StateM σ) α} {h : Error → ExceptT Error (StateM σ) α}
    {E' : σ → Prop} (hx : Runs x s Q E') (hh : ∀ e s', E' s' → Runs (h e) s' Q E) :
    Runs (tryCatch x h) s Q E := by
  have hrun : (tryCatch x h).run.run s = match x.run.run s with
      | (.ok a, s') => (.ok a, s')
      | (.error e, s') => (h e).run.run s' := by
    change (ExceptT.tryCatch x h).run.run s = _
    simp only [ExceptT.tryCatch, ExceptT.run, ExceptT.mk, StateT.run_bind]
    rcases StateT.run x s with ⟨_ | _, _⟩ <;> rfl
  unfold Runs at hx ⊢
  rw [hrun]
  revert hx
  rcases x.run.run s with ⟨e | a, s'⟩
  · exact hh e s'
  · exact id

/-- The outcome of one round of a loop: a round that goes on satisfies the invariant `J`, one
    that leaves the loop early satisfies `D`. -/
def RoundEnds (J D : β → σ → Prop) : ForInStep β → σ → Prop
  | .yield b, s => J b s
  | .done b, s => D b s

/-- A loop over a list: when the invariant `J` holds before the loop and every round keeps it
    or leaves with `D`, the loop ends with `J` or `D`. -/
theorem runs_forIn {l : List α} {b : β} {f : α → β → ExceptT Error (StateM σ) (ForInStep β)}
    (J D : β → σ → Prop) (h0 : J b s)
    (hf : ∀ a ∈ l, ∀ b s, J b s → Runs (f a b) s (RoundEnds J D) E) :
    Runs (forIn l b f) s (fun b s => J b s ∨ D b s) E := by
  induction l generalizing b s with
  | nil => exact .inl h0
  | cons a l ih =>
    rw [List.forIn_cons]
    refine runs_bind (hf a List.mem_cons_self b s h0) fun r s' hr => ?_
    cases r with
    | done b' => exact .inr hr
    | yield b' => exact ih hr fun a ha => hf a (List.mem_cons_of_mem _ ha)

/-- A loop whose every round keeps the invariant `J`, whether it goes on or not. -/
theorem runs_forIn_inv {l : List α} {b : β} {f : α → β → ExceptT Error (StateM σ) (ForInStep β)}
    (J : β → σ → Prop) (h0 : J b s)
    (hf : ∀ a ∈ l, ∀ b s, J b s → Runs (f a b) s (fun r s' => J r.value s') E) :
    Runs (forIn l b f) s J E := by
  refine runs_mono (runs_forIn J J h0 fun a ha b s hb => ?_) (fun _ _ h => h.elim id id)
    (fun _ h => h)
  refine runs_mono (hf a ha b s hb) (fun r s' h => ?_) (fun _ h => h)
  cases r <;> exact h

/-- A loop over a list whose every round goes on, with an invariant that follows the entries
    already done. -/
theorem runs_forIn_done {l : List α} {b : β} {f : α → β → ExceptT Error (StateM σ) (ForInStep β)}
    (J : List α → β → σ → Prop) (h0 : J [] b s)
    (hf : ∀ l₁ a l₂, l = l₁ ++ a :: l₂ → ∀ b s, J l₁ b s →
      Runs (f a b) s (fun r s' => ∃ b', r = .yield b' ∧ J (l₁ ++ [a]) b' s') E) :
    Runs (forIn l b f) s (fun b s => J l b s) E := by
  -- the entries done so far are `pre`, the rest `l`
  suffices h : ∀ pre : List α, ∀ (l : List α) (b : β) (s : σ),
      (∀ l₁ a l₂, pre ++ l = l₁ ++ a :: l₂ → ∀ b s, J l₁ b s →
        Runs (f a b) s (fun r s' => ∃ b', r = .yield b' ∧ J (l₁ ++ [a]) b' s') E) →
      J pre b s → Runs (forIn l b f) s (fun b s => J (pre ++ l) b s) E from
    h [] l b s (by simpa using hf) h0
  intro pre l
  induction l generalizing pre with
  | nil => exact fun b s _ h => runs_pure _ (by simpa using h)
  | cons a l ih =>
    intro b s hf h
    rw [List.forIn_cons]
    refine runs_bind (hf pre a l rfl b s h) fun r s' ⟨b', hr, h'⟩ => ?_
    subst hr
    have hrest := ih (pre ++ [a]) b' s' (fun l₁ a' l₂ he => hf l₁ a' l₂ (by simpa using he)) h'
    simpa using hrest

/-- A map over a list, through states related by a reflexive and transitive relation `P` that
    keeps the relation `R` of an entry to its answer: each answer is related to its entry in
    the final state. -/
theorem runs_mapM {l : List α} {f : α → ExceptT Error (StateM σ) β} (J : σ → Prop)
    (P : σ → σ → Prop) (hrefl : ∀ s, P s s) (htrans : ∀ {s₁ s₂ s₃}, P s₁ s₂ → P s₂ s₃ → P s₁ s₃)
    (R : α → β → σ → Prop) (hR : ∀ {a b s s'}, R a b s → P s s' → R a b s')
    (hf : ∀ a ∈ l, ∀ s, J s → Runs (f a) s (fun b s' => J s' ∧ P s s' ∧ R a b s') E)
    (hs : J s) :
    Runs (l.mapM f) s (fun bs s' => J s' ∧ P s s' ∧ List.Forall₂ (fun a b => R a b s') l bs) E := by
  induction l generalizing s with
  | nil => exact runs_pure _ ⟨hs, hrefl s, .nil⟩
  | cons a l ih =>
    rw [List.mapM_cons]
    refine runs_bind (hf a List.mem_cons_self s hs) fun b s₁ ⟨hs₁, hP₁, hR₁⟩ => ?_
    refine runs_bind (ih (fun a ha => hf a (List.mem_cons_of_mem _ ha)) hs₁)
      fun bs s₂ ⟨hs₂, hP₂, hR₂⟩ => ?_
    exact runs_pure _ ⟨hs₂, htrans hP₁ hP₂, .cons (hR hR₁ hP₂) hR₂⟩

end Decompilation
