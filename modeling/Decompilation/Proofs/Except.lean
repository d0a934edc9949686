/-!
# Answers that may fail

Edits of graphs and procedures answer `Except` values, built in `do` notation. A composed
answer is a success exactly when each step is, and a thrown error is no success; these lemmas
take such an answer apart step by step without unfolding the monad.
-/

namespace Decompilation

variable {ε α β : Type}

/-- A composed answer succeeds when its first step succeeds and the rest succeeds on that. -/
@[simp]
theorem bind_eq_ok {x : Except ε α} {f : α → Except ε β} {b : β} :
    x >>= f = .ok b ↔ ∃ a, x = .ok a ∧ f a = .ok b := by
  cases x <;> simp [bind, Except.bind]

/-- A thrown error is no success. -/
@[simp]
theorem throw_ne_ok (e : ε) (a : α) : (throw e : Except ε α) ≠ .ok a := by
  simp [throw, throwThe, MonadExceptOf.throw]

/-- A pure answer succeeds with its value. -/
@[simp]
theorem pure_eq_ok {a b : α} : (pure a : Except ε α) = .ok b ↔ a = b := by
  simp [pure, Except.pure]

/-- An answer that is a success has a value. -/
theorem exists_eq_ok_of_isOk {x : Except ε α} (h : x.isOk = true) : ∃ a, x = .ok a := by
  cases x with
  | error e => cases h
  | ok a => exact ⟨a, rfl⟩

end Decompilation
