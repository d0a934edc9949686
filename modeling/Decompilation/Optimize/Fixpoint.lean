import Decompilation.Optimize.Pass

/-!
# Running passes to a fixpoint

A list of passes is swept over the procedure, every pass once per sweep in list order, until a
sweep changes nothing. The answer is the number of sweeps, the last, unchanged one included.
Failing to settle within the allowed number of sweeps is an error. The start and the end are
recorded as events about the function; an empty list does nothing and records nothing.
-/

namespace Decompilation

open Work

/-- One sweep of the passes; whether any of them changed the procedure. Every pass runs, also
    after one that changed something. -/
def sweep (kinds : List PassKind) (cfg : OptimizerConfig) : Work Bool := do
  let mut changed := false
  for k in kinds do
    if ← k.run cfg then changed := true
  pure changed

/-- Sweeps the passes until one sweep changes nothing, at most `limit` times, and returns the
    number of sweeps. -/
def runToFixpoint (kinds : List PassKind) (limit : Nat) (cfg : OptimizerConfig) : Work Nat := do
  if kinds.isEmpty then return 0
  let address := (← current).address
  record { kind := .passStarted, function := some address,
           message := ", ".intercalate (kinds.map PassKind.name) }
  go address limit 0
where
  /-- At most `fuel` more sweeps after `done` of them. -/
  go (address : UInt64) : Nat → Nat → Work Nat
    | 0, _ => throw (.nonConvergence .optimizer limit)
    | fuel + 1, done => do
      if ← sweep kinds cfg then go address fuel (done + 1)
      else
        record { kind := .passCompleted, function := some address,
                 message := "converged after " ++ toString (done + 1) ++ " sweeps" }
        pure (done + 1)

end Decompilation
