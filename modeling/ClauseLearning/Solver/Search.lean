import ClauseLearning.Solver.Analysis
import ClauseLearning.Solver.Decision
import ClauseLearning.Solver.Schedule

/-!
# The search

`step` is one round of the search: it propagates, and then decides on a literal, if nothing is left to propagate, or
assigns the literal that was learned from a conflict. `solve` repeats it until the formula is settled or a limit is
reached, at most for the given number of rounds; running out of rounds is no answer.
-/

namespace ClauseLearning

namespace Solver

/-- Begins a solve, with the limits set if this is the first one. A formula that is settled is answered at once. -/
def start : SolverM (Option Report) := do
  match (← get).status with
  | .satisfiable | .unsatisfiable => return some (← get).report
  | .configuration | .input | .solving =>
    modify fun s => { s with status := .solving }
    if (← get).counters.restartLimit == 0 then initRestartLimit
    if (← get).counters.reductionLimit = 0 then initReductionLimit
    return none

/-- Ends a solve that took the given time. -/
def finish (time : Nat) : SolverM Report := do
  onCounters fun c => { c with time }
  return (← get).report

/-- Decides on a literal, after a restart and a reduction where these are due, or ends the solve. -/
def advance (time : Nat) : SolverM (Option Report) := do
  onCounters fun c => { c with time }
  if ← terminationDue then
    backjump 0
    return some .unknown
  if (← get).restartDue then restart
  if (← get).reductionDue then reduce
  match ← chooseLiteral with
  | some l =>
    decide l
    return none
  | none => return some (← finish time)

/-- Assigns the literal that was learned from a conflict, and lets all activities decay. -/
def apply (lesson : Lesson) : SolverM Unit := do
  match lesson with
  | .unit l => assign l (some (.learnedUnit l))
  | .asserting key l => assign l (some key)
  noteConflict
  onAtoms AtomM.decayActivity
  onClauses fun clauses => ((), clauses.decayActivity)

/-- One round of the search, the given time after its start. -/
def step (time : Nat) : SolverM (Option Report) := do
  onCounters fun c => { c with iterations := c.iterations + 1 }
  match ← consequences with
  | .fundamentalConflict => return some (← finish time)
  | .exhausted => advance time
  | .learned lesson =>
    apply lesson
    return none

/-- Up to `rounds` rounds of the search, with the time at each as the clock shows it. -/
def run (clock : Nat → Nat) : Nat → Nat → SolverM (Option Report)
  | 0, _ => pure none
  | rounds + 1, i => do
    match ← step (clock i) with
    | some report => return some report
    | none => run clock rounds (i + 1)

/-- Determines whether the formula is satisfiable in up to the given number of rounds. -/
def solve (clock : Nat → Nat) (rounds : Nat) : SolverM (Option Report) := do
  match ← start with
  | some report => return some report
  | none => run clock rounds 0

/-- A number of rounds that no search comes to. -/
def maxRounds : Nat := 4611686018427387904

end Solver

end ClauseLearning
