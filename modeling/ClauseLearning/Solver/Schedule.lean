import ClauseLearning.Solver.Assignment

/-!
# The schedule of a solve

Before each decision a solve may stop, restart or reduce the clause store. It stops at a limit on time or conflicts,
or when the caller asks for it. A restart undoes all decisions; the conflicts between restarts follow a geometric
sequence or the Luby sequence. After the `k`-th reduction the limit for the next one is raised by `reductionFirst` and
`k` times `reductionIncrement`.
-/

namespace ClauseLearning

namespace Solver

/-! ## Restarts -/

/-- The next interval that follows the Luby sequence. -/
def lubyInterval : SolverM Float := do
  let s ← get
  let (element, luby) := s.counters.luby.next.getD (1, s.counters.luby)
  onCounters fun c => { c with luby }
  return Float.ofNat s.config.lubyUnit.value * Float.ofNat element

/-- Sets the limit for restarts, where the geometric policy gives the given one. -/
def scheduleRestart (geometric : Float) : SolverM Unit := do
  let restartLimit ← match (← get).config.restartPolicy.value with
    | .geometric => pure geometric
    | .luby => lubyInterval
  onCounters fun c => { c with restartLimit }

/-- Sets the limit for the first restart. -/
def initRestartLimit : SolverM Unit := do
  scheduleRestart (Float.ofNat (← get).config.restartFirst.value)

/-- Whether a restart is due. -/
def restartDue (s : Solver) : Bool :=
  s.config.restarts.value && s.counters.restartLimit ≤ Float.ofNat s.counters.freshConflicts

/-- Undoes all decisions and sets the limit for the next restart. -/
def restart : SolverM Unit := do
  backjump 0
  onCounters fun c => { c with freshConflicts := 0, restarts := c.restarts + 1 }
  let s ← get
  scheduleRestart (s.counters.restartLimit * s.config.restartMultiplier.value)

/-- Counts a conflict. -/
def noteConflict : SolverM Unit :=
  onCounters fun c => { c with conflicts := c.conflicts + 1, freshConflicts := min (c.freshConflicts + 1) maxCount }

/-! ## Reductions -/

/-- Sets the limit for the first reduction. -/
def initReductionLimit : SolverM Unit := do
  let reductionLimit := (← get).config.reductionFirst.value
  onCounters fun c => { c with reductionLimit }

/-- Whether a reduction is due. -/
def reductionDue (s : Solver) : Bool := s.counters.reductionLimit ≤ s.counters.conflicts

/-- Removes at most `count` long learned clauses, and tells how many. -/
def reduceBy (count : Nat) : SolverM Nat := do
  let reason := (← get).atoms.reasonOf
  ofExcept .store (← onClauses (·.reduceBy reason count))

/-- Removes a fraction of the unlocked long learned clauses, and tells how many. -/
def reduceByFraction (fraction : Float) : SolverM Nat := do
  let reason := (← get).atoms.reasonOf
  ofExcept .store (← onClauses (·.reduceByFraction reason fraction))

/-- Reduces the clause store and sets the limit for the next reduction. -/
def reduce : SolverM Unit := do
  let config := (← get).config
  let _ ← reduceByFraction config.reductionFraction.value
  onCounters fun c =>
    let reductions := c.reductions + 1
    let interval := config.reductionFirst.value + reductions * config.reductionIncrement.value
    { c with reductions, reductionLimit := c.reductionLimit + interval }

/-! ## Termination -/

/-- Asks whether the caller wishes to stop. -/
def askInterrupt : SolverM Bool := do
  match (← get).interrupt with
  | none => return false
  | some interrupt =>
    modify fun s => { s with interrupt := some { interrupt with asked := interrupt.asked + 1 } }
    return interrupt.answer interrupt.asked

/-- Whether the solve has to stop. The caller is asked only below the limits. -/
def terminationDue : SolverM Bool := do
  let s ← get
  let timeLimit := s.config.timeLimit.value
  let conflictLimit := s.config.conflictLimit.value
  if timeLimit ≠ 0 ∧ timeLimit ≤ s.counters.time then
    return true
  else if conflictLimit ≠ 0 ∧ conflictLimit ≤ s.counters.conflicts then
    return true
  else
    askInterrupt

end Solver

end ClauseLearning
