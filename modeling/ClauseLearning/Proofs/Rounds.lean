import ClauseLearning.Proofs.Soundness.History

/-!
# Rounds

`AtRound config s` says that `s` is the state at the start of some round of a search, whatever was called before: a
solve of so many rounds that has not come to an answer is there. Such a state is sound for the clauses accepted so far
(`AtRound.sound`), as the beginning of a solve and each round of it keep soundness. `stepBy` is a round in which any
operation may choose the literal to decide on, and `goOnBy` what is left of it where nothing is left to propagate.
-/

namespace ClauseLearning

variable {config : Config} {F : List Clause} {s t : Solver} {calls : List Call} {clock : Nat → Nat} {rounds : Nat}

/-- The state at the start of a round of a solve that follows calls on a new solver. -/
def AtRound (config : Config) (s : Solver) : Prop :=
  ∃ (calls : List Call) (clock : Nat → Nat) (rounds : Nat),
    Solver.solve clock rounds (replay config calls).solver = .ok none s

/-- A solve that does not come to an answer stops at the start of a round. -/
theorem AtRound.of_answer
    (h : (Solver.answer (Solver.solve clock rounds) (replay config calls).solver).toOption = some none) :
    AtRound config (Solver.after (Solver.solve clock rounds) (replay config calls).solver) :=
  ⟨calls, clock, rounds, Solver.eq_ok_of_answer h⟩

/-- What rounds without an answer come to. -/
theorem solve_none_spec (h : Sound F s) (hr : Solver.solve clock rounds s = .ok none t) :
    Sound F t ∧ t.config = s.config ∧ t.status = .solving := by
  have hsolve : Solver.Yields (Solver.solve clock rounds) s
      (fun r t => r = none → Sound F t ∧ t.config = s.config ∧ t.status = .solving) fun _ _ => True := by
    rw [Solver.solve, Solver.yields_bind]
    refine (start_spec h).ok_imp fun r u hu => ?_
    cases r with
    | some report => exact Solver.yields_pure.mpr fun h => by cases h
    | none =>
      obtain ⟨hu, hconfig, -, hstatus⟩ := hu
      refine (run_spec hu hstatus clock rounds 0).imp (fun r v hv hr => ?_) fun _ _ _ => trivial
      subst hr
      exact ⟨hv.1, hv.2.config.trans hconfig, hv.2.status.trans hstatus⟩
  exact hsolve.of_ok hr rfl

/-- At the start of a round the solver is sound for the clauses accepted so far, and the formula is not settled. -/
theorem AtRound.sound (h : AtRound config s) : ∃ F, Sound F s ∧ s.config = config ∧ s.status = .solving := by
  obtain ⟨calls, clock, rounds, hr⟩ := h
  have hfaithful := faithful_replay config calls
  obtain ⟨hs, hconfig, hstatus⟩ := solve_none_spec hfaithful.sound hr
  exact ⟨_, hs, hconfig.trans hfaithful.config, hstatus⟩

/-! ## The choice of a literal -/

namespace Solver

/-- Decides on the literal that an operation chooses, or ends the solve if it chooses none. -/
def decideBy (choose : SolverM (Option Literal)) (time : Nat) : SolverM (Option Report) := do
  match ← choose with
  | some l =>
    decide l
    return none
  | none => return some (← finish time)

/-- The rest of a round after a restart, if one was due: a reduction if one is due, and a decision or the end. -/
def goOnBy (choose : SolverM (Option Literal)) (time : Nat) : SolverM (Option Report) := do
  if (← get).reductionDue then reduce
  decideBy choose time

/-- `advance`, where an operation chooses the literal. -/
def advanceBy (choose : SolverM (Option Literal)) (time : Nat) : SolverM (Option Report) := do
  onCounters fun c => { c with time }
  if ← terminationDue then
    backjump 0
    return some .unknown
  if (← get).restartDue then restart
  goOnBy choose time

/-- `step`, where an operation chooses the literal. -/
def stepBy (choose : SolverM (Option Literal)) (time : Nat) : SolverM (Option Report) := do
  onCounters fun c => { c with iterations := c.iterations + 1 }
  match ← consequences with
  | .fundamentalConflict => return some (← finish time)
  | .exhausted => advanceBy choose time
  | .learned lesson =>
    apply lesson
    return none

theorem stepBy_chooseLiteral (time : Nat) : stepBy chooseLiteral time = step time := rfl

end Solver

/-! ## A round after two decisions -/

/-- Calls that add four atoms and the clauses `1 2` and `1 ¬2 3`. -/
def twoClauses : List Call :=
  [.ensureAtoms 4, .addClause [⟨1, true⟩, ⟨2, true⟩], .addClause [⟨1, true⟩, ⟨2, false⟩, ⟨3, true⟩]]

/-- The solver after two rounds of a solve of these clauses: a decision, from which a literal follows by each of the two
clauses, and another decision. -/
def decidedTwice : Solver := Solver.after (Solver.solve (fun _ => 0) 2) (replay default twoClauses).solver

/-- The clauses are in order already. -/
theorem normalise_twoClauses : Clause.normalise [⟨1, true⟩, ⟨2, true⟩] = [⟨1, true⟩, ⟨2, true⟩] ∧
    Clause.normalise [⟨1, true⟩, ⟨2, false⟩, ⟨3, true⟩] = [⟨1, true⟩, ⟨2, false⟩, ⟨3, true⟩] :=
  ⟨Clause.Ordered.normalise (by decide), Clause.Ordered.normalise (by decide)⟩

theorem atRound_decidedTwice : AtRound default decidedTwice := by
  obtain ⟨h1, h2⟩ := normalise_twoClauses
  refine AtRound.of_answer ?_
  simp only [twoClauses, replay, Session.makeAll, List.foldl, Session.make, Solver.addClause, Solver.defect, h1, h2]
  decide +kernel

end ClauseLearning
