import ClauseLearning.Solver.Assignment

/-!
# Decisions

`chooseAtom` chooses an atom without a value, the most active one or, with some probability, a random one.
`chooseLiteral` gives it a polarity: its previous value, or a random one. Where no atom is left, the formula is
satisfiable.
-/

namespace ClauseLearning

namespace Solver

/-- Takes the most active atom without a value off the heap of activities. -/
def mostActive : SolverM (Option Nat) := onAtoms do AtomM.popUnvalued (← get).activity.activeCount

/-- The atoms without a value, apart from the top atom. -/
def openAtoms (s : Solver) : List Nat := s.atoms.valuation.unvalued.filter (· != topAtom)

/-- Chooses an atom without a value, with randomness from a generator that is given back. -/
def chooseAtom (random : Generator) : SolverM (Option Nat × Generator) := do
  match random.bool (← get).config.randomDecisionBias.value with
  | none => throw (.breach .invalidProbability)
  | some (true, random) => return random.choose (← get).openAtoms
  | some (false, random) =>
    match ← mostActive with
    | some a => return (some a, random)
    | none => return ((← get).openAtoms.head?, random)

/-- Chooses a literal to decide on. If every atom has a value there is none, and the formula is satisfiable. -/
def chooseLiteral : SolverM (Option Literal) := do
  let (atom, random) ← chooseAtom (← get).random
  modify fun s => { s with random }
  match atom with
  | none =>
    modify fun s => { s with status := .satisfiable }
    return none
  | some a =>
    if (← get).config.phaseSaving.value then
      match (← get).atoms.previousOf a with
      | none => throw (.breach .outOfRange)
      | some polarity => return some ⟨a, polarity⟩
    else
      return some ⟨a, ← randomBool (← get).config.polarityBias.value⟩

end Solver

end ClauseLearning
