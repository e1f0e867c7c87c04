import ClauseLearning.Solver.Assignment

/-!
# The formula

Atoms are added one by one or up to a count, and clauses by `addClause`, while no decision is open. A clause is
simplified by what holds at level zero: it may be true already, it loses its false literals, and with one literal left
it is assigned, with none left it settles the formula.
-/

namespace ClauseLearning

/-- What becomes of an added clause. -/
inductive Addition
  /-- The clause, or what is left of it, is stored. -/
  | added (key : ClauseKey)
  /-- The clause has a true literal. -/
  | satisfied
  /-- All literals of the clause are false. -/
  | unsatisfiable
deriving DecidableEq, Repr

namespace Solver

/-- Notes that there is something to solve. -/
def beginInput : SolverM Unit :=
  modify fun s => { s with status := if s.status = .configuration then .input else s.status }

/-- Adds an atom with a random value to go back to, and gives it. -/
def freshAtom : SolverM Nat := do
  let previous ← randomBool (← get).config.polarityBias.value
  if maxAtom < (← get).atoms.size then throw .atomsExhausted
  let a := (← get).atoms.size
  onAtoms (AtomM.grow previous)
  onWatches (·.ensure a)
  beginInput
  return a

/-- Adds `n` atoms. -/
def addAtoms : Nat → SolverM Unit
  | 0 => pure ()
  | n + 1 => do
    let _ ← freshAtom
    addAtoms n

/-- Adds atoms up to the given count of atoms, without the top atom. -/
def ensureAtoms (count : Nat) : SolverM Unit := do addAtoms (count - (← get).atomCount)

/-- The literal of an integer, if it is the literal of an atom. -/
def literalOfInt (s : Solver) (i : Int) : Except ClauseError Literal :=
  if i = 0 then .error .zero
  else if s.atomCount < i.natAbs then .error (.unknownAtom i)
  else .ok (.ofInt i)

/-- The clause of the literals of integers, if all are literals of atoms. -/
def clauseOfInts (s : Solver) (ints : List Int) : Except ClauseError Clause := ints.mapM s.literalOfInt

/-- The cause for which a clause is refused, whether or not a decision is open: an unknown atom, of the first such
literal, or a literal together with its negation. -/
def defect (s : Solver) (c : Clause) : Option ClauseError :=
  match c.find? fun l => l.atom == topAtom || s.atomCount < l.atom with
  | some l => some (.unknownAtom l.toInt)
  | none => if c.normalise.hasTwins then some .tautology else none

/-- Stores what is left of a clause. -/
def addReduced (c : Clause) : SolverM Addition := do
  match c with
  | [] =>
    modify fun s => { s with status := .unsatisfiable }
    return .unsatisfiable
  | [l] =>
    let key ← store c .given
    assign l (some key)
    return .added key
  | _ => return .added (← store c .given)

/-- Adds a clause to the formula. -/
def addClause (c : Clause) : SolverM Addition := do
  if (← get).trail.isDecided then throw (.store .decisionMade)
  if let some cause := (← get).defect c then throw (.clause cause)
  beginInput
  let v := (← get).atoms.valuation
  let c := c.normalise
  if c.satisfied v then return .satisfied
  addReduced (c.filter fun l => (v.valueOf l.atom).isNone)

/-- Adds the clause of the literals of integers. -/
def addInts (ints : List Int) : SolverM Addition := do addClause (← ofExcept .clause ((← get).clauseOfInts ints))

/-- Adds the clauses of a formula, given by integers, and passes over clauses that are refused. -/
def addFormula : List (List Int) → SolverM Unit
  | [] => pure ()
  | ints :: rest => do
    let c ← ofExcept .clause ((← get).clauseOfInts ints)
    tryCatch (discard (addClause c)) fun
      | .clause _ => pure ()
      | e => throw e
    addFormula rest

end Solver

end ClauseLearning
