import ClauseLearning.Solver.Propagation

/-!
# Analysis of conflicts

`analyse` learns a clause from a false one: it resolves to the first unique implication point, bumps the atoms and
clauses involved, backjumps to the level at which the derived clause asserts its first literal, and stores it. To
assign that literal is left to the caller. `consequences` propagates and learns from the conflict that this may lead
to.
-/

namespace ClauseLearning

/-- What is learned from a conflict. -/
inductive Lesson
  /-- A literal that holds without any decision. -/
  | unit (l : Literal)
  /-- A stored clause that asserts a literal at the level gone back to. -/
  | asserting (key : ClauseKey) (l : Literal)
deriving DecidableEq, Repr

/-- What propagation comes to. -/
inductive Consequence
  /-- A conflict without any decision. -/
  | fundamentalConflict
  /-- A conflict from which something was learned. -/
  | learned (lesson : Lesson)
  /-- Nothing is left to propagate. -/
  | exhausted
deriving DecidableEq, Repr

namespace Solver

/-- Resolves from a false clause to the first unique implication point of the current level. -/
def resolve (key : ClauseKey) : SolverM Clause := do
  let buffer ← modifyGet fun s => (s.resolution, { s with resolution := {} })
  let s ← get
  let (result, buffer) := buffer.resolve key s.clauses s.atoms s.trail
  modify fun s => { s with resolution := buffer }
  ofExcept id result

/-- Bumps the activity of an atom. -/
def bumpAtom (a : Nat) : SolverM Unit := onAtoms (AtomM.bumpRelative a)

/-- Bumps the activity of atoms, in order. -/
def bumpAtoms : List Nat → SolverM Unit
  | [] => pure ()
  | a :: atoms => do
    bumpAtom a
    bumpAtoms atoms

/-- Bumps the activity of clauses, in order. -/
def bumpClauses (keys : List ClauseKey) : SolverM Unit :=
  onClauses fun clauses => ((), keys.foldl ClauseStore.bumpActivity clauses)

/-- Bumps the atoms and the clauses of the last resolution, which gave the clause `c`. -/
def bumpConflict (c : Clause) : SolverM Unit := do
  let s ← get
  bumpAtoms (match s.config.vsids.value with
    | .miniSat => s.resolution.atoms.toList
    | .chaff => c.atoms)
  bumpClauses (← get).resolution.premises.toList

/-- Backjumps to where a resolved clause asserts its first literal, and stores it. -/
def learn (first : Literal) (rest : Clause) : SolverM Lesson := do
  let c : Clause := first :: rest
  if rest.isEmpty then
    backjump 0
    let _ ← store c .learned
    return .unit first
  else
    backjump (← ofExcept id ((← get).backjumpLevel c))
    if c.asserted (← get).atoms.valuation ≠ some first then throw (.analysis .noAssertion)
    let key ← store c .learned
    bumpClauses [key]
    return .asserting key first

/-- Learns a clause from the false clause with a key, at a level above zero. -/
def analyse (key : ClauseKey) : SolverM Lesson := do
  if !(← get).trail.isDecided then throw (.analysis .noDecision)
  let c ← resolve key
  bumpConflict c
  match c with
  | [] => throw (.analysis .emptyResolution)
  | first :: rest => learn first rest

/-- Propagates, and learns from the conflict if there is one; a conflict without a decision settles the formula. -/
def consequences : SolverM Consequence := do
  match ← propagate with
  | none => return .exhausted
  | some key =>
    if (← get).trail.isDecided then
      return .learned (← analyse key)
    else
      modify fun s => { s with status := .unsatisfiable }
      return .fundamentalConflict

end Solver

end ClauseLearning
