import ClauseLearning.Solver.Basic

/-!
# Assignments, decisions and backjumps

`assign` makes a literal true at the current level, `decide` does so at a level of its own, and `backjump` undoes all
levels above the given one, after which their atoms go back to the heap of activities with their values as the previous
ones.
-/

namespace ClauseLearning

namespace Solver

/-- Makes a literal true at the current level, by an antecedent if there is one. A literal that is true stays so, and
one that is false is an error. -/
def assign (l : Literal) (reason : Option ClauseKey) : SolverM Unit := do
  let level := (← get).trail.level
  if ← ofExcept .assignment (← onAtoms (AtomM.setValue l level reason)) then onTrail (·.push l)

/-- Opens a level with a literal whose atom has no value. -/
def decide (l : Literal) : SolverM Unit := do
  if ((← get).atoms.valueOf l.atom).isSome then throw .invalidState
  onTrail (·.openLevel)
  assign l none
  onCounters fun c => { c with decisions := c.decisions + 1 }

/-- Takes the value of an atom back. -/
def dropValue (a : Nat) : SolverM Unit := onAtoms (AtomM.dropValue a)

/-- Takes the values of the atoms of literals back, in the given order. -/
def unassign : List Literal → SolverM Unit
  | [] => pure ()
  | l :: ls => do
    dropValue l.atom
    unassign ls

/-- Undoes the levels above the given one, the last assignment first. -/
def backjump (level : Nat) : SolverM Unit := do
  require ((← get).trail.covers level)
  let undone := (← get).trail.above level
  onTrail (·.cut level)
  unassign undone.reverse

/-- The second highest level of a clause, with `second` and `first` the two highest levels so far. A level that occurs
twice counts twice. -/
def secondLevel (atoms : AtomTable) : Clause → Nat → Nat → Except Error Nat
  | [], second, _ => .ok second
  | l :: c, second, first =>
    match atoms.levelOf l.atom with
    | none => .error .backjump
    | some level =>
      if first < level then secondLevel atoms c first level
      else if second < level then secondLevel atoms c level first
      else secondLevel atoms c second first

/-- The level at which a false clause asserts a literal: the second highest level of its literals, or zero. -/
def backjumpLevel (s : Solver) (c : Clause) : Except Error Nat := secondLevel s.atoms c 0 0

end Solver

end ClauseLearning
