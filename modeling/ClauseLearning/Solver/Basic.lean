import ClauseLearning.AtomTable.Activity
import ClauseLearning.ClauseStore.Activity
import ClauseLearning.ClauseStore.Reduction
import ClauseLearning.Luby
import ClauseLearning.Random.Choice
import ClauseLearning.Resolution
import ClauseLearning.Watches

/-!
# The solver

A `Solver` is the whole state of a solve, and `SolverM` the operations on it that may stop with an `Error`, after which
the changes made so far stand. `onAtoms`, `onClauses`, … run an operation on one part of the state.
-/

namespace ClauseLearning

/-- What is settled about the formula. -/
inductive Status
  /-- Nothing has been added yet. -/
  | configuration
  /-- There are atoms or clauses. -/
  | input
  /-- There is a model. -/
  | satisfiable
  /-- There is no model. -/
  | unsatisfiable
  /-- A solve has begun. -/
  | solving
deriving DecidableEq, Repr

instance : ToString Status where
  toString
    | .configuration => "Configuration"
    | .input => "Input"
    | .satisfiable => "Satisfiable"
    | .unsatisfiable => "Unsatisfiable"
    | .solving => "Solving"

/-- The answer of a solve. -/
inductive Report
  | satisfiable
  | unsatisfiable
  | unknown
deriving DecidableEq, Repr

instance : ToString Report where
  toString
    | .satisfiable => "SATISFIABLE"
    | .unsatisfiable => "UNSATISFIABLE"
    | .unknown => "UNKNOWN"

/-- The answer that a status stands for. -/
def Status.report : Status → Report
  | .satisfiable => .satisfiable
  | .unsatisfiable => .unsatisfiable
  | .configuration | .input | .solving => .unknown

/-- Counts of what happened in the solves so far, and the schedule. -/
structure Counters where
  /-- The number of conflicts. -/
  conflicts : Nat := 0
  /-- The number of conflicts since the last restart, up to `maxCount`. -/
  freshConflicts : Nat := 0
  /-- The number of decisions. -/
  decisions : Nat := 0
  /-- The number of propagated literals. -/
  propagations : Nat := 0
  /-- The number of rounds of the search. -/
  iterations : Nat := 0
  /-- The number of restarts. -/
  restarts : Nat := 0
  /-- The number of reductions. -/
  reductions : Nat := 0
  /-- The time spent, in nanoseconds. -/
  time : Nat := 0
  /-- The number of fresh conflicts at which a restart is due. -/
  restartLimit : Float := 0
  /-- The number of conflicts at which a reduction is due. -/
  reductionLimit : Nat := 0
  /-- The place in the Luby sequence. -/
  luby : Luby := {}

/-- A caller's wish to stop, asked for before each decision. -/
structure Interrupt where
  /-- The answer to each question, by the number of questions before. -/
  answer : Nat → Bool
  /-- The number of questions asked. -/
  asked : Nat := 0

/-- The state of a solve. -/
structure Solver where
  /-- The parameters. -/
  config : Config
  /-- The counts and the schedule. -/
  counters : Counters
  /-- What is known of each atom. -/
  atoms : AtomTable
  /-- Which clauses watch each literal. -/
  watches : Watches
  /-- The clauses. -/
  clauses : ClauseStore
  /-- The assigned literals. -/
  trail : Trail
  /-- What is settled about the formula. -/
  status : Status
  /-- The source of random choices. -/
  random : Generator
  /-- The buffer for resolution. -/
  resolution : Resolution
  /-- The caller's wish to stop, if there can be one. -/
  interrupt : Option Interrupt

/-- An operation on a solver. -/
abbrev SolverM := EStateM Error Solver

namespace Solver

/-- A solver without atoms, apart from the top atom, and without clauses. -/
def ofConfig (config : Config) : Solver where
  config := config
  counters := {}
  atoms := .ofConfig config
  watches := ({} : Watches).ensure topAtom
  clauses := .ofConfig config
  trail := {}
  status := .configuration
  random := .ofSeed 0
  resolution := {}
  interrupt := none

instance : Inhabited Solver := ⟨ofConfig default⟩

/-- The number of atoms, without the top atom. -/
def atomCount (s : Solver) : Nat := s.atoms.size - 1

/-- The answer that the status stands for. -/
def report (s : Solver) : Report := s.status.report

/-- The values of the atoms from `1` on, if the formula is known to be satisfiable. -/
def model (s : Solver) : Option (List Bool) :=
  if s.status = .satisfiable then some (s.atoms.valuation.values.map (·.getD false)) else none

/-- Whether the formula is known to be satisfiable and the valuation makes all the clauses true. -/
def modelSatisfies (s : Solver) (clauses : List Clause) : Bool :=
  s.status == .satisfiable && clauses.all (·.satisfied s.atoms.valuation)

/-! ## Operations on parts -/

/-- Goes on only if an index lies inside its table. -/
def require (inside : Bool) : SolverM Unit := if inside then pure () else throw (.breach .outOfRange)

/-- A result that may be an error of some part. -/
def ofExcept {ε α : Type} (error : ε → Error) : Except ε α → SolverM α
  | .ok a => pure a
  | .error e => throw (error e)

/-- Runs an operation on the atom table. -/
@[inline] def onAtoms {α : Type} (operation : AtomM α) : SolverM α := fun s =>
  let ⟨config, counters, atoms, watches, clauses, trail, status, random, resolution, interrupt⟩ := s
  match operation atoms with
  | .ok a atoms => .ok a ⟨config, counters, atoms, watches, clauses, trail, status, random, resolution, interrupt⟩
  | .error e atoms =>
    .error (.breach e) ⟨config, counters, atoms, watches, clauses, trail, status, random, resolution, interrupt⟩

/-- Changes the watch lists. -/
@[inline] def onWatches (f : Watches → Watches) : SolverM Unit := modify fun s => { s with watches := f s.watches }

/-- Changes the trail. -/
@[inline] def onTrail (f : Trail → Trail) : SolverM Unit := modify fun s => { s with trail := f s.trail }

/-- Changes the counters. -/
@[inline] def onCounters (f : Counters → Counters) : SolverM Unit := modify fun s => { s with counters := f s.counters }

/-- Runs an operation of the clause store. -/
@[inline] def onClauses {α : Type} (f : ClauseStore → α × ClauseStore) : SolverM α := fun s =>
  let ⟨config, counters, atoms, watches, clauses, trail, status, random, resolution, interrupt⟩ := s
  let (a, clauses) := f clauses
  .ok a ⟨config, counters, atoms, watches, clauses, trail, status, random, resolution, interrupt⟩

/-- Draws a truth value that is true with the given probability. -/
def randomBool (p : Float) : SolverM Bool := do
  match (← get).random.bool p with
  | none => throw (.breach .invalidProbability)
  | some (b, random) =>
    modify fun s => { s with random }
    return b

/-- Adds a watch of a clause of two literals. -/
def watchBinary (l : Literal) (watch : BinaryWatch) : SolverM Unit := do
  require ((← get).watches.covers l)
  onWatches (·.addBinary l watch)

/-- Adds a watch of a longer clause. -/
def watchLong (l : Literal) (key : ClauseKey) : SolverM Unit := do
  require ((← get).watches.covers l)
  onWatches (·.addLong l key)

/-- Watches the first two literals of a clause, if it has two or more. -/
def watch (c : Clause) (key : ClauseKey) : SolverM Unit :=
  match c with
  | [k, l] => do
    watchBinary k ⟨l, key⟩
    watchBinary l ⟨k, key⟩
  | k :: l :: _ :: _ => do
    watchLong k key
    watchLong l key
  | _ => pure ()

/-- Stores a clause, whose first two literals become watched ones, and gives its key. -/
def store (c : Clause) (source : ClauseSource) : SolverM ClauseKey := do
  let key ← ofExcept .store (← onClauses (·.insert c source))
  watch c key
  return key

end Solver

end ClauseLearning
