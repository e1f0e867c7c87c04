import ClauseLearning.Proofs.Dimacs.Script
import ClauseLearning.Proofs.Outcome
import ClauseLearning.Solver.Search

/-!
# Histories

A caller builds a formula and asks for its solution by a list of calls (`Call`). `replay` makes the calls on a new
solver, one after the other, whether or not they fail, and keeps a log of the clauses that were given with what became
of each (`Log`), those of a text that is read among them, and of the verdicts. A solve that is given few rounds stops
between two of them, as a solve that is not finished; `Stage` tells how far into the next round it may have come.
-/

namespace ClauseLearning

/-- The clauses that were given, in order, each with the answer to it. -/
abbrev Log := List (Clause × Except Error Addition)

namespace Log

/-- The clauses that were accepted, as they were given. -/
def accepted (log : Log) : List Clause := log.filterMap fun
  | (c, .ok _) => some c
  | (_, .error _) => none

/-- The clauses that were refused as they hold a literal and its negation. -/
def tautologies (log : Log) : List Clause := log.filterMap fun
  | (c, .error (.clause .tautology)) => some c
  | _ => none

variable (log log' : Log) (c : Clause)

@[simp] theorem accepted_append : (log ++ log').accepted = log.accepted ++ log'.accepted := List.filterMap_append

@[simp] theorem tautologies_append : (log ++ log').tautologies = log.tautologies ++ log'.tautologies :=
  List.filterMap_append

end Log

/-- The log of an action of a reader. -/
def Dimacs.Action.log (action : Action) (s : Solver) : Log :=
  match action with
  | .addClause c => [(c, Solver.answer (Solver.addClause c) s)]
  | .ensureAtoms _ | .fail _ => []

/-- The log of actions, which are performed up to the first that fails. -/
def Dimacs.logAll : List Action → Solver → Log
  | [], _ => []
  | action :: actions, s =>
    action.log s ++ match action.perform s with
      | .ok _ t => logAll actions t
      | .error _ _ => []

/-- A call of the caller. -/
inductive Call
  /-- Adds an atom. -/
  | freshAtom
  /-- Adds atoms up to a count. -/
  | ensureAtoms (count : Nat)
  /-- Adds a clause. -/
  | addClause (c : Clause)
  /-- Reads a text. -/
  | readDimacs (lines : List Dimacs.Line)
  /-- Makes the solver ask whether to stop, or not to ask. -/
  | askToStop (interrupt : Option Interrupt)
  /-- Replaces the source of random choices, which may come out in any way. -/
  | reseed (random : Generator)
  /-- Solves in at most so many rounds, with the time that a clock shows at each. -/
  | solve (clock : Nat → Nat) (rounds : Nat)

/-- Whether a call may add to the formula. -/
def Call.builds : Call → Bool
  | .freshAtom | .ensureAtoms _ | .addClause _ | .readDimacs _ => true
  | .askToStop _ | .reseed _ | .solve _ _ => false

/-- A solver in use. -/
structure Session where
  /-- The solver. -/
  solver : Solver
  /-- The clauses that were given so far. -/
  log : Log := []
  /-- What the solves so far came to. -/
  verdicts : List (Except Error (Option Report)) := []

namespace Session

/-- A new solver. -/
def ofConfig (config : Config) : Session := { solver := .ofConfig config }

/-- The session after a call. -/
def make (m : Session) : Call → Session
  | .freshAtom => { m with solver := Solver.after Solver.freshAtom m.solver }
  | .ensureAtoms count => { m with solver := Solver.after (Solver.ensureAtoms count) m.solver }
  | .addClause c => { m with
      solver := Solver.after (Solver.addClause c) m.solver
      log := m.log ++ [(c, Solver.answer (Solver.addClause c) m.solver)] }
  | .readDimacs lines => { m with
      solver := Solver.after (Dimacs.read lines) m.solver
      log := m.log ++ Dimacs.logAll (Dimacs.script lines).1 m.solver }
  | .askToStop interrupt => { m with solver := { m.solver with interrupt } }
  | .reseed random => { m with solver := { m.solver with random } }
  | .solve clock rounds => { m with
      solver := Solver.after (Solver.solve clock rounds) m.solver
      verdicts := m.verdicts ++ [Solver.answer (Solver.solve clock rounds) m.solver] }

/-- The session after calls. -/
def makeAll (m : Session) (calls : List Call) : Session := calls.foldl make m

end Session

/-- A new solver after calls. -/
def replay (config : Config) (calls : List Call) : Session := (Session.ofConfig config).makeAll calls

/-- The call adds neither an atom nor a clause. -/
def Session.AddsNothing (m : Session) (call : Call) : Prop :=
  (m.make call).solver.atomCount = m.solver.atomCount ∧ (m.make call).log.accepted = m.log.accepted

/-- Nothing is added after the formula was found to be satisfiable. -/
def Settles : Session → List Call → Prop
  | _, [] => True
  | m, call :: calls => (.ok (some .satisfiable) ∈ m.verdicts → m.AddsNothing call) ∧ Settles (m.make call) calls

/-- How far a round has come. -/
inductive Stage
  /-- The round has not begun. -/
  | between
  /-- So many literals have been propagated, or a clause became false before. -/
  | propagated (count : Nat)
  /-- Propagation is over, and a clause was learned if one was false. -/
  | concluded
  /-- Nothing was left to propagate, and a restart and a reduction were made if they were due, at the given time. -/
  | scheduled (time : Nat)

/-- The part of a round up to a stage. -/
def Stage.run : Stage → SolverM Unit
  | .between => pure ()
  | .propagated count => do
    Solver.onCounters fun c => { c with iterations := c.iterations + 1 }
    discard (Solver.propagateMany count)
  | .concluded => do
    Solver.onCounters fun c => { c with iterations := c.iterations + 1 }
    discard Solver.consequences
  | .scheduled time => do
    Solver.onCounters fun c => { c with iterations := c.iterations + 1 }
    if (← Solver.consequences) = .exhausted then
      Solver.onCounters fun c => { c with time }
      if ← Solver.terminationDue then
        Solver.backjump 0
      else
        if (← get).restartDue then Solver.restart
        if (← get).reductionDue then Solver.reduce

end ClauseLearning
