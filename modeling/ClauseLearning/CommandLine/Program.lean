import ClauseLearning.CommandLine.Arguments
import ClauseLearning.Dimacs.Reader
import ClauseLearning.Solver.Search
import ClauseLearning.Text.Duration

/-!
# The program

The program reads a formula, solves it and writes what it found: lines of comments, the answer, and a model if one is
asked for. Its parts are pure functions, which give the lines to write and, where the program ends, an `Ending`; `run`
is the whole of it for a formula that is at hand.
-/

namespace ClauseLearning

namespace CommandLine

/-- How the program ends. -/
inductive Ending
  /-- With an exit code. -/
  | exit (code : Nat)
  /-- It is brought down by a breach. -/
  | breakdown
deriving DecidableEq, Repr

/-- The name and version of the program. -/
def versionLine : String := "marten_cli 0.1.0"

/-- What the program writes for arguments that it does not take, and its exit code. -/
def refuse : UsageError → List String × Ending
  | .displayHelp => ([], .exit 0)
  | .displayVersion => ([versionLine], .exit 0)
  | _ => ([], .exit 2)

/-- The line for a configuration that cannot be had. -/
def configurationLine (cause : ConfigError) : String := "c Configuration error: " ++ cause.describe

/-- The line before the formula is read, with its path as it is shown. -/
def readingLine (path : String) : String := "c Reading DIMACS file from " ++ path

/-- The line for a formula that cannot be opened. -/
def unopenedLine : String := "c Failed to open CNF file"

/-- The lines on a formula that has been read. -/
def summaryLines (summary : Dimacs.Summary) : List String :=
  match summary.problem with
  | none =>
    ["c No preamble was found.",
      s!"c Added    {summary.atoms} atoms.",
      s!"c Added    {summary.clauses} clauses."]
  | some problem =>
    [s!"c Expected {problem.atoms} atoms.",
      s!"c Added    {summary.atoms} atoms.",
      s!"c Expected {problem.clauses} clauses.",
      s!"c Added    {summary.clauses} clauses."]

/-- The line and the end for an error at a stage of the program. -/
def fail (stage : String) (code : Nat) : Error → List String × Ending
  | .breach _ => ([], .breakdown)
  | e => ([s!"c {stage} error: " ++ e.describe], .exit code)

/-- Reads a formula, with the lines to write and the solver to go on with. -/
def readFormula (lines : List Dimacs.Line) (s : Solver) : List String × Except Ending Solver :=
  match (Dimacs.read lines).run s with
  | .ok summary s => (summaryLines summary, .ok s)
  | .error e _ =>
    let (lines, ending) := fail "Parse" 1 e
    (lines, .error ending)

/-- The exit code for an answer. -/
def exitCode : Report → Nat
  | .satisfiable => 10
  | .unsatisfiable => 20
  | .unknown => 0

/-- What the program writes for an answer, and its exit code. -/
def conclude (model : Bool) (report : Report) (s : Solver) : List String × Ending :=
  let c := s.counters
  let counts := s!"c {c.conflicts} conflicts, {c.decisions} decisions, {c.propagations} propagations, " ++
    s!"{c.restarts} restarts, {c.reductions} reductions"
  let lines := [counts, "c Time: " ++ Text.duration c.time, s!"s {report}"]
  let models := if model ∧ report = .satisfiable then ["v " ++ s.atoms.valuation.text] else []
  (lines ++ models, .exit (exitCode report))

/-- Solves a formula that has been read. A search that runs out of rounds has no answer. -/
def solveFormula (model : Bool) (s : Solver) : List String × Ending :=
  match (Solver.solve (fun _ => 0) Solver.maxRounds).run s with
  | .ok report s => conclude model (report.getD .unknown) s
  | .error e _ => fail "Solve" 2 e

/-- The program for a formula that is read from lines, or cannot be opened, and a path as it is shown. -/
def run (args : List String) (path : String) (formula : Option (List Dimacs.Line)) : List String × Ending :=
  match Arguments.parse args with
  | .error e => refuse e
  | .ok (_, arguments) =>
    match arguments.config with
    | .error cause => ([configurationLine cause], .exit 1)
    | .ok config =>
      match formula with
      | none => ([readingLine path, unopenedLine], .exit 1)
      | some lines =>
        match readFormula lines (.ofConfig config) with
        | (written, .error ending) => (readingLine path :: written, ending)
        | (written, .ok s) =>
          let (more, ending) := solveFormula arguments.model s
          (readingLine path :: written ++ more, ending)

end CommandLine

end ClauseLearning
