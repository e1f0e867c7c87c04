import ClauseLearning.CommandLine.Program
import ClauseLearning.Text.Quoted

/-!
# The command line

Reads the formula, keeps the time of the search and writes the lines of the program.
-/

namespace ClauseLearning

namespace CommandLine

/-- Writes lines and ends with the exit code. -/
def finishProgram : List String × Ending → IO UInt32
  | (lines, ending) => do
    for line in lines do IO.println line
    match ending with
    | .exit code => return code.toUInt32
    | .breakdown => return 101

/-- Searches round by round, with the time since the start. -/
partial def searchTimed (start : Nat) (model : Bool) (s : Solver) : IO UInt32 := do
  let now ← IO.monoNanosNow
  match (Solver.step (now - start)).run s with
  | .ok none s => searchTimed start model s
  | .ok (some report) s => finishProgram (conclude model report s)
  | .error e _ => finishProgram (fail "Solve" 2 e)

/-- Solves a formula that has been read. -/
def solveTimed (model : Bool) (s : Solver) : IO UInt32 := do
  match Solver.start.run s with
  | .ok none s => searchTimed (← IO.monoNanosNow) model s
  | .ok (some report) s => finishProgram (conclude model report s)
  | .error e _ => finishProgram (fail "Solve" 2 e)

/-- Reads a file, if it can be read. -/
def readFile (path : String) : IO (Option ByteArray) := do
  try
    return some (← IO.FS.readBinFile path)
  catch _ =>
    return none

end CommandLine

end ClauseLearning

open ClauseLearning CommandLine

/-- Determines whether the formula of a file is satisfiable. -/
def main (args : List String) : IO UInt32 := do
  match Arguments.parse args with
  | .error e => finishProgram (refuse e)
  | .ok (path, arguments) =>
    match arguments.config with
    | .error cause => finishProgram ([configurationLine cause], .exit 1)
    | .ok config =>
      IO.println (readingLine (Text.quoted path))
      match ← readFile path with
      | none => finishProgram ([unopenedLine], .exit 1)
      | some bytes =>
        match readFormula (Dimacs.linesOfBytes bytes) (.ofConfig config) with
        | (written, .error ending) => finishProgram (written, ending)
        | (written, .ok s) =>
          for line in written do IO.println line
          solveTimed arguments.model s
