import ClauseLearning.Solver.Formula
import ClauseLearning.Text.Blank
import ClauseLearning.Text.Integer

/-!
# Reading DIMACS formulas

A formula is read line by line. A line is told by its first character that is not blank: `c` begins a comment, `p` the
problem line, which comes before all literals and gives the counts of atoms and clauses, and `%` ends the formula. All
other lines hold integers, and each zero among them closes a clause, which may span lines. The clauses are added to the
solver as they are closed, where a clause with a literal and its negation is passed over; without a problem line, atoms
are added as they occur.
-/

namespace ClauseLearning

namespace Dimacs

/-- A line of text, none if its bytes encode no text. -/
abbrev Line := Option (List Char)

/-- The pieces of a list that a separator ends; after the last separator, a piece must not be empty. -/
def pieces {α : Type} [BEq α] (separator : α) (xs : List α) : List (List α) :=
  let parts := xs.splitOn separator
  match parts.getLast? with
  | some [] => parts.dropLast
  | _ => parts

/-- The lines of a text. -/
def linesOfText (text : String) : List Line := (pieces '\n' text.toList).map some

/-- The lines of an encoded text, each of which may fail to be text. -/
def linesOfBytes (bytes : ByteArray) : List Line :=
  (pieces 10 bytes.toList).map fun line => (String.fromUTF8? ⟨line.toArray⟩).map String.toList

/-- What a line is. -/
inductive LineKind
  | skipped
  | last
  | problem
  | integers
deriving DecidableEq, Repr

/-- What a line is, by its first character that is not blank. -/
def lineKind (line : List Char) : LineKind :=
  match line.find? (! Text.isBlank ·) with
  | none | some 'c' => .skipped
  | some '%' => .last
  | some 'p' => .problem
  | some _ => .integers

/-- The counts of a problem line. -/
structure Problem where
  /-- The declared number of atoms. -/
  atoms : Nat
  /-- The declared number of clauses. -/
  clauses : Nat
deriving DecidableEq, Repr

/-- The counts of a problem line, after which anything may follow. -/
def problem? (line : List Char) : Option Problem :=
  match Text.words line with
  | ['p'] :: ['c', 'n', 'f'] :: atoms :: clauses :: _ => do
    return ⟨← Text.unsigned64? atoms, ← Text.unsigned64? clauses⟩
  | _ => none

/-- The largest atom of a formula without a problem line. -/
def headerlessLimit : Nat := 16777216

/-- What has been read so far. -/
structure Progress where
  /-- The counts of the problem line. -/
  problem : Option Problem := none
  /-- The number of closed clauses. -/
  clauses : Nat := 0
  /-- The integers of the clause that is not closed. -/
  pending : Array Int := #[]

/-- What was read. -/
structure Summary where
  /-- The counts of the problem line. -/
  problem : Option Problem
  /-- The number of atoms of the solver. -/
  atoms : Nat
  /-- The number of clauses read. -/
  clauses : Nat
deriving DecidableEq, Repr

/-- Makes sure that the atom of an integer may be used: it must be a declared one, or is added. -/
def allow (problem : Option Problem) (i : Int) : SolverM Unit :=
  if (problem.elim headerlessLimit (·.atoms)) < i.natAbs then throw (.clause (.unknownAtom i))
  else if problem.isSome then pure ()
  else Solver.ensureAtoms i.natAbs

/-- Makes sure that the atoms of integers may be used, in order. -/
def allowAll (problem : Option Problem) : List Int → SolverM Unit
  | [] => pure ()
  | i :: ints => do
    allow problem i
    allowAll problem ints

/-- Adds the clause of integers, unless it holds a literal and its negation. -/
def closeClause (problem : Option Problem) (ints : List Int) : SolverM Unit := do
  allowAll problem ints
  tryCatch (discard (Solver.addClause (ints.map Literal.ofInt))) fun
    | .clause .tautology => pure ()
    | e => throw e

/-- Reads the integers of a line. -/
def readIntegers (number : Nat) : List (List Char) → Progress → SolverM Progress
  | [], p => pure p
  | word :: words, p => do
    match Text.signed32? word with
    | none => throw (.parse (.line number))
    | some 0 =>
      closeClause p.problem p.pending.toList
      readIntegers number words { p with clauses := p.clauses + 1, pending := #[] }
    | some i => readIntegers number words { p with pending := p.pending.push i }

/-- Reads the problem line. -/
def readProblem (number : Nat) (line : List Char) (p : Progress) : SolverM Progress := do
  if p.problem.isSome || 0 < p.clauses || !p.pending.isEmpty then throw (.parse (.misplacedProblem number))
  match problem? line with
  | none => throw (.parse .problemSpecification)
  | some problem =>
    Solver.ensureAtoms problem.atoms
    return { p with problem := some problem }

/-- Reads lines, `count` lines after the start of the text. -/
def readLines (count : Nat) : List Line → Progress → SolverM Progress
  | [], p => pure p
  | none :: _, _ => throw (.parse (.line count))
  | some line :: lines, p => do
    match lineKind line with
    | .skipped => readLines (count + 1) lines p
    | .last => return p
    | .problem => readLines (count + 1) lines (← readProblem (count + 1) line p)
    | .integers => readLines (count + 1) lines (← readIntegers (count + 1) (Text.words line) p)

/-- Reads a formula into the solver. -/
def read (lines : List Line) : SolverM Summary := do
  let p ← readLines 0 lines {}
  if !p.pending.isEmpty then throw (.clause .unterminated)
  return ⟨p.problem, (← get).atomCount, p.clauses⟩

/-- Reads a formula from text. -/
def readText (text : String) : SolverM Summary := read (linesOfText text)

/-- Reads a formula from encoded text. -/
def readBytes (bytes : ByteArray) : SolverM Summary := read (linesOfBytes bytes)

end Dimacs

end ClauseLearning
