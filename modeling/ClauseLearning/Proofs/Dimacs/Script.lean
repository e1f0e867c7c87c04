import ClauseLearning.Dimacs.Reader

/-!
# Reading as a script

What a text asks of the solver does not depend on the solver. `script` lists the actions that a text comes to, and
reading the text is performing them, in order, up to the first that fails (`read_eq`).
-/

namespace ClauseLearning

namespace Dimacs

/-- What a reader asks of the solver. -/
inductive Action
  /-- Adds atoms up to the given count. -/
  | ensureAtoms (count : Nat)
  /-- Adds a clause, and passes over it if it holds a literal and its negation. -/
  | addClause (c : Clause)
  /-- Stops with an error. -/
  | fail (e : Error)

/-- Performs an action. -/
def Action.perform : Action → SolverM Unit
  | .ensureAtoms count => Solver.ensureAtoms count
  | .addClause c => tryCatch (discard (Solver.addClause c)) fun
      | .clause .tautology => pure ()
      | e => throw e
  | .fail e => throw e

/-- Performs actions up to the first that fails. -/
def performAll : List Action → SolverM Unit
  | [] => pure ()
  | action :: actions => do
    action.perform
    performAll actions

theorem performAll_append (actions more : List Action) :
    performAll (actions ++ more) = (do performAll actions; performAll more) := by
  induction actions with
  | nil => simp [performAll]
  | cons action actions ih => simp [performAll, ih]

/-! ## The actions of a text -/

/-- The actions that make sure that the atom of an integer may be used. -/
def allowActions (problem : Option Problem) (i : Int) : List Action :=
  if (problem.elim headerlessLimit (·.atoms)) < i.natAbs then [.fail (.clause (.unknownAtom i))]
  else if problem.isSome then []
  else [.ensureAtoms i.natAbs]

/-- The actions that close the clause of integers. -/
def closeActions (problem : Option Problem) (ints : List Int) : List Action :=
  ints.flatMap (allowActions problem) ++ [.addClause (ints.map Literal.ofInt)]

/-- The actions of the integers of a line, and what has been read after them. -/
def integerActions (number : Nat) : List (List Char) → Progress → List Action × Progress
  | [], p => ([], p)
  | word :: words, p =>
    match Text.signed32? word with
    | none => ([.fail (.parse (.line number))], p)
    | some 0 =>
      let rest := integerActions number words { p with clauses := p.clauses + 1, pending := #[] }
      (closeActions p.problem p.pending.toList ++ rest.1, rest.2)
    | some i => integerActions number words { p with pending := p.pending.push i }

/-- The actions of a problem line, and what has been read after it. -/
def problemActions (number : Nat) (line : List Char) (p : Progress) : List Action × Progress :=
  if p.problem.isSome || 0 < p.clauses || !p.pending.isEmpty then ([.fail (.parse (.misplacedProblem number))], p)
  else
    match problem? line with
    | none => ([.fail (.parse .problemSpecification)], p)
    | some problem => ([.ensureAtoms problem.atoms], { p with problem := some problem })

/-- The actions of lines, and what has been read after them. -/
def lineActions (count : Nat) : List Line → Progress → List Action × Progress
  | [], p => ([], p)
  | none :: _, p => ([.fail (.parse (.line count))], p)
  | some line :: lines, p =>
    match lineKind line with
    | .skipped => lineActions (count + 1) lines p
    | .last => ([], p)
    | .problem =>
      let first := problemActions (count + 1) line p
      let rest := lineActions (count + 1) lines first.2
      (first.1 ++ rest.1, rest.2)
    | .integers =>
      let first := integerActions (count + 1) (Text.words line) p
      let rest := lineActions (count + 1) lines first.2
      (first.1 ++ rest.1, rest.2)

/-- The actions of a text, and what has been read after them. -/
def script (lines : List Line) : List Action × Progress :=
  let (actions, p) := lineActions 0 lines {}
  (actions ++ if p.pending.isEmpty then [] else [.fail (.clause .unterminated)], p)

/-! ## Reading is performing the script -/

theorem allow_eq (problem : Option Problem) (i : Int) : allow problem i = performAll (allowActions problem i) := by
  unfold allow allowActions
  split
  · rfl
  · split
    · rfl
    · simp [performAll, Action.perform]

theorem allowAll_eq (problem : Option Problem) (ints : List Int) :
    allowAll problem ints = performAll (ints.flatMap (allowActions problem)) := by
  induction ints with
  | nil => rfl
  | cons i ints ih => rw [allowAll, List.flatMap_cons, performAll_append, allow_eq, ih]

theorem closeClause_eq (problem : Option Problem) (ints : List Int) :
    closeClause problem ints = performAll (closeActions problem ints) := by
  have hlast : performAll [.addClause (ints.map Literal.ofInt)] =
      Action.perform (.addClause (ints.map Literal.ofInt)) := by simp [performAll]
  rw [closeActions, performAll_append, hlast, ← allowAll_eq]
  rfl

theorem readIntegers_eq (number : Nat) (words : List (List Char)) (p : Progress) :
    readIntegers number words p = do
      performAll (integerActions number words p).1
      return (integerActions number words p).2 := by
  induction words generalizing p with
  | nil => simp [readIntegers, integerActions, performAll]
  | cons word words ih =>
    rw [readIntegers, integerActions]
    generalize Text.signed32? word = i
    split
    · rfl
    · simp [performAll_append, closeClause_eq, ih]
    · simp only [ih]

theorem readProblem_eq (number : Nat) (line : List Char) (p : Progress) :
    readProblem number line p = do
      performAll (problemActions number line p).1
      return (problemActions number line p).2 := by
  unfold readProblem problemActions
  by_cases hp : (p.problem.isSome || decide (0 < p.clauses) || !p.pending.isEmpty) = true
  · simp only [if_pos hp]
    rfl
  · simp only [if_neg hp]
    cases problem? line with
    | none => rfl
    | some problem => simp [performAll, Action.perform]

theorem readLines_eq (count : Nat) (lines : List Line) (p : Progress) :
    readLines count lines p = do
      performAll (lineActions count lines p).1
      return (lineActions count lines p).2 := by
  induction lines generalizing count p with
  | nil => simp [readLines, lineActions, performAll]
  | cons line lines ih =>
    cases line with
    | none => rfl
    | some line =>
      rw [readLines, lineActions]
      cases lineKind line with
      | skipped => simp only [ih]
      | last => simp [performAll]
      | problem => simp [readProblem_eq, ih, performAll_append]
      | integers => simp [readIntegers_eq, ih, performAll_append]

/-- To read a text is to perform its script. -/
theorem read_eq (lines : List Line) :
    read lines = do
      performAll (script lines).1
      return ⟨(script lines).2.problem, (← get).atomCount, (script lines).2.clauses⟩ := by
  rw [read, readLines_eq, script]
  simp only [performAll_append, bind_assoc, pure_bind]
  cases (lineActions 0 lines {}).2.pending.isEmpty with
  | true => simp [performAll]
  | false => simp [performAll, Action.perform]

end Dimacs

end ClauseLearning
