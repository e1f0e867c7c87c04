/-!
# Errors

The causes for which an operation of the solver stops, grouped by the part that finds them. `Error.path` spells a cause
as a path from the group to the cause, `Error.payload` gives what the cause carries, and `Error.describe` is the text of
both. A `Breach` is no error of the solver but of its caller: an index outside of its table, or a number that is no
probability.
-/

namespace ClauseLearning

/-- Causes during the analysis of a conflict. -/
inductive AnalysisError
  /-- Resolution gave the empty clause. -/
  | emptyResolution
  /-- The resolved clause does not assert its first literal. -/
  | noAssertion
  /-- No decision is open. -/
  | noDecision
deriving DecidableEq, Repr

/-- Causes when an atom is given a value. -/
inductive AssignmentError
  /-- The atom has the other value. -/
  | conflictingAssignment
  /-- The atom is not part of the formula. -/
  | unknownAtom
deriving DecidableEq, Repr

/-- Causes during propagation, apart from a conflict, which is a result. -/
inductive PropagationError
  /-- A clause stands in the watch list of a literal that it does not watch. -/
  | corruptWatch
  /-- A consequence cannot be assigned. -/
  | assignment (cause : AssignmentError)
deriving DecidableEq, Repr

/-- Causes in the clause store. -/
inductive StoreError
  /-- No clause has the key. -/
  | missing
  /-- The slot of the key holds a clause with another token. -/
  | invalidKeyToken
  /-- The empty clause cannot be stored. -/
  | emptyClause
  /-- No key is left. -/
  | storageExhausted
  /-- A decision is open. -/
  | decisionMade
deriving DecidableEq, Repr

/-- Causes when a parameter is set. -/
inductive ConfigError
  /-- The value lies outside of the bounds of the named parameter. -/
  | outOfBounds (name : String)
deriving DecidableEq, Repr

/-- Causes for which a clause is refused. -/
inductive ClauseError
  /-- The atom of the literal is not part of the formula. -/
  | unknownAtom (literal : Int)
  /-- The clause holds a literal and its negation. -/
  | tautology
  /-- The text ends within a clause. -/
  | unterminated
  /-- Zero is no literal. -/
  | zero
deriving DecidableEq, Repr

/-- Causes for which a text is refused. -/
inductive ParseError
  /-- The problem line does not give two counts. -/
  | problemSpecification
  /-- The line cannot be read. -/
  | line (number : Nat)
  /-- The problem line does not stand at the start. -/
  | misplacedProblem (number : Nat)
deriving DecidableEq, Repr

/-- Causes during resolution. -/
inductive ResolutionError
  /-- A clause is not stored. -/
  | lostClause
  /-- A literal of the current level has no antecedent. -/
  | missingAntecedent
  /-- The trail ends before a single literal of the current level is left. -/
  | exhaustedTrail
  /-- A literal has no value. -/
  | unvaluedLiteral
deriving DecidableEq, Repr

/-- Ways for a caller to break what an operation relies on. -/
inductive Breach
  /-- An index lies outside of its table. -/
  | outOfRange
  /-- A number is not a probability. -/
  | invalidProbability
deriving DecidableEq, Repr

/-- All causes for which an operation of the solver stops. -/
inductive Error
  | analysis (cause : AnalysisError)
  | assignment (cause : AssignmentError)
  /-- The largest atom is in use. -/
  | atomsExhausted
  | propagation (cause : PropagationError)
  | store (cause : StoreError)
  | config (cause : ConfigError)
  | clause (cause : ClauseError)
  | parse (cause : ParseError)
  | resolution (cause : ResolutionError)
  /-- A clause with a literal without a value has no backjump level. -/
  | backjump
  /-- The state of the solver does not allow the operation. -/
  | invalidState
  | breach (cause : Breach)
deriving DecidableEq, Repr

/-- The word for the cause. -/
def AnalysisError.word : AnalysisError → String
  | .emptyResolution => "EmptyResolution"
  | .noAssertion => "NoAssertion"
  | .noDecision => "NoDecision"

/-- The word for the cause. -/
def AssignmentError.word : AssignmentError → String
  | .conflictingAssignment => "ConflictingAssignment"
  | .unknownAtom => "UnknownAtom"

/-- The words for the cause, the general one first. -/
def PropagationError.path : PropagationError → List String
  | .corruptWatch => ["CorruptWatch"]
  | .assignment cause => ["Assignment", cause.word]

/-- The word for the cause. -/
def StoreError.word : StoreError → String
  | .missing => "Missing"
  | .invalidKeyToken => "InvalidKeyToken"
  | .emptyClause => "EmptyClause"
  | .storageExhausted => "StorageExhausted"
  | .decisionMade => "DecisionMade"

/-- The word for the cause. -/
def ConfigError.word : ConfigError → String
  | .outOfBounds _ => "OutOfBounds"

/-- The text of the cause, with the name in quotes. -/
def ConfigError.describe : ConfigError → String
  | .outOfBounds name => "OutOfBounds(\"" ++ name ++ "\")"

/-- The word for the cause. -/
def ClauseError.word : ClauseError → String
  | .unknownAtom _ => "UnknownAtom"
  | .tautology => "Tautology"
  | .unterminated => "Unterminated"
  | .zero => "Zero"

/-- The word for the cause. -/
def ParseError.word : ParseError → String
  | .problemSpecification => "ProblemSpecification"
  | .line _ => "Line"
  | .misplacedProblem _ => "MisplacedProblem"

/-- The word for the cause. -/
def ResolutionError.word : ResolutionError → String
  | .lostClause => "LostClause"
  | .missingAntecedent => "MissingAntecedent"
  | .exhaustedTrail => "ExhaustedTrail"
  | .unvaluedLiteral => "UnvaluedLiteral"

namespace Error

/-- The words for the cause, the general one first; none for a breach. -/
def path : Error → List String
  | analysis cause => ["Analysis", cause.word]
  | assignment cause => ["Assignment", cause.word]
  | atomsExhausted => ["AtomDB", "AtomsExhausted"]
  | propagation cause => "BCP" :: cause.path
  | store cause => ["ClauseDB", cause.word]
  | config cause => ["Config", cause.word]
  | clause cause => ["MalformedClause", cause.word]
  | parse cause => ["Parse", cause.word]
  | resolution cause => ["ResolutionBuffer", cause.word]
  | backjump => ["Backjump"]
  | invalidState => ["InvalidState"]
  | breach _ => []

/-- What the cause carries: the name of a parameter, a literal or the number of a line. -/
def payload : Error → Option String
  | config (.outOfBounds name) => some name
  | clause (.unknownAtom literal) => some (toString literal)
  | parse (.line number) => some (toString number)
  | parse (.misplacedProblem number) => some (toString number)
  | _ => none

/-- Words as nested calls around an optional argument, such as `Parse(Line(3))`. -/
def nest : List String → Option String → String
  | [], argument => argument.getD ""
  | [word], none => word
  | word :: words, argument => word ++ "(" ++ nest words argument ++ ")"

/-- The text of a cause. -/
def describe : Error → String
  | config cause => nest ["Config"] (some cause.describe)
  | e => nest e.path e.payload

end Error

end ClauseLearning
