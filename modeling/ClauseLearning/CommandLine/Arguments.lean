import ClauseLearning.Config
import ClauseLearning.Text.Decimal

/-!
# Command line arguments

The arguments are the path of a formula, switches, and fields, which are options with a value: `--name value` or
`--name=value`. A value that stands on its own is looked at only when the next argument is understood, or at the end, so
that an argument that is unknown is reported before a value that is wrong. Each switch and field is given at most once.
After `--` every argument is a path.
-/

namespace ClauseLearning

namespace CommandLine

/-- Why arguments are refused, or ask for something else than a solve. -/
inductive UsageError
  /-- A switch or field is given twice. -/
  | argumentConflict
  /-- Help is asked for. -/
  | displayHelp
  /-- The version is asked for. -/
  | displayVersion
  /-- A value is missing, empty or none of the named ones. -/
  | invalidValue
  /-- There is no path. -/
  | missingRequiredArgument
  /-- A switch is given a value. -/
  | tooManyValues
  /-- An argument is neither an option nor the one path. -/
  | unknownArgument
  /-- A value is not a number of the right kind. -/
  | valueValidation
deriving DecidableEq, Repr

/-- An option without a value. -/
inductive Switch
  | model
  | noRestarts
  | noPhaseSaving
  | help
  | version
deriving DecidableEq, Repr

/-- An argument with a value. -/
inductive Field
  | path
  | timeLimit
  | conflictLimit
  | restartPolicy
  | vsids
  | randomDecisionBias
  | polarityBias
deriving DecidableEq, Repr

/-- What an option stands for. -/
inductive Name
  | switch (switch : Switch)
  | field (field : Field)
deriving DecidableEq, Repr

/-- The option with a long name. -/
def longName? : String → Option Name
  | "model" | "valuation" => some (.switch .model)
  | "no-restarts" => some (.switch .noRestarts)
  | "no-phase-saving" => some (.switch .noPhaseSaving)
  | "help" => some (.switch .help)
  | "version" => some (.switch .version)
  | "time-limit" => some (.field .timeLimit)
  | "conflict-limit" => some (.field .conflictLimit)
  | "restart-policy" => some (.field .restartPolicy)
  | "vsids" => some (.field .vsids)
  | "random-decision-bias" => some (.field .randomDecisionBias)
  | "polarity-lean" => some (.field .polarityBias)
  | _ => none

/-- The arguments that are given. -/
structure Arguments where
  /-- The path of the formula. -/
  path : Option String := none
  /-- Whether a model is to be written. -/
  model : Bool := false
  /-- The time limit, in seconds. -/
  timeLimit : Option Nat := none
  /-- The limit on conflicts. -/
  conflictLimit : Option Nat := none
  /-- How restarts are scheduled. -/
  restartPolicy : Option RestartPolicy := none
  /-- Whether there are no restarts. -/
  noRestarts : Bool := false
  /-- Whether previous values are not used again. -/
  noPhaseSaving : Bool := false
  /-- Which atoms gain activity. -/
  vsids : Option Vsids := none
  /-- The probability of a random decision. -/
  randomDecisionBias : Option Float := none
  /-- The probability of the value true. -/
  polarityBias : Option Float := none
deriving Inhabited

namespace Arguments

/-! ## Values -/

/-- A value that is given for the first time. -/
def once {α : Type} (given : Option α) (error : UsageError) (value : Option α) : Except UsageError (Option α) :=
  if given.isSome then .error .argumentConflict
  else match value with
    | some value => .ok (some value)
    | none => .error error

/-- The restart policy of a name. -/
def policy? : String → Option RestartPolicy
  | "geometric" => some .geometric
  | "luby" => some .luby
  | _ => none

/-- The choice of atoms of a name. -/
def vsids? : String → Option Vsids
  | "chaff" => some .chaff
  | "minisat" => some .miniSat
  | _ => none

/-- The count of conflicts that a text stands for. -/
def count? (text : List Char) : Option Nat :=
  (Text.signed64? text).bind fun i => if 0 ≤ i ∧ i ≤ maxCount then some i.toNat else none

/-- The arguments with a value for a field. -/
def setField (a : Arguments) (field : Field) (value : String) : Except UsageError Arguments :=
  let text := value.toList
  match field with
  | .path => return { a with path := ← once a.path .invalidValue (if text = [] then none else some value) }
  | .timeLimit => return { a with timeLimit := ← once a.timeLimit .valueValidation (Text.unsigned64? text) }
  | .conflictLimit => return { a with conflictLimit := ← once a.conflictLimit .valueValidation (count? text) }
  | .restartPolicy => return { a with restartPolicy := ← once a.restartPolicy .invalidValue (policy? value) }
  | .vsids => return { a with vsids := ← once a.vsids .invalidValue (vsids? value) }
  | .randomDecisionBias =>
    return { a with randomDecisionBias := ← once a.randomDecisionBias .valueValidation (Text.float? text) }
  | .polarityBias => return { a with polarityBias := ← once a.polarityBias .valueValidation (Text.float? text) }

/-- The arguments with a switch. -/
def setSwitch (a : Arguments) : Switch → Except UsageError Arguments
  | .model => if a.model then .error .argumentConflict else .ok { a with model := true }
  | .noRestarts => if a.noRestarts then .error .argumentConflict else .ok { a with noRestarts := true }
  | .noPhaseSaving => if a.noPhaseSaving then .error .argumentConflict else .ok { a with noPhaseSaving := true }
  | .help => .error .displayHelp
  | .version => .error .displayVersion

/-! ## Reading -/

/-- The arguments understood so far, with a field whose value is still to come or to be looked at. -/
structure Reader where
  /-- The arguments. -/
  given : Arguments := {}
  /-- The field, and its value if it has come. -/
  pending : Option (Field × Option String) := none
  /-- Whether a path has come. -/
  hasPath : Bool := false

namespace Reader

/-- The reader after a look at the value of the field that waits for it. -/
def settle (r : Reader) : Except UsageError Reader :=
  match r.pending with
  | none => .ok r
  | some (_, none) => .error .invalidValue
  | some (field, some value) => return { r with given := ← r.given.setField field value, pending := none }

/-- Reads a switch. -/
def readSwitch (r : Reader) (switch : Switch) : Except UsageError Reader := do
  let r ← r.settle
  return { r with given := ← r.given.setSwitch switch }

/-- Reads an option with a long name, and its value if it is attached. -/
def readLong (r : Reader) (name : List Char) (value : Option (List Char)) : Except UsageError Reader :=
  match longName? (String.ofList name), value with
  | none, _ => .error .unknownArgument
  | some (.switch switch), none => r.readSwitch switch
  | some (.switch _), some _ => .error .tooManyValues
  | some (.field field), none => return { ← r.settle with pending := some (field, none) }
  | some (.field field), some value => do
    let r ← r.settle
    return { r with given := ← r.given.setField field (String.ofList value) }

/-- Reads a short option, the first of a cluster: each of them ends the reading. -/
def readShort (r : Reader) : Char → Except UsageError Reader
  | 'h' => r.readSwitch .help
  | 'V' => r.readSwitch .version
  | _ => .error .unknownArgument

/-- Reads an argument that is a path. -/
def readPath (r : Reader) (value : String) : Except UsageError Reader :=
  if r.hasPath then .error .unknownArgument
  else return { ← r.settle with pending := some (.path, some value), hasPath := true }

/-- Reads an argument that is a value or a path. -/
def readValue (r : Reader) (value : String) : Except UsageError Reader :=
  match r.pending with
  | some (field, none) => .ok { r with pending := some (field, some value) }
  | _ => r.readPath value

/-- Reads arguments that are all paths. -/
def readPaths (r : Reader) (args : List String) : Except UsageError Reader := args.foldlM readPath r

/-- Reads arguments. -/
def readAll (r : Reader) : List String → Except UsageError Reader
  | [] => .ok r
  | arg :: args => do
    match arg.toList with
    | ['-', '-'] => r.readPaths args
    | '-' :: '-' :: option =>
      let name := option.takeWhile (· != '=')
      let value := match option.drop name.length with
        | [] => none
        | _ :: value => some value
      (← r.readLong name value).readAll args
    | '-' :: c :: _ => (← r.readShort c).readAll args
    | _ => (← r.readValue arg).readAll args

end Reader

/-- The arguments that a list of words stands for, with the path. -/
def parse (args : List String) : Except UsageError (String × Arguments) := do
  let r ← (← Reader.readAll {} args).settle
  match r.given.path with
  | some path => return (path, r.given)
  | none => .error .missingRequiredArgument

/-! ## Configuration -/

/-- The parameters that the arguments change, in the order in which they are set. -/
def changes (a : Arguments) : List Change :=
  [a.timeLimit.map fun seconds => .timeLimit (seconds * 1000000000),
    a.conflictLimit.map .conflictLimit,
    a.restartPolicy.map .restartPolicy,
    if a.noRestarts then some (.restarts false) else none,
    if a.noPhaseSaving then some (.phaseSaving false) else none,
    a.vsids.map .vsids,
    a.randomDecisionBias.map .randomDecisionBias,
    a.polarityBias.map .polarityBias].filterMap id

/-- The configuration that the arguments ask for. -/
def config (a : Arguments) : Except ConfigError Config := Config.setAll {} a.changes

end Arguments

end CommandLine

end ClauseLearning
