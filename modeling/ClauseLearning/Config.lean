import ClauseLearning.Error

/-!
# Configuration

A `Parameter` is a named value with bounds: `Parameter.set` refuses a value below the least or above the greatest one.
A `Config` holds the parameters of a solver, and a `Change` is a new value for one of them.
-/

namespace ClauseLearning

/-- A named value with bounds. -/
structure Parameter (α : Type) where
  /-- The name by which an error refers to the parameter. -/
  name : String
  /-- The least value. -/
  least : α
  /-- The greatest value. -/
  greatest : α
  /-- The value. -/
  value : α

namespace Parameter

variable {α : Type}

/-- The parameter with a new value, which must be neither below the least nor above the greatest value. -/
def set [LT α] [DecidableLT α] (p : Parameter α) (value : α) : Except ConfigError (Parameter α) :=
  if value < p.least ∨ p.greatest < value then .error (.outOfBounds p.name) else .ok { p with value }

/-- The parameter with a new value, whatever its bounds. -/
def force (p : Parameter α) (value : α) : Parameter α := { p with value }

end Parameter

/-- How the number of conflicts between restarts is determined. -/
inductive RestartPolicy
  /-- Each interval is a multiple of the last. -/
  | geometric
  /-- The intervals follow the Luby sequence. -/
  | luby
deriving DecidableEq, Ord, Repr

instance : LT RestartPolicy := ltOfOrd

instance : DecidableLT RestartPolicy := inferInstanceAs (DecidableRel fun a b => compare a b = .lt)

instance : ToString RestartPolicy where
  toString
    | .geometric => "geometric"
    | .luby => "luby"

/-- Which atoms gain activity from a conflict. -/
inductive Vsids
  /-- The atoms of the derived clause. -/
  | chaff
  /-- The atoms of all clauses used to derive it. -/
  | miniSat
deriving DecidableEq, Ord, Repr

instance : LT Vsids := ltOfOrd

instance : DecidableLT Vsids := inferInstanceAs (DecidableRel fun a b => compare a b = .lt)

instance : ToString Vsids where
  toString
    | .chaff => "Chaff"
    | .miniSat => "MiniSAT"

/-- The greatest count of conflicts. -/
def maxCount : Nat := 4294967295

/-- The greatest time span, in nanoseconds. -/
def maxTime : Nat := 18446744073709551615 * 1000000000 + 999999999

/-- The greatest finite floating-point number. -/
def maxFloat : Float := 1.7976931348623157e308

/-- The parameters of a solver. -/
structure Config where
  /-- What an atom gains in activity when it is bumped next. -/
  atomBump : Parameter Float := ⟨"atom_bump", 0, 1e100, 1⟩
  /-- What the activity of atoms loses at each conflict. -/
  atomDecay : Parameter Float := ⟨"atom_decay", 0, 0.5, 0.05⟩
  /-- What a clause gains in activity when it is bumped next. -/
  clauseBump : Parameter Float := ⟨"clause_bump", 0, 1e20, 1⟩
  /-- What the activity of clauses loses at each conflict. -/
  clauseDecay : Parameter Float := ⟨"clause_decay", 0, 0.5, 1e-3⟩
  /-- The count of conflicts at which a solve stops, or zero. -/
  conflictLimit : Parameter Nat := ⟨"conflict_limit", 0, maxCount, 0⟩
  /-- The number of conflicts that an element of the Luby sequence stands for. -/
  lubyUnit : Parameter Nat := ⟨"luby", 1, maxCount, 100⟩
  /-- Whether a decision gives an atom its previous value. -/
  phaseSaving : Parameter Bool := ⟨"phase_saving", false, true, true⟩
  /-- The probability of the value true where no previous value is used. -/
  polarityBias : Parameter Float := ⟨"polarity_lean", 0, 1, 0⟩
  /-- The probability that a decision is on a random atom. -/
  randomDecisionBias : Parameter Float := ⟨"random_decision_bias", 0, 1, 0⟩
  /-- The count of conflicts before the first reduction. -/
  reductionFirst : Parameter Nat := ⟨"reduction_first", 1, maxCount, 2000⟩
  /-- What the interval between reductions gains at each reduction. -/
  reductionIncrement : Parameter Nat := ⟨"reduction_increment", 0, maxCount, 300⟩
  /-- The part of the unlocked long learned clauses that a reduction removes. -/
  reductionFraction : Parameter Float := ⟨"reduction_fraction", 0, 1, 0.5⟩
  /-- Whether there are restarts. -/
  restarts : Parameter Bool := ⟨"restart", false, true, true⟩
  /-- The count of conflicts before the first restart of the geometric policy. -/
  restartFirst : Parameter Nat := ⟨"restart_first", 1, maxCount, 100⟩
  /-- The factor between intervals of the geometric policy. -/
  restartMultiplier : Parameter Float := ⟨"restart_multiplier", 1, maxFloat, 1.5⟩
  /-- How restarts are scheduled. -/
  restartPolicy : Parameter RestartPolicy := ⟨"restart_policy", .geometric, .luby, .geometric⟩
  /-- The time after which a solve stops, in nanoseconds, or zero. -/
  timeLimit : Parameter Nat := ⟨"time_limit", 0, maxTime, 0⟩
  /-- Which atoms gain activity from a conflict. -/
  vsids : Parameter Vsids := ⟨"vsids", .chaff, .miniSat, .miniSat⟩

instance : Inhabited Config := ⟨{}⟩

/-- A new value for a parameter. -/
inductive Change
  | atomBump (value : Float)
  | atomDecay (value : Float)
  | clauseBump (value : Float)
  | clauseDecay (value : Float)
  | conflictLimit (value : Nat)
  | lubyUnit (value : Nat)
  | phaseSaving (value : Bool)
  | polarityBias (value : Float)
  | randomDecisionBias (value : Float)
  | reductionFirst (value : Nat)
  | reductionIncrement (value : Nat)
  | reductionFraction (value : Float)
  | restarts (value : Bool)
  | restartFirst (value : Nat)
  | restartMultiplier (value : Float)
  | restartPolicy (value : RestartPolicy)
  | timeLimit (value : Nat)
  | vsids (value : Vsids)

namespace Config

/-- The configuration with a change made, if the value is within the bounds of its parameter. -/
def set (c : Config) : Change → Except ConfigError Config
  | .atomBump v => return { c with atomBump := ← c.atomBump.set v }
  | .atomDecay v => return { c with atomDecay := ← c.atomDecay.set v }
  | .clauseBump v => return { c with clauseBump := ← c.clauseBump.set v }
  | .clauseDecay v => return { c with clauseDecay := ← c.clauseDecay.set v }
  | .conflictLimit v => return { c with conflictLimit := ← c.conflictLimit.set v }
  | .lubyUnit v => return { c with lubyUnit := ← c.lubyUnit.set v }
  | .phaseSaving v => return { c with phaseSaving := ← c.phaseSaving.set v }
  | .polarityBias v => return { c with polarityBias := ← c.polarityBias.set v }
  | .randomDecisionBias v => return { c with randomDecisionBias := ← c.randomDecisionBias.set v }
  | .reductionFirst v => return { c with reductionFirst := ← c.reductionFirst.set v }
  | .reductionIncrement v => return { c with reductionIncrement := ← c.reductionIncrement.set v }
  | .reductionFraction v => return { c with reductionFraction := ← c.reductionFraction.set v }
  | .restarts v => return { c with restarts := ← c.restarts.set v }
  | .restartFirst v => return { c with restartFirst := ← c.restartFirst.set v }
  | .restartMultiplier v => return { c with restartMultiplier := ← c.restartMultiplier.set v }
  | .restartPolicy v => return { c with restartPolicy := ← c.restartPolicy.set v }
  | .timeLimit v => return { c with timeLimit := ← c.timeLimit.set v }
  | .vsids v => return { c with vsids := ← c.vsids.set v }

/-- The configuration with a change made, whatever the bounds of the parameter. -/
def force (c : Config) : Change → Config
  | .atomBump v => { c with atomBump := c.atomBump.force v }
  | .atomDecay v => { c with atomDecay := c.atomDecay.force v }
  | .clauseBump v => { c with clauseBump := c.clauseBump.force v }
  | .clauseDecay v => { c with clauseDecay := c.clauseDecay.force v }
  | .conflictLimit v => { c with conflictLimit := c.conflictLimit.force v }
  | .lubyUnit v => { c with lubyUnit := c.lubyUnit.force v }
  | .phaseSaving v => { c with phaseSaving := c.phaseSaving.force v }
  | .polarityBias v => { c with polarityBias := c.polarityBias.force v }
  | .randomDecisionBias v => { c with randomDecisionBias := c.randomDecisionBias.force v }
  | .reductionFirst v => { c with reductionFirst := c.reductionFirst.force v }
  | .reductionIncrement v => { c with reductionIncrement := c.reductionIncrement.force v }
  | .reductionFraction v => { c with reductionFraction := c.reductionFraction.force v }
  | .restarts v => { c with restarts := c.restarts.force v }
  | .restartFirst v => { c with restartFirst := c.restartFirst.force v }
  | .restartMultiplier v => { c with restartMultiplier := c.restartMultiplier.force v }
  | .restartPolicy v => { c with restartPolicy := c.restartPolicy.force v }
  | .timeLimit v => { c with timeLimit := c.timeLimit.force v }
  | .vsids v => { c with vsids := c.vsids.force v }

/-- The configuration with changes made in order, up to the first that is refused. -/
def setAll (c : Config) (changes : List Change) : Except ConfigError Config := changes.foldlM set c

end Config

end ClauseLearning
