import ClauseLearning.Literal

/-!
# The trail

The `Trail` lists the literals in the order in which their atoms were valued, split into levels: level zero is what
holds without a decision, and each decision opens a level. The literals from `head` on wait for propagation.
-/

namespace ClauseLearning

/-- The assigned literals, in order. -/
structure Trail where
  /-- The literals, the first assigned one first. -/
  literals : Array Literal := #[]
  /-- Where each level above zero starts. -/
  starts : Array Nat := #[]
  /-- The number of literals that were propagated. -/
  head : Nat := 0
deriving Inhabited

namespace Trail

/-- The number of open decisions. Each one of a solve has a literal, so there are no more of them than atoms. Only a
decision that is refused as its atom is not known leaves a level without a literal open, one each time. -/
def level (t : Trail) : Nat := t.starts.size

/-- Whether a decision is open. -/
def isDecided (t : Trail) : Bool := 0 < t.level

/-- The trail with a literal added to the top level. -/
def push (t : Trail) (l : Literal) : Trail := { t with literals := t.literals.push l }

/-- The trail with a fresh level, which starts at the next literal. -/
def openLevel (t : Trail) : Trail := { t with starts := t.starts.push t.literals.size }

/-- The literals of the top level, in order. -/
def topLevel (t : Trail) : List Literal :=
  match t.starts.back? with
  | some start => t.literals.toList.drop start
  | none => t.literals.toList

/-- The next literal to propagate. -/
def next? (t : Trail) : Option Literal := t.literals[t.head]?

/-- Whether what is above a level, if there is such, starts on the trail. -/
def covers (t : Trail) (level : Nat) : Bool := t.starts[level]?.all (· ≤ t.literals.size)

/-- The literals above a level, in order. -/
def above (t : Trail) (level : Nat) : List Literal :=
  match t.starts[level]? with
  | some start => (t.literals.extract start).toList
  | none => []

/-- The trail without the literals above a level. -/
def cut (t : Trail) (level : Nat) : Trail :=
  match t.starts[level]? with
  | some start =>
    let ⟨literals, starts, head⟩ := t
    ⟨literals.shrink start, starts.shrink level, min head start⟩
  | none => t

end Trail

end ClauseLearning
