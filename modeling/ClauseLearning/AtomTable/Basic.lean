import ClauseLearning.ClauseKey
import ClauseLearning.Config
import ClauseLearning.IndexHeap
import ClauseLearning.Valuation

/-!
# The atom table

An `AtomTable` holds what a solve knows of each atom: its value, the level and the antecedent of the value, the value it
had before, and its activity. Atoms without a value are active on the heap of activities, from which decisions are made;
atoms that have been valued since may still be on it. The top atom is true at level zero and never on the heap.
`AtomM` are the operations on an atom table, which stop at an access out of the range of one of its parts.
-/

namespace ClauseLearning

/-- What is known of each atom. -/
structure AtomTable where
  /-- The value of each atom. -/
  valuation : Valuation := #[some true]
  /-- The value of each atom before the present one, or an initial value. -/
  previous : Array Bool := #[true]
  /-- The activity of each atom, with the atoms that decisions are made from. -/
  activity : IndexHeap Float := ({} : IndexHeap Float).grown topAtom 0
  /-- The level at which each valued atom was valued. -/
  levels : Array (Option Nat) := #[some 0]
  /-- The antecedent of the value of each atom that was valued by propagation. -/
  reasons : Array (Option ClauseKey) := #[none]
  /-- What an atom gains in activity when it is bumped next. -/
  bump : Parameter Float
  /-- What the activity of atoms loses at each conflict. -/
  decay : Parameter Float

namespace AtomTable

/-- The table of the top atom. -/
def ofConfig (config : Config) : AtomTable := { bump := config.atomBump, decay := config.atomDecay }

instance : Inhabited AtomTable := ⟨ofConfig default⟩

/-- The number of atoms, with the top atom. -/
def size (t : AtomTable) : Nat := t.valuation.size

/-- The value of an atom, if it has one. -/
def valueOf (t : AtomTable) (a : Nat) : Option Bool := t.valuation.valueOf a

/-- The level at which an atom was valued, if it has a value. -/
def levelOf (t : AtomTable) (a : Nat) : Option Nat := t.levels[a]?.join

/-- The antecedent of the value of an atom, if it was valued by propagation. -/
def reasonOf (t : AtomTable) (a : Nat) : Option ClauseKey := t.reasons[a]?.join

/-- The value of an atom before its present one, or its initial one. -/
def previousOf (t : AtomTable) (a : Nat) : Option Bool := t.previous[a]?

/-- The activity of an atom. -/
def activityOf (t : AtomTable) (a : Nat) : Float := t.activity.valueAt a

/-- Whether a literal can be made true by a new value: not if it is true, and with an error if it is false. -/
def isOpen (t : AtomTable) (l : Literal) : Except AssignmentError Bool :=
  match t.valuation[l.atom]? with
  | none => .error .unknownAtom
  | some none => .ok true
  | some (some value) => if value = l.polarity then .ok false else .error .conflictingAssignment

end AtomTable

/-- An operation on an atom table, which stops at an access out of the range of one of the parts. -/
abbrev AtomM := EStateM Breach AtomTable

namespace AtomM

/-- Goes on only if an access is in range. -/
def require (inside : Bool) : AtomM Unit := if inside then pure () else throw .outOfRange

/-- Runs an operation on the activities. -/
@[inline] def onActivity {α : Type} (operation : HeapM Float α) : AtomM α := fun t =>
  let ⟨valuation, previous, activity, levels, reasons, bump, decay⟩ := t
  match operation activity with
  | .ok a activity => .ok a ⟨valuation, previous, activity, levels, reasons, bump, decay⟩
  | .error e activity => .error e ⟨valuation, previous, activity, levels, reasons, bump, decay⟩

/-- Adds an atom, which is active and has the given value to go back to. -/
def grow (previous : Bool) : AtomM Unit := do
  let a := (← get).size
  modify fun t => { t with
    valuation := t.valuation.push none
    previous := t.previous.push previous
    levels := t.levels.push none
    reasons := t.reasons.push none }
  discard (onActivity do
    discard (IndexHeap.add a 0)
    IndexHeap.activate a)

/-- Goes on only if the tables of values, levels and antecedents have a place for an atom. -/
def requireEntry (a : Nat) : AtomM Unit := do
  let t ← get
  require (a < t.valuation.size && a < t.levels.size && a < t.reasons.size)

/-- Makes a literal true at a level, by an antecedent if there is one. -/
def value (l : Literal) (level : Nat) (reason : Option ClauseKey) : AtomM Unit := do
  requireEntry l.atom
  modify fun t => { t with
    valuation := t.valuation.setIfInBounds l.atom (some l.polarity)
    levels := t.levels.setIfInBounds l.atom (some level)
    reasons := t.reasons.setIfInBounds l.atom reason }

/-- Makes a literal true if its atom has no value, and tells whether it was not true before, or why it stays false. -/
def setValue (l : Literal) (level : Nat) (reason : Option ClauseKey) : AtomM (Except AssignmentError Bool) := do
  match (← get).isOpen l with
  | .ok true =>
    value l level reason
    return .ok true
  | answer => return answer

/-- Makes the value of an atom, if it has one, the value to go back to. -/
def saveValue (a : Nat) : AtomM Unit := do
  match (← get).valueOf a with
  | none => pure ()
  | some value =>
    require (a < (← get).previous.size)
    modify fun t => { t with previous := t.previous.setIfInBounds a value }

/-- Takes the value of an atom back, which becomes the previous one; the atom is active again. -/
def dropValue (a : Nat) : AtomM Unit := do
  requireEntry a
  saveValue a
  modify fun t => { t with
    valuation := t.valuation.setIfInBounds a none
    levels := t.levels.setIfInBounds a none
    reasons := t.reasons.setIfInBounds a none }
  discard (onActivity (IndexHeap.activate a))

end AtomM

end ClauseLearning
