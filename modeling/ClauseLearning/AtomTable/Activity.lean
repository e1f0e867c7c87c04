import ClauseLearning.AtomTable.Basic

/-!
# Activity of atoms

The activity of an atom grows when the atom takes part in a conflict. Decay of all activities is growth of the next
bump; before a number would outgrow its bound, all are scaled down, the greatest to one.
-/

namespace ClauseLearning

/-- The greater of two floating-point numbers, or the one that is a number. -/
def floatMax (x y : Float) : Float :=
  if x.isNaN then y else if y.isNaN then x else if x < y then y else x

namespace AtomM

/-- The activity of an atom. -/
def activityOf (a : Nat) : AtomM Float := onActivity (IndexHeap.readValue a)

/-- The greatest of a number and the activities of atoms. -/
def greatest : List Nat → Float → AtomM Float
  | [], x => return x
  | a :: atoms, x => do greatest atoms (floatMax x (← activityOf a))

/-- Divides all activities, and the next bump, by the greatest of them. -/
def rescale : AtomM Unit := do
  let factor := 1 / (← greatest (List.range (← get).size) (← get).bump.value)
  onActivity do
    IndexHeap.mapValues (· * factor)
    IndexHeap.reheap
  modify fun t => { t with bump := t.bump.force (t.bump.value * factor) }

/-- Bumps an atom. -/
def bumpActivity (a : Nat) : AtomM Unit := do
  let activity := (← activityOf a) + (← get).bump.value
  onActivity do
    IndexHeap.revalue a activity
    IndexHeap.restore a

/-- Bumps an atom, after a rescaling if the activity would outgrow the greatest bump. -/
def bumpRelative (a : Nat) : AtomM Unit := do
  let activity ← activityOf a
  let bump := (← get).bump
  if bump.greatest < activity + bump.value then rescale
  bumpActivity a

/-- Makes the next bump greater by the factor that makes older bumps decay. -/
def decayActivity : AtomM Unit := do
  let t ← get
  let value := t.bump.value * (1 / (1 - t.decay.value))
  modify fun t => { t with bump := t.bump.force value }
  if t.bump.greatest < value then rescale

/-- Takes the most active atom off the heap. -/
def popMostActive : AtomM (Option Nat) := onActivity IndexHeap.pop

/-- Takes atoms off the heap, at most `n` of them, up to the first without a value. -/
def popUnvalued : Nat → AtomM (Option Nat)
  | 0 => return none
  | n + 1 => do
    match ← popMostActive with
    | none => return none
    | some a => if ((← get).valueOf a).isNone then return some a else popUnvalued n

end AtomM

end ClauseLearning
