import ClauseLearning.Error
import ClauseLearning.Literal

/-!
# Clause keys

A `ClauseKey` names a stored clause. A unit clause is named by its literal and every other clause by a slot; as the slot
of a removed learned clause is used again, the key of such a clause also holds a token, which `retoken` steps.
-/

namespace ClauseLearning

/-- The name of a stored clause. -/
inductive ClauseKey
  /-- A clause of one literal from the formula. -/
  | givenUnit (literal : Literal)
  /-- A derived clause of one literal. -/
  | learnedUnit (literal : Literal)
  /-- A clause of two literals from the formula. -/
  | givenBinary (slot : Nat)
  /-- A derived clause of two literals. -/
  | learnedBinary (slot : Nat)
  /-- A clause of three or more literals from the formula. -/
  | given (slot : Nat)
  /-- A derived clause of three or more literals, with the token of this use of the slot. -/
  | learned (slot token : Nat)
deriving DecidableEq, Inhabited, Repr

namespace ClauseKey

/-- The number of slots of each kind of clause. -/
def slotCount : Nat := 4294967296

/-- The number of tokens of each slot. -/
def tokenCount : Nat := 65536

/-- The slot, or the atom of the literal of a unit clause. -/
def index : ClauseKey → Nat
  | givenUnit l | learnedUnit l => l.atom
  | givenBinary slot | learnedBinary slot | given slot | learned slot _ => slot

/-- Whether the clause is part of the formula. -/
def isGiven : ClauseKey → Bool
  | givenUnit _ | givenBinary _ | given _ => true
  | learnedUnit _ | learnedBinary _ | learned _ _ => false

/-- The key for the next use of a slot, which only a learned clause of three or more literals gives up. -/
def retoken : ClauseKey → Except StoreError ClauseKey
  | learned slot token => if token + 1 < tokenCount then .ok (learned slot (token + 1)) else .error .storageExhausted
  | _ => .error .invalidKeyToken

/-- The place of the kind of clause in the order of keys. -/
def kind : ClauseKey → Nat
  | givenUnit _ => 0
  | learnedUnit _ => 1
  | givenBinary _ => 2
  | learnedBinary _ => 3
  | given _ => 4
  | learned _ _ => 5

/-- What keys of one kind are ordered by first. -/
def major : ClauseKey → Nat
  | givenUnit l | learnedUnit l => l.index
  | givenBinary slot | learnedBinary slot | given slot | learned slot _ => slot

/-- What keys of one kind are ordered by last. -/
def minor : ClauseKey → Nat
  | learned _ token => token
  | _ => 0

/-- The order of keys, by kind, slot or literal, and token. -/
def le (a b : ClauseKey) : Bool :=
  a.kind < b.kind || a.kind == b.kind && (a.major < b.major || a.major == b.major && a.minor ≤ b.minor)

/-- The text of a key. -/
def text : ClauseKey → String
  | givenUnit l => s!"OriginalUnit({l})"
  | learnedUnit l => s!"AdditionUnit({l})"
  | givenBinary slot => s!"OriginalBinary({slot})"
  | learnedBinary slot => s!"AdditionBinary({slot})"
  | given slot => s!"Original({slot})"
  | learned slot token => s!"Addition({slot}, {token})"

instance : ToString ClauseKey := ⟨text⟩

end ClauseKey

end ClauseLearning
