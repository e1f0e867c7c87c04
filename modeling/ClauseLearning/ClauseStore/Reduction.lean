import ClauseLearning.ClauseStore.Basic

/-!
# Reduction of the clause store

A reduction removes long learned clauses by ascending activity. It keeps the locked ones, which are antecedents of
values, as told by a function from atoms to antecedents.
-/

namespace ClauseLearning

/-- The place of a floating-point number in the total order of such numbers, negative ones by descending magnitude. -/
def floatRank (x : Float) : Int :=
  let bits : Int := x.toBits.toNat
  if bits < 9223372036854775808 then bits else 9223372036854775807 - bits

namespace StoredClause

/-- Whether a clause is the antecedent of the value of one of its watched literals. -/
def isLocked (c : StoredClause) (reason : Nat → Option ClauseKey) : Bool :=
  (c.clause.take 2).any fun l => reason l.atom == some c.key

/-- Whether a clause is at most as active as another. -/
def leActivity (c d : StoredClause) : Bool := floatRank c.activity ≤ floatRank d.activity

end StoredClause

namespace ClauseStore

/-- The long learned clauses that are not locked, in order of their slots. -/
def unlocked (s : ClauseStore) (reason : Nat → Option ClauseKey) : List StoredClause :=
  s.learnedLong.filter fun c => !c.isLocked reason

/-- Empties the slot of a long learned clause, whose key is free for the next use. -/
def removeSlot (s : ClauseStore) (slot : Nat) : Except StoreError Unit × ClauseStore :=
  match s.learnedSlots[slot]? with
  | some (some c) => (.ok (), { s with
      learnedSlots := s.learnedSlots.setIfInBounds slot none
      learnedLongCount := s.learnedLongCount - 1
      free := c.key :: s.free })
  | some none | none => (.error .missing, s)

/-- Empties slots, one after the other, up to the first that is empty. -/
def removeSlots : List Nat → ClauseStore → Except StoreError Unit × ClauseStore
  | [], s => (.ok (), s)
  | slot :: slots, s =>
    match s.removeSlot slot with
    | (.ok (), s) => removeSlots slots s
    | (.error e, s) => (.error e, s)

/-- Removes the least active unlocked long learned clauses, at most `count` of them, and tells how many. Which of
equally active clauses go first is left open: they go in order of their slots here, but nothing depends on it. -/
def reduceBy (s : ClauseStore) (reason : Nat → Option ClauseKey) (count : Nat) : Except StoreError Nat × ClauseStore :=
  let candidates := ((s.unlocked reason).mergeSort StoredClause.leActivity).map (·.key.index)
  let removed := candidates.take count
  let (answer, s) := removeSlots removed s
  (answer.map fun () => removed.length, s)

/-- Removes a fraction of the unlocked long learned clauses, rounded down, and tells how many. -/
def reduceByFraction (s : ClauseStore) (reason : Nat → Option ClauseKey) (fraction : Float) :
    Except StoreError Nat × ClauseStore :=
  s.reduceBy reason (Float.ofNat (s.unlocked reason).length * fraction).toUInt64.toNat

end ClauseStore

end ClauseLearning
