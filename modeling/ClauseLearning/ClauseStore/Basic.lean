import ClauseLearning.Config
import ClauseLearning.StoredClause
import Std.Data.TreeSet

/-!
# The clause store

A `ClauseStore` holds the given clauses, those of the formula, and the learned clauses, those derived from it, each
kind by length: one literal, two literals or more. Clauses enter by `insert`, which makes their key. Only long learned
clauses are ever removed, and the slots of removed ones are used again, the last one removed first.
-/

namespace ClauseLearning

open Std (TreeSet)

/-- Clauses by key. -/
structure ClauseStore where
  /-- What a clause gains in activity when it is bumped next. -/
  bump : Parameter Float
  /-- What the activity of clauses loses at each conflict. -/
  decay : Parameter Float
  /-- The literals that are clauses of the formula. -/
  givenUnits : TreeSet Literal := ∅
  /-- The literals that are derived clauses. -/
  learnedUnits : TreeSet Literal := ∅
  /-- The clauses of two literals of the formula, by slot. -/
  givenBinaries : Array StoredClause := #[]
  /-- The derived clauses of two literals, by slot. -/
  learnedBinaries : Array StoredClause := #[]
  /-- The longer clauses of the formula, by slot. -/
  givenLong : Array StoredClause := #[]
  /-- The longer derived clauses, by slot, where the slots of removed clauses are empty. -/
  learnedSlots : Array (Option StoredClause) := #[]
  /-- The number of longer derived clauses. -/
  learnedLongCount : Nat := 0
  /-- The last keys of the empty slots, the one to use next in front. -/
  free : List ClauseKey := []

namespace ClauseStore

/-- The empty store. -/
def ofConfig (config : Config) : ClauseStore := { bump := config.clauseBump, decay := config.clauseDecay }

instance : Inhabited ClauseStore := ⟨ofConfig default⟩

/-- The clause with a key. -/
def get (s : ClauseStore) (key : ClauseKey) : Except StoreError StoredClause :=
  match key with
  | .givenUnit l => if l ∈ s.givenUnits then .ok ⟨key, #[l], 0⟩ else .error .missing
  | .learnedUnit l => if l ∈ s.learnedUnits then .ok ⟨key, #[l], 0⟩ else .error .missing
  | .givenBinary slot => ofOption s.givenBinaries[slot]?
  | .learnedBinary slot => ofOption s.learnedBinaries[slot]?
  | .given slot => ofOption s.givenLong[slot]?
  | .learned slot _ =>
    match s.learnedSlots[slot]? with
    | some (some c) => if c.key = key then .ok c else .error .invalidKeyToken
    | _ => .error .missing
where
  /-- A clause that may be missing. -/
  ofOption : Option StoredClause → Except StoreError StoredClause
    | some c => .ok c
    | none => .error .missing

/-- The store with a clause in place of the one with the same key. A clause of one literal has nothing to replace. -/
def put (s : ClauseStore) (c : StoredClause) : ClauseStore :=
  match c.key with
  | .givenUnit _ | .learnedUnit _ => s
  | .givenBinary slot => { s with givenBinaries := s.givenBinaries.setIfInBounds slot c }
  | .learnedBinary slot => { s with learnedBinaries := s.learnedBinaries.setIfInBounds slot c }
  | .given slot => { s with givenLong := s.givenLong.setIfInBounds slot c }
  | .learned slot _ => { s with learnedSlots := s.learnedSlots.setIfInBounds slot (some c) }

/-- The store with two literals of the clause with a key swapped. -/
def swapLiterals (s : ClauseStore) (key : ClauseKey) (i j : Nat) : Except Error ClauseStore :=
  match s.get key with
  | .error e => .error (.store e)
  | .ok c =>
    match c.swap i j with
    | none => .error (.breach .outOfRange)
    | some c => .ok (s.put c)

/-- The clauses of the formula, by kind and in order of their keys. -/
def givenClauses (s : ClauseStore) : List StoredClause :=
  (s.givenUnits.toList.map fun l => ⟨.givenUnit l, #[l], 0⟩) ++ s.givenBinaries.toList ++ s.givenLong.toList

/-- The derived clauses of three or more literals, in order of their slots. -/
def learnedLong (s : ClauseStore) : List StoredClause := s.learnedSlots.toList.filterMap id

/-- The derived clauses, by kind and in order of their slots. -/
def learnedClauses (s : ClauseStore) : List StoredClause :=
  (s.learnedUnits.toList.map fun l => ⟨.learnedUnit l, #[l], 0⟩) ++ s.learnedBinaries.toList ++ s.learnedLong

/-- The number of clauses of the formula. -/
def givenCount (s : ClauseStore) : Nat := s.givenUnits.size + s.givenBinaries.size + s.givenLong.size

/-- The number of derived clauses. -/
def learnedCount (s : ClauseStore) : Nat := s.learnedUnits.size + s.learnedBinaries.size + s.learnedLongCount

/-- The number of clauses. -/
def count (s : ClauseStore) : Nat := s.givenCount + s.learnedCount

/-! ## New clauses -/

/-- The key for the next slot, if there is one. -/
def slotKey (key : Nat → ClauseKey) (slot : Nat) : Except StoreError ClauseKey :=
  if slot < ClauseKey.slotCount then .ok (key slot) else .error .storageExhausted

/-- The key for a new clause: the literal of a clause of one literal, otherwise the next slot, where a long learned
clause uses an empty slot first. -/
def freshKey (s : ClauseStore) (c : Clause) (source : ClauseSource) : Except StoreError ClauseKey :=
  match c, source with
  | [], _ => .error .emptyClause
  | [l], .given => .ok (.givenUnit l)
  | [l], .learned => .ok (.learnedUnit l)
  | [_, _], .given => slotKey .givenBinary s.givenBinaries.size
  | [_, _], .learned => slotKey .learnedBinary s.learnedBinaries.size
  | _, .given => slotKey .given s.givenLong.size
  | _, .learned =>
    match s.free with
    | key :: _ => key.retoken
    | [] => slotKey (.learned · 0) s.learnedSlots.size

/-- The store with a clause at a fresh key. -/
def place (s : ClauseStore) (key : ClauseKey) (c : Clause) : ClauseStore :=
  let stored : StoredClause := { key, literals := c.toArray }
  match key with
  | .givenUnit l => { s with givenUnits := s.givenUnits.insert l }
  | .learnedUnit l => { s with learnedUnits := s.learnedUnits.insert l }
  | .givenBinary _ => { s with givenBinaries := s.givenBinaries.push stored }
  | .learnedBinary _ => { s with learnedBinaries := s.learnedBinaries.push stored }
  | .given _ => { s with givenLong := s.givenLong.push stored }
  | .learned slot _ =>
    let learnedSlots := if slot < s.learnedSlots.size then s.learnedSlots.setIfInBounds slot (some stored)
      else s.learnedSlots.push (some stored)
    { s with learnedSlots, learnedLongCount := s.learnedLongCount + 1 }

/-- The store after the choice of a key for a clause: a long learned clause takes the first of the free keys, whether
or not another key can be made of it. -/
def takeFree (s : ClauseStore) (c : Clause) (source : ClauseSource) : ClauseStore :=
  if source = .learned ∧ 3 ≤ c.length then { s with free := s.free.tail } else s

/-- Stores a clause and gives its key. The literals are not looked at. -/
def insert (s : ClauseStore) (c : Clause) (source : ClauseSource) : Except StoreError ClauseKey × ClauseStore :=
  match s.freshKey c source with
  | .ok key => (.ok key, (s.takeFree c source).place key c)
  | .error e => (.error e, s.takeFree c source)

end ClauseStore

end ClauseLearning
