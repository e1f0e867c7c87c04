import ClauseLearning.AtomTable.Basic
import ClauseLearning.ClauseStore.Basic
import ClauseLearning.Trail

/-!
# Resolution

From a clause that is false, `Resolution.resolve` derives the clause of the first unique implication point. The trail
is walked backwards, and each literal of the current level that occurs is resolved away with its antecedent, until one
is left: its negation is the first literal of the result. Literals of level zero are left out, as they are false
without any decision. The buffer keeps the atoms and clauses used, and its marks from one resolution to the next, of
which only those of the atoms used are cleared.
-/

namespace ClauseLearning

/-- A buffer for resolution. -/
structure Resolution where
  /-- Whether each atom has been seen. -/
  seen : Array Bool := #[]
  /-- The atoms seen, in order. -/
  atoms : Array Nat := #[]
  /-- The keys of the clauses used, in order. -/
  premises : Array ClauseKey := #[]
  /-- The literals seen of levels between zero and the current level, in order. -/
  lower : Array Literal := #[]
deriving Inhabited

namespace Resolution

/-- Whether an atom is marked as seen. -/
def isSeen (b : Resolution) (a : Nat) : Bool := b.seen[a]?.getD false

/-- The buffer without marks, for a number of atoms. -/
def refresh (b : Resolution) (size : Nat) : Resolution :=
  let seen := b.atoms.foldl (fun seen a => seen.setIfInBounds a false) b.seen
  let missing := size - seen.size
  { seen := seen.shrink size ++ Array.replicate missing false }

/-- Whether there are marks for all atoms seen, so that these can be cleared. -/
def coversAtoms (b : Resolution) : Bool := b.atoms.all (· < b.seen.size)

/-- The buffer with an atom marked as seen. -/
def mark (b : Resolution) (a : Nat) : Resolution :=
  { b with seen := b.seen.setIfInBounds a true, atoms := b.atoms.push a }

/-- Notes the literals of a clause that have not been seen, and counts those of the current level on top of `count`. -/
def note (atoms : AtomTable) (level : Nat) : Clause → Nat → Resolution → Except Error Nat × Resolution
  | [], count, b => (.ok count, b)
  | l :: c, count, b =>
    match b.seen[l.atom]? with
    | none => (.error (.breach .outOfRange), b)
    | some true => note atoms level c count b
    | some false =>
      match atoms.levelOf l.atom with
      | none => (.error (.resolution .unvaluedLiteral), b)
      | some 0 => note atoms level c count b
      | some (n + 1) =>
        let b := b.mark l.atom
        if n + 1 = level then note atoms level c (count + 1) b
        else note atoms level c count { b with lower := b.lower.push l }

/-- The last position below `n` on the trail whose atom has been seen. -/
def lastSeen (b : Resolution) (trail : Array Literal) : Nat → Except Error Nat
  | 0 => .error (.resolution .exhaustedTrail)
  | n + 1 =>
    match trail[n]? with
    | none => .error (.breach .outOfRange)
    | some l =>
      match b.seen[l.atom]? with
      | none => .error (.breach .outOfRange)
      | some true => .ok n
      | some false => lastSeen b trail n

/-- The last seen position is below the bound. -/
theorem lastSeen_lt {b : Resolution} {trail : Array Literal} {n i : Nat} (h : b.lastSeen trail n = .ok i) : i < n := by
  fun_induction lastSeen b trail n with
  | case1 | case2 | case3 => cases h
  | case4 => cases h; exact Nat.lt_succ_self _
  | case5 => rename_i ih; exact Nat.lt_succ_of_lt (ih h)

/-- Resolves from the clause with a key, with `count` literals of the current level noted and the trail walked down to
`index`, and gives the first unique implication point. -/
def walk (clauses : ClauseStore) (atoms : AtomTable) (trail : Trail) (key : ClauseKey) (count index : Nat)
    (b : Resolution) : Except Error Literal × Resolution :=
  match clauses.get key with
  | .error _ => (.error (.resolution .lostClause), b)
  | .ok c =>
    match note atoms trail.level c.clause count { b with premises := b.premises.push key } with
    | (.error e, b) => (.error e, b)
    | (.ok count, b) =>
      match _ : b.lastSeen trail.literals index with
      | .error e => (.error e, b)
      | .ok i =>
        let pivot := trail.literals[i]?.getD default
        match count with
        | 0 => (.error (.resolution .exhaustedTrail), b)
        | 1 => (.ok pivot, b)
        | count + 2 =>
          match atoms.reasonOf pivot.atom with
          | none => (.error (.resolution .missingAntecedent), b)
          | some key => walk clauses atoms trail key (count + 1) i b
termination_by index
decreasing_by exact lastSeen_lt ‹_›

/-- The position, from `i` on, of the literal of the highest level in a clause, the first of equals, unless no level is
above that of the best position so far. -/
def highest (atoms : AtomTable) : Clause → Nat → Nat → Nat → Nat
  | [], _, best, _ => best
  | l :: c, i, best, level =>
    let n := (atoms.levelOf l.atom).getD 0
    if level < n then highest atoms c (i + 1) i n else highest atoms c (i + 1) best level

/-- The clause that asserts a literal, with a literal of the highest level of the others in second place. -/
def asserting (atoms : AtomTable) (first : Literal) (lower : Array Literal) : Except Error Clause :=
  let literals := #[first] ++ lower
  if 2 < literals.size then
    let second := highest atoms lower.toList 1 1 0
    if second < literals.size then .ok (literals.swapIfInBounds 1 second).toList else .error (.breach .outOfRange)
  else
    .ok literals.toList

/-- Resolves from the clause with a key, which must be false, to the first unique implication point of the current
level, whose negation is the first literal of the result. -/
def resolve (b : Resolution) (key : ClauseKey) (clauses : ClauseStore) (atoms : AtomTable) (trail : Trail) :
    Except Error Clause × Resolution :=
  if b.coversAtoms then
    match walk clauses atoms trail key 0 trail.literals.size (b.refresh atoms.size) with
    | (.error e, b) => (.error e, b)
    | (.ok pivot, b) => (asserting atoms (-pivot) b.lower, b)
  else
    (.error (.breach .outOfRange), b)

end Resolution

end ClauseLearning
