import ClauseLearning.Solver.Assignment

/-!
# Propagation

When a literal becomes true, `propagateLiteral` visits the clauses that watch its negation, first those of two literals
and then the longer ones. A longer clause moves the watch to another literal that is not false, if it has one; otherwise
its other watched literal is assigned, or is false as well, which is a conflict. `propagate` does so for all literals on
the trail that wait for it. A conflict is a result, the key of a false clause, and not an error.
-/

namespace ClauseLearning

/-- What is to be done with the watch of a false literal by a clause. -/
inductive Verdict
  /-- Keep it, as the clause is true. -/
  | keep
  /-- Move it to another literal of the clause. -/
  | move (target : Literal)
  /-- Keep it and assign the only literal that is left. -/
  | force (l : Literal)
  /-- Keep it and stop, as the clause is false. -/
  | conflict
  /-- Keep it and stop with an error. -/
  | stop (cause : PropagationError)

/-- The first position from `i` on of a literal that is not false. -/
def findFree (v : Valuation) (literals : Array Literal) (i : Nat) : Option Nat :=
  if h : i < literals.size then
    if v.fails literals[i] then findFree v literals (i + 1) else some i
  else
    none
termination_by literals.size - i

namespace StoredClause

/-- The clause with a watched literal in second place, if it is in first place. -/
def face (c : StoredClause) (watched : Literal) : StoredClause :=
  if c.literals[0]? = some watched then { c with literals := c.literals.swapIfInBounds 0 1 } else c

/-- The clause with the literal at a position in second place, where the watch is moved to it. -/
def moveWatch (c : StoredClause) (i : Nat) : Option (StoredClause × Verdict) := do
  let c ← c.swap 1 i
  return (c, .move (← c.literals[1]?))

/-- The verdict on the watch of a false literal, with the clause reordered so that its watched literals come first. None
after an access out of range, as to a clause of fewer than two literals, which watches nothing. -/
def inspect (c : StoredClause) (atoms : AtomTable) (falsified : Literal) : Option (StoredClause × Verdict) :=
  let c := c.face falsified
  match c.literals[0]?, c.literals[1]? with
  | some first, some second =>
    if second = falsified then
      match atoms.isOpen first with
      | .ok false => some (c, .keep)
      | value =>
        match findFree atoms.valuation c.literals 2 with
        | some i => c.moveWatch i
        | none =>
          match value with
          | .ok _ => some (c, .force first)
          | .error .conflictingAssignment => some (c, .conflict)
          | .error .unknownAtom => some (c, .stop (.assignment .unknownAtom))
    else
      some (c, .stop .corruptWatch)
  | _, _ => none

end StoredClause

namespace Solver

/-- A list without the key at a position, whose place the last key takes. -/
def dropWatch (list : Array ClauseKey) (i : Nat) : Array ClauseKey := (list.swapIfInBounds i (list.size - 1)).pop

@[simp] theorem size_dropWatch (list : Array ClauseKey) (i : Nat) : (dropWatch list i).size = list.size - 1 := by
  simp [dropWatch]

/-- Visits watches of a false literal by clauses of two literals, up to a conflict. -/
def visitBinary : List BinaryWatch → SolverM (Option ClauseKey)
  | [] => pure none
  | watch :: watches => do
    match (← get).atoms.isOpen watch.other with
    | .ok true =>
      assign watch.other watch.key
      visitBinary watches
    | .ok false => visitBinary watches
    | .error .conflictingAssignment => pure watch.key
    | .error .unknownAtom => throw (.propagation (.assignment .unknownAtom))

/-- Visits the watches of a false literal by longer clauses, from position `i` of a list on, up to a conflict or an
error. Watches of clauses that are no longer stored are dropped. Gives the watches that are kept. -/
def visitLong (falsified : Literal) (list : Array ClauseKey) (i : Nat) :
    SolverM (Array ClauseKey × Except PropagationError (Option ClauseKey)) :=
  if h : i < list.size then do
    let key := list[i]
    match (← get).clauses.get key with
    | .error _ => visitLong falsified (dropWatch list i) i
    | .ok c =>
      match c.inspect (← get).atoms falsified with
      | none => throw (.breach .outOfRange)
      | some (c, verdict) =>
        onClauses fun clauses => ((), clauses.put c)
        match verdict with
        | .keep => visitLong falsified list (i + 1)
        | .move l =>
          watchLong l key
          visitLong falsified (dropWatch list i) i
        | .force l =>
          assign l key
          visitLong falsified list (i + 1)
        | .conflict => pure (list, .ok key)
        | .stop cause => pure (list, .error cause)
  else
    pure (list, .ok none)
termination_by list.size - i

/-- The watches of a literal by clauses of two literals. -/
def binaryWatches (l : Literal) : SolverM (List BinaryWatch) := do
  require ((← get).watches.covers l)
  return ((← get).watches.binary l).toList

/-- Takes the list of longer clauses that watch a literal. -/
def takeLong (l : Literal) : SolverM (Array ClauseKey) := do
  require ((← get).watches.covers l)
  modifyGet fun s => (s.watches.long l, { s with watches := s.watches.setLong l #[] })

/-- Puts a list of longer clauses that watch a literal back, in front of those that watch it since. -/
def restoreLong (l : Literal) (list : Array ClauseKey) : SolverM Unit := do
  require ((← get).watches.covers l)
  onWatches (·.restoreLong l list)

/-- Visits the clauses that watch the negation of a literal that became true, and gives the key of a false clause if it
comes to one. -/
def propagateLiteral (l : Literal) : SolverM (Option ClauseKey) := do
  let falsified := -l
  match ← visitBinary (← binaryWatches falsified) with
  | some key => return key
  | none =>
    let list ← takeLong falsified
    let (list, result) ← visitLong falsified list 0
    restoreLong falsified list
    ofExcept .propagation result

/-- Propagates up to `n` of the literals that wait for it, up to a conflict. -/
def propagateMany : Nat → SolverM (Option ClauseKey)
  | 0 => pure none
  | n + 1 => do
    match (← get).trail.next? with
    | none => return none
    | some l =>
      match ← propagateLiteral l with
      | some key => return key
      | none =>
        onTrail fun t => { t with head := t.head + 1 }
        onCounters fun c => { c with propagations := c.propagations + 1 }
        propagateMany n

/-- Propagates the literals that wait for it, and those that come of it, until none is left or a clause is false,
whose key is given. The literal that led to a conflict goes on waiting. No more literals can come of it than there are
atoms. -/
def propagate : SolverM (Option ClauseKey) := do
  let s ← get
  propagateMany (s.trail.literals.size - s.trail.head + s.atoms.size)

end Solver

end ClauseLearning
