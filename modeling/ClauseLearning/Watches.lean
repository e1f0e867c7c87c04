import ClauseLearning.ClauseKey

/-!
# Watch lists

Each literal has a list of the clauses of two literals that watch it, with their other literals, and a list of the
longer clauses that watch it. A list of the latter kind is taken away while it is traversed, and what was added
meanwhile comes after it when it is restored.
-/

namespace ClauseLearning

/-- A watch of a clause of two literals. -/
structure BinaryWatch where
  /-- The other literal of the clause. -/
  other : Literal
  /-- The key of the clause. -/
  key : ClauseKey
deriving DecidableEq, Inhabited, Repr

/-- The clauses that watch a literal. -/
structure WatchList where
  /-- The clauses of two literals. -/
  binary : Array BinaryWatch := #[]
  /-- The keys of the longer clauses. -/
  long : Array ClauseKey := #[]
deriving DecidableEq, Inhabited, Repr

/-- The watch lists of all literals. -/
structure Watches where
  /-- The lists, by `Literal.index`. -/
  lists : Array WatchList := #[]
deriving Inhabited

namespace Watches

/-- Whether a literal has watch lists. -/
def covers (w : Watches) (l : Literal) : Bool := l.index < w.lists.size

/-- The result of an operation on a literal, none if the literal has no watch lists. -/
def checked {β : Type} (w : Watches) (l : Literal) (operation : Watches → β) : Option β :=
  if w.covers l then some (operation w) else none

/-- The watch lists with lists for the literals of all atoms up to the given one. -/
def ensure (w : Watches) (atom : Nat) : Watches :=
  { lists := w.lists ++ Array.replicate (2 * (atom + 1) - w.lists.size) {} }

/-- The clauses of two literals that watch a literal. -/
def binary (w : Watches) (l : Literal) : Array BinaryWatch := (w.lists[l.index]?.getD {}).binary

/-- The longer clauses that watch a literal. -/
def long (w : Watches) (l : Literal) : Array ClauseKey := (w.lists[l.index]?.getD {}).long

/-- The watch lists with a watch of a clause of two literals. -/
def addBinary (w : Watches) (l : Literal) (watch : BinaryWatch) : Watches :=
  { lists := w.lists.modify l.index fun list => { list with binary := list.binary.push watch } }

/-- The watch lists with a watch of a longer clause. -/
def addLong (w : Watches) (l : Literal) (key : ClauseKey) : Watches :=
  { lists := w.lists.modify l.index fun list => { list with long := list.long.push key } }

/-- The watch lists with another list of longer clauses for a literal. -/
def setLong (w : Watches) (l : Literal) (long : Array ClauseKey) : Watches :=
  { lists := w.lists.modify l.index fun list => { list with long } }

/-- The watch lists with a list put in front of the longer clauses that watch a literal. -/
def restoreLong (w : Watches) (l : Literal) (front : Array ClauseKey) : Watches :=
  { lists := w.lists.modify l.index fun list => { list with long := front ++ list.long } }

end Watches

end ClauseLearning
