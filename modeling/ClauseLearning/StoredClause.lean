import ClauseLearning.Clause
import ClauseLearning.ClauseKey

/-!
# Stored clauses

A `StoredClause` is a clause with its key and its activity. Its literals are an array, as the first two of them are the
watched ones and are swapped with others.
-/

namespace ClauseLearning

/-- A clause with its key and its activity. -/
structure StoredClause where
  /-- The name of the clause. -/
  key : ClauseKey
  /-- The literals, the watched ones first. -/
  literals : Array Literal
  /-- How much the clause was of use in the analysis of conflicts. -/
  activity : Float := 0

namespace StoredClause

/-- The literals as a clause. -/
def clause (c : StoredClause) : Clause := c.literals.toList

/-- The number of literals. -/
def size (c : StoredClause) : Nat := c.literals.size

/-- The clause with the literals at two positions swapped, none if there is no such position. -/
def swap (c : StoredClause) (i j : Nat) : Option StoredClause :=
  if h : i < c.literals.size ∧ j < c.literals.size then
    some { c with literals := c.literals.swap i j h.1 h.2 }
  else
    none

/-- The key and the literals. -/
def text (c : StoredClause) : String := s!"{c.key}: {c.clause.text}"

end StoredClause

end ClauseLearning
