import ClauseLearning.Valuation

/-!
# Clauses

A `Clause` is a list of literals, read as their disjunction. The empty clause is false, and a literal is identified with
the clause of that literal alone.
-/

namespace ClauseLearning

/-- A disjunction of literals. -/
abbrev Clause := List Literal

/-- Where a stored clause comes from. -/
inductive ClauseSource
  /-- The formula. -/
  | given
  /-- Resolution, during the analysis of a conflict. -/
  | learned
deriving DecidableEq, Repr

namespace Clause

/-- The literals, each followed by a blank, closed by `0`. -/
def dimacs (c : Clause) : String := c.foldl (fun s l => s ++ toString l ++ " ") "" ++ "0"

/-- The literals, with blanks between them. -/
def text (c : Clause) : String := " ".intercalate (c.map toString)

/-- The atoms of the literals, in order. -/
def atoms (c : Clause) : List Nat := c.map (·.atom)

/-- The only literal that is not false, if it is known and has no value. -/
def asserted (c : Clause) (v : Valuation) : Option Literal :=
  match c.filter fun l => !v.fails l with
  | [l] => if v[l.atom]? = some none then some l else none
  | _ => none

/-- Whether every literal is false. -/
def falsified (c : Clause) (v : Valuation) : Bool := c.all v.fails

/-- Whether some literal is true. -/
def satisfied (c : Clause) (v : Valuation) : Bool := c.any v.holds

/-- The clause in order, with each literal once. -/
def normalise (c : Clause) : Clause := (c.mergeSort Literal.le).eraseReps

/-- Whether two neighbours have the same atom, which in a normalised clause are a literal and its negation. -/
def hasTwins : Clause → Bool
  | k :: l :: c => k.atom == l.atom || hasTwins (l :: c)
  | _ => false

end Clause

end ClauseLearning
