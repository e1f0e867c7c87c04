import ClauseLearning.Literal

/-!
# Partial valuations

A `Valuation` gives some atoms a value. An atom is known to it, valued or not, or lies outside of it; `valueOf` does
not tell the last two apart, indexing does. The listings leave out the top atom, apart from `unvalued`.
-/

namespace ClauseLearning

/-- A partial valuation: for each atom that it knows, the value of the atom, if any. -/
abbrev Valuation := Array (Option Bool)

namespace Valuation

/-- The value of an atom, if it has one. -/
def valueOf (v : Valuation) (a : Nat) : Option Bool := v[a]?.join

/-- Whether a literal is true. -/
def holds (v : Valuation) (l : Literal) : Bool := v.valueOf l.atom == some l.polarity

/-- Whether a literal is false. -/
def fails (v : Valuation) (l : Literal) : Bool := v.valueOf l.atom == some (!l.polarity)

/-- The values of the atoms from `1` on. -/
def values (v : Valuation) : List (Option Bool) := v.toList.drop 1

/-- The valued atoms from `1` on, with their values. -/
def pairs (v : Valuation) : List (Nat × Bool) :=
  (v.toList.zipIdx.drop 1).filterMap fun (value, a) => value.map fun b => (a, b)

/-- The valued atoms from `1` on. -/
def valued (v : Valuation) : List Nat := v.pairs.map (·.1)

/-- The atoms without a value. -/
def unvalued (v : Valuation) : List Nat :=
  v.toList.zipIdx.filterMap fun (value, a) => if value.isNone then some a else none

/-- The valued atoms as literals, closed by `0`. -/
def text (v : Valuation) : String :=
  v.pairs.foldl (fun s (a, b) => s ++ toString (Literal.mk a b) ++ " ") "" ++ "0"

end Valuation

end ClauseLearning
