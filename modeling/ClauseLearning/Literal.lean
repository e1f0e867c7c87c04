/-!
# Literals

An atom, or propositional variable, is a number, and a `Literal` is an atom with a polarity. Literals are ordered by
atom and then by polarity, false before true, which is the order of `Literal.index`; `Literal.toInt` and `Literal.ofInt`
relate them to signed integers, where the sign is the polarity.
-/

namespace ClauseLearning

/-- The atom that is always true and never part of a formula, whose variables are the atoms `1` to `N`. -/
def topAtom : Nat := 0

/-- The largest atom, which is the largest signed 32-bit integer. -/
def maxAtom : Nat := 2147483647

/-- An atom with a polarity. -/
structure Literal where
  /-- The atom of the literal. -/
  atom : Nat
  /-- The value of the atom that makes the literal true. -/
  polarity : Bool
deriving DecidableEq, Inhabited, Repr

/-- The signed 32-bit integer with the same residue modulo `2 ^ 32`. -/
def wrapInt32 (i : Int) : Int := i.bmod 4294967296

namespace Literal

/-- The literal of the same atom with the other polarity. -/
def negate (l : Literal) : Literal := ⟨l.atom, !l.polarity⟩

instance : Neg Literal := ⟨negate⟩

@[simp] theorem atom_neg (l : Literal) : (-l).atom = l.atom := rfl

@[simp] theorem polarity_neg (l : Literal) : (-l).polarity = !l.polarity := rfl

@[simp] theorem neg_neg (l : Literal) : - -l = l := by
  obtain ⟨a, p⟩ := l
  simp [Neg.neg, negate]

/-- A number of its own for every literal: `2a` and `2a + 1` for the false and the true literal of atom `a`. -/
def index (l : Literal) : Nat := 2 * l.atom + l.polarity.toNat

/-- Literals with equal indices are equal. -/
theorem index_inj {k l : Literal} (h : k.index = l.index) : k = l := by
  obtain ⟨a, p⟩ := k
  obtain ⟨b, q⟩ := l
  cases p <;> cases q <;> simp [index] at h ⊢ <;> omega

instance : Ord Literal := ⟨compareOn index⟩

/-- The order of literals, as a test. -/
def le (k l : Literal) : Bool := k.index ≤ l.index

/-- The literal as an integer, with its polarity as the sign. -/
def toInt (l : Literal) : Int := if l.polarity then (l.atom : Int) else -(l.atom : Int)

/-- The literal of the absolute value of an integer, true if the integer is positive. -/
def ofInt (i : Int) : Literal := ⟨i.natAbs, 0 < i⟩

/-- The literal as a signed 32-bit integer, wrapped for atoms above `maxAtom`. -/
def toInt32 (l : Literal) : Int := wrapInt32 l.toInt

/-- An integer other than zero is read back from its literal. -/
theorem toInt_ofInt (i : Int) : (ofInt i).toInt = i := by
  simp only [ofInt, toInt, decide_eq_true_eq]
  split <;> omega

/-- A literal of an atom other than `0` is read back from its integer. -/
theorem ofInt_toInt {l : Literal} (h : l.atom ≠ 0) : ofInt l.toInt = l := by
  obtain ⟨a, p⟩ := l
  cases p <;> simp [ofInt, toInt] at h ⊢
  omega

instance : ToString Literal := ⟨fun l => toString l.toInt⟩

end Literal

end ClauseLearning
