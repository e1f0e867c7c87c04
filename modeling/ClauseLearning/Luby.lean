/-!
# The Luby sequence

The sequence 1, 1, 2, 1, 1, 2, 4, 1, … by reluctant doubling: `Luby` is a pair of 32-bit counters, `Luby.next` gives the
element and the next pair in constant time.
-/

namespace ClauseLearning

/-- A place in the Luby sequence. -/
structure Luby where
  /-- The number of the run of doublings. -/
  run : Nat := 1
  /-- The element at the place. -/
  element : Nat := 1
deriving DecidableEq, Repr

namespace Luby

/-- The limit of the counters. -/
def bound : Nat := 4294967296

/-- The largest power of two that divides a positive number below `bound`. -/
def lowBit (n : Nat) : Nat := n &&& (bound - n)

/-- The element and the next place, unless a counter would leave its bound: elements double within a run, and a run
ends with the low bit of its number. -/
def next (s : Luby) : Option (Nat × Luby) :=
  if lowBit s.run = s.element then
    if s.run + 1 < bound then some (s.element, ⟨s.run + 1, 1⟩) else none
  else
    if 2 * s.element < bound then some (s.element, ⟨s.run, 2 * s.element⟩) else none

/-- The place `n` places on, or the last one. -/
def drop : Nat → Luby → Luby
  | 0, s => s
  | n + 1, s =>
    match s.next with
    | none => s
    | some (_, s) => drop n s

/-- The elements of the next places, at most `n` of them. -/
def take : Nat → Luby → List Nat
  | 0, _ => []
  | n + 1, s =>
    match s.next with
    | none => []
    | some (element, s) => element :: take n s

end Luby

end ClauseLearning
