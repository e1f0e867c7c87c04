/-!
# Time spans in text

A time span is written with two places in the largest of the units second, millisecond, microsecond and nanosecond of
which it has at least one, and a half goes to the even neighbour.
-/

namespace ClauseLearning

namespace Text

/-- The quotient of two numbers, rounded to the nearest number, of two to the even one. -/
def divRound (n d : Nat) : Nat :=
  let q := n / d
  if 2 * (n % d) < d ∨ 2 * (n % d) = d ∧ q % 2 = 0 then q else q + 1

/-- A number of hundredths, with two places. -/
def hundredths (n : Nat) : String :=
  let places := n % 100
  s!"{n / 100}." ++ (if places < 10 then "0" else "") ++ toString places

/-- A number of nanoseconds as text. -/
def duration (time : Nat) : String :=
  if 1000000000 ≤ time then hundredths (divRound (100 * time) 1000000000) ++ "s"
  else if 1000000 ≤ time then hundredths (divRound (100 * time) 1000000) ++ "ms"
  else if 1000 ≤ time then hundredths (divRound (100 * time) 1000) ++ "µs"
  else hundredths (100 * time) ++ "ns"

end Text

end ClauseLearning
