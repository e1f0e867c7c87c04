/-!
# Integers in text

Decimal integers with an optional sign, within the bounds of a machine word. A sign alone is no integer, and a minus
sign is refused where integers are not signed.
-/

namespace ClauseLearning

namespace Text

/-- The number that one or more decimal digits stand for. -/
def natural? (text : List Char) : Option Nat :=
  if text ≠ [] ∧ text.all Char.isDigit then
    some (text.foldl (fun n c => 10 * n + (c.toNat - '0'.toNat)) 0)
  else
    none

/-- The number that digits after an optional plus sign stand for, if it is an unsigned 64-bit integer. -/
def unsigned64? (text : List Char) : Option Nat :=
  let number := match text with
    | '+' :: digits => natural? digits
    | digits => natural? digits
  number.filter (· < 18446744073709551616)

/-- The integer that digits after an optional sign stand for, whatever its size. -/
def integer? : List Char → Option Int
  | '+' :: digits => (natural? digits).map Int.ofNat
  | '-' :: digits => (natural? digits).map fun n => -(n : Int)
  | digits => (natural? digits).map Int.ofNat

/-- The integer that digits after an optional sign stand for, if it is a signed 32-bit integer. -/
def signed32? (text : List Char) : Option Int :=
  (integer? text).filter fun i => -2147483648 ≤ i && i < 2147483648

/-- The integer that digits after an optional sign stand for, if it is a signed 64-bit integer. -/
def signed64? (text : List Char) : Option Int :=
  (integer? text).filter fun i => -9223372036854775808 ≤ i && i < 9223372036854775808

end Text

end ClauseLearning
