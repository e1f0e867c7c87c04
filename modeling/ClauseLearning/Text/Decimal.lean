import ClauseLearning.Text.Integer

/-!
# Floating-point numbers in text

A number is written with an optional sign, digits with an optional point among or beside them, and an optional power of
ten after `e` or `E`; infinity and the value that is not a number are written as words, in any case. A number is read as
the floating-point number that is nearest to it.
-/

namespace ClauseLearning

namespace Text

/-- The floating-point number nearest to `n` times ten to the power `e`. Powers that are out of reach of every such
number are not computed. -/
def scaled (n : Nat) (e : Int) : Float :=
  let order := (toString n).length + e
  if n = 0 ∨ order < -400 then 0
  else if 400 < order then 1 / 0
  else Float.ofScientific n (e < 0) e.natAbs

/-- The number `n` and the power of ten `e` for which digits with a point and a power of ten stand for `n` times ten
to the power `e`. -/
def decimal? (text : List Char) : Option (Nat × Int) := do
  let mantissa := text.takeWhile fun c => c != 'e' && c != 'E'
  let power ← match text.drop mantissa.length with
    | [] => some 0
    | _ :: power => integer? power
  let whole := mantissa.takeWhile (· != '.')
  let fraction := (mantissa.drop whole.length).drop 1
  let n ← natural? (whole ++ fraction)
  return (n, power - fraction.length)

/-- The number that a text without a sign stands for. -/
def unsignedFloat? (text : List Char) : Option Float :=
  match String.ofList (text.map Char.toLower) with
  | "inf" | "infinity" => some (1 / 0)
  | "nan" => some (0 / 0)
  | _ => (decimal? text).map fun (n, e) => scaled n e

/-- The floating-point number that a text stands for. -/
def float? : List Char → Option Float
  | '+' :: text => unsignedFloat? text
  | '-' :: text => (unsignedFloat? text).map (- ·)
  | text => unsignedFloat? text

end Text

end ClauseLearning
