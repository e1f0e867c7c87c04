import ClauseLearning.Random.Generator

/-!
# Random choices

`Generator.bool` draws a truth value of given probability, and `Generator.choose` an element of a list in one pass: the
`k`-th element replaces the choice with probability `1 / k`. The latter draws single coin flips from 32-bit words
through a `Flipper`, so that a choice uses few of them.
-/

namespace ClauseLearning

namespace Generator

/-- A truth value that is true with probability `p`, none if `p` is no probability. Certainty draws nothing. -/
def bool (g : Generator) (p : Float) : Option (Bool × Generator) :=
  if p == 1 then
    some (true, g)
  else if 0 ≤ p ∧ p < 1 then
    let (word, g) := g.next64
    some (word < (p * 18446744073709551616).toUInt64, g)
  else
    none

end Generator

/-- A generator with a partly used word of coin flips, the next one uppermost. -/
structure Flipper where
  /-- The word, with used flips shifted out. -/
  chunk : UInt32 := 0
  /-- The number of flips left in the word. -/
  remaining : Nat := 0
  /-- Where words come from. -/
  source : Generator

namespace Flipper

/-- The number of zero bits above the uppermost one of a word. -/
def leadingZeros (x : UInt32) : Nat := if x = 0 then 32 else 31 - x.toNat.log2

/-- Whether the next `n` flips are heads, which are zeros, if the word shows it: the first of tails ends the row. -/
def heads? (f : Flipper) (n : Nat) : Option (Bool × Flipper) :=
  let zeros := leadingZeros f.chunk
  if zeros < n then
    some (false, { f with chunk := f.chunk <<< (zeros + 1).toUInt32, remaining := f.remaining - (zeros + 1) })
  else if n ≤ f.remaining then
    some (true, { f with chunk := f.chunk <<< n.toUInt32, remaining := f.remaining - n })
  else
    none

/-- Whether the next `n` flips are heads, for at most 32 of them. A word of heads that is too short is used up, and a
fresh one shows the rest. -/
def heads (f : Flipper) (n : Nat) : Bool × Flipper :=
  match f.heads? n with
  | some answer => answer
  | none =>
    let (chunk, source) := f.source.next
    let fresh : Flipper := { chunk, remaining := 32, source }
    (fresh.heads? (n - f.remaining)).getD (false, fresh)

/-- Rounds of a game that is won with probability `n / d`: flips that double `n` up to `d`, where on tails in a round of
one flip the game goes on for the overshoot. -/
def play (d : Nat) : Nat → Nat → Flipper → Bool × Flipper
  | 0, _, f => (false, f)
  | rounds + 1, n, f =>
    if d ≤ n then
      (true, f)
    else
      let flips := min (max (d.log2 - (n.log2 + 1)) 1) 32
      match f.heads flips with
      | (true, f) => play d rounds (n * Nat.pow 2 flips) f
      | (false, f) =>
        if flips = 1 ∧ d < 2 * n then play d rounds (2 * n - d) f else (false, f)

/-- A bound on the rounds of a game, far above what any sequence of flips takes. -/
def maxRounds : Nat := 4611686018427387904

/-- A truth value that is true with probability `1 / d`. -/
def oneIn (d : Nat) (f : Flipper) : Bool × Flipper :=
  let flips := min d.log2 32
  match f.heads flips with
  | (true, f) => play d maxRounds (Nat.pow 2 flips) f
  | (false, f) => (false, f)

/-- The choice after the rest of a list, of which `k` elements have been seen. -/
def chooseFrom {α : Type} : Nat → Option α → List α → Flipper → Option α × Flipper
  | _, choice, [], f => (choice, f)
  | k, choice, x :: xs, f =>
    match f.oneIn (k + 1) with
    | (true, f) => chooseFrom (k + 1) (some x) xs f
    | (false, f) => chooseFrom (k + 1) choice xs f

end Flipper

/-- An element of a list, each with the same probability, none of the empty list. Unused flips are lost. -/
def Generator.choose {α : Type} (g : Generator) (xs : List α) : Option α × Generator :=
  let (choice, f) := Flipper.chooseFrom 0 none xs { source := g }
  (choice, f.source)

end ClauseLearning
