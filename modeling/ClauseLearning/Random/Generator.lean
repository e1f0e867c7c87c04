/-!
# A permuted congruential generator

`Generator` is a 64-bit linear congruential generator whose old state is permuted into each 32-bit output. Wider words
and bytes are made of these outputs, the low bits first.
-/

namespace ClauseLearning

/-- The state and the increment of a linear congruential generator modulo `2 ^ 64`. -/
structure Generator where
  /-- The state. -/
  state : UInt64 := 0
  /-- What each step adds. -/
  increment : UInt64 := 0
deriving DecidableEq, Inhabited, Repr

namespace Generator

/-- The factor of each step. -/
def multiplier : UInt64 := 6364136223846793005

/-- The increment of every seeded generator. -/
def seededIncrement : UInt64 := 1442695040888963407

/-- The rotation of a word to the right, by an amount modulo 32. -/
def rotateRight (x amount : UInt32) : UInt32 := (x >>> amount) ||| (x <<< (32 - amount))

/-- The output for a state: its upper bits, folded and rotated by its uppermost five. -/
def output (state : UInt64) : UInt32 :=
  rotateRight (((state >>> 18) ^^^ state) >>> 27).toUInt32 (state >>> 59).toUInt32

/-- The next 32-bit word. -/
def next (g : Generator) : UInt32 × Generator :=
  (output g.state, { g with state := g.state * multiplier + g.increment })

/-- The generator for a seed, which enters between two steps. -/
def ofSeed (seed : UInt64) : Generator :=
  let g := (Generator.mk 0 seededIncrement).next.2
  { g with state := g.state + seed }.next.2

/-- The next 64-bit word, made of two outputs. -/
def next64 (g : Generator) : UInt64 × Generator :=
  let (low, g) := g.next
  let (high, g) := g.next
  (low.toUInt64 ||| (high.toUInt64 <<< 32), g)

/-- The lowest `n` bytes of a word, the low one first. -/
def lowBytes (word : UInt64) : Nat → List UInt8
  | 0 => []
  | n + 1 => word.toUInt8 :: lowBytes (word >>> 8) n

/-- The next `n` bytes: eight of a 64-bit word at a time, and the rest of one such word, or of one 32-bit word if this
is enough. -/
def bytes (g : Generator) (n : Nat) : List UInt8 × Generator :=
  if n = 0 then
    ([], g)
  else if n ≤ 4 then
    let (word, g) := g.next
    (lowBytes word.toUInt64 n, g)
  else
    let (word, g) := g.next64
    let (rest, g) := g.bytes (n - 8)
    (lowBytes word (min n 8) ++ rest, g)
termination_by n

end Generator

end ClauseLearning
