import ClauseLearning.Error

/-!
# Index heaps

An `IndexHeap` stores a value for each index and keeps some of the indices, the active ones, on a binary heap with a
greatest value on top. A table of positions finds an index on the heap, so that indices can be taken off or moved when
their values change. Values stay when their indices leave the heap. `HeapM` are the operations on an index heap, which
stop at an access out of the range of one of its tables.
-/

namespace ClauseLearning

/-- Values by index, with a heap of the active indices. -/
structure IndexHeap (α : Type) where
  /-- The value of each index. -/
  values : Array α := #[]
  /-- The position on the heap of each index, if it is active. -/
  position : Array (Option Nat) := #[]
  /-- The active indices below the limit: the children of position `p` are at `2p + 1` and `2p + 2`. There is room for
  all indices, and what stands from the limit on is left over. -/
  heap : Array Nat := #[]
  /-- The number of active indices. -/
  limit : Nat := 0
deriving Inhabited

/-- An operation on an index heap. -/
abbrev HeapM (α : Type) := EStateM Breach (IndexHeap α)

namespace IndexHeap

variable {α : Type}

/-- The number of indices. -/
def size (h : IndexHeap α) : Nat := h.values.size

/-- The number of active indices. -/
def activeCount (h : IndexHeap α) : Nat := h.limit

/-- Whether no index is active. -/
def isEmpty (h : IndexHeap α) : Bool := h.activeCount == 0

/-- Whether an index is active. -/
def isActive (h : IndexHeap α) (i : Nat) : Bool := h.position[i]?.join.isSome

/-- What room on the heap holds that was never used. -/
def unused : Nat := UInt64.size - 1

/-! ## Access to the tables -/

/-- Goes on only if an access is in range. -/
def require (inside : Bool) : HeapM α Unit := if inside then pure () else throw .outOfRange

/-- The entry at an index of a table. -/
def entry {β : Type} (table : IndexHeap α → Array β) (i : Nat) : HeapM α β := do
  match (table (← get))[i]? with
  | some b => return b
  | none => throw .outOfRange

/-- The value of an index. -/
def readValue (i : Nat) : HeapM α α := entry values i

/-- The position of an index, if it is active. -/
def positionOf (i : Nat) : HeapM α (Option Nat) := entry position i

/-- The index at a position. -/
def indexAt (p : Nat) : HeapM α Nat := entry heap p

/-- Writes the position of an index. -/
def setPosition (i : Nat) (p : Option Nat) : HeapM α Unit := do
  require (i < (← get).position.size)
  modify fun h => { h with position := h.position.setIfInBounds i p }

/-- Writes the index at a position. -/
def setIndex (p i : Nat) : HeapM α Unit := do
  require (p < (← get).heap.size)
  modify fun h => { h with heap := h.heap.setIfInBounds p i }

/-- A new value for an index, which may leave the heap out of order. -/
def revalue (i : Nat) (value : α) : HeapM α Unit := do
  require (i < (← get).values.size)
  modify fun h => { h with values := h.values.setIfInBounds i value }

/-- New values for all indices, which may leave the heap out of order. -/
def mapValues (f : α → α) : HeapM α Unit := modify fun h => { h with values := h.values.map f }

/-- The index on top of the heap. -/
def peek : HeapM α (Option Nat) := do
  if (← get).limit = 0 then return none else return some (← indexAt 0)

/-- The value on top of the heap. -/
def peekValue : HeapM α (Option α) := do
  match ← peek with
  | none => return none
  | some i => return some (← readValue i)

/-- The value of the index at a position. -/
def valueOn (p : Nat) : HeapM α α := do readValue (← indexAt p)

/-- Swaps what stands at two positions, and leaves the table of positions behind. -/
def swapIndices (p q : Nat) : HeapM α Unit := do
  let i ← indexAt p
  let j ← indexAt q
  setIndex p j
  setIndex q i

/-- Swaps the indices at two positions. -/
def swap (p q : Nat) : HeapM α Unit := do
  swapIndices p q
  setPosition (← indexAt p) (some p)
  setPosition (← indexAt q) (some q)

/-! ## Sifting -/

section Sifting

variable [LT α] [DecidableLT α]

/-- Whether the value at one position is greater than that at another. -/
def exceeds (p q : Nat) : HeapM α Bool := do return decide ((← valueOn q) < (← valueOn p))

/-- Whether a position is below a limit and its value is greater than that at another. -/
def exceedsBelow (limit p q : Nat) : HeapM α Bool := if p < limit then exceeds p q else return false

/-- Moves the index at a position down, among the positions below a limit, until neither child has a greater value. The
left one of two children with equal values moves up. -/
def siftDownBelow (limit p : Nat) : HeapM α Unit := do
  if 2 * p + 1 < limit then
    let left ← exceeds (2 * p + 1) p
    let right ← exceedsBelow limit (2 * p + 2) (if left then 2 * p + 1 else p)
    if right then
      swap p (2 * p + 2)
      siftDownBelow limit (2 * p + 2)
    else if left then
      swap p (2 * p + 1)
      siftDownBelow limit (2 * p + 1)
termination_by limit - p

/-- Moves the index at a position down until neither child has a greater value. -/
def siftDown (p : Nat) : HeapM α Unit := do siftDownBelow (← get).limit p

/-- Moves the index at a position up while the parent has a smaller value. -/
def siftUp : Nat → HeapM α Unit
  | 0 => pure ()
  | p + 1 => do
    if ← exceeds (p + 1) (p / 2) then
      swap (p + 1) (p / 2)
      siftUp (p / 2)
termination_by p => p

/-! ## Operations -/

/-- Puts an index on the heap, and tells whether it was not active. -/
def activate (i : Nat) : HeapM α Bool := do
  match ← positionOf i with
  | some p =>
    siftUp p
    return false
  | none =>
    let p := (← get).limit
    setIndex p i
    setPosition i (some p)
    modify fun h => { h with limit := h.limit + 1 }
    siftUp p
    return true

/-- Takes an index off the heap, and tells whether it was active. The last index on the heap fills the gap. -/
def remove (i : Nat) : HeapM α Bool := do
  match ← positionOf i with
  | none => return false
  | some p =>
    require (0 < (← get).limit)
    modify fun h => { h with limit := h.limit - 1 }
    let limit := (← get).limit
    let last ← indexAt limit
    swapIndices p limit
    setPosition i none
    if p < limit then
      setPosition last (some p)
      siftDown p
      siftUp p
    return true

/-- Moves an active index to its place after a change of its value. -/
def restore (i : Nat) : HeapM α Unit := do
  match ← positionOf i with
  | some p =>
    siftUp p
    siftDown p
  | none => pure ()

/-- Sifts down the positions below `n`, the last one first. -/
def siftAll : Nat → HeapM α Unit
  | 0 => pure ()
  | n + 1 => do
    siftDown n
    siftAll n

/-- Puts the heap in order from scratch. -/
def reheap : HeapM α Unit := do siftAll ((← get).limit / 2)

/-- Takes the index on top off the heap. -/
def pop : HeapM α (Option Nat) := do
  match ← peek with
  | none => return none
  | some i =>
    discard (remove i)
    return some i

/-- Takes indices off the heap, up to `n` of them. -/
def popMany : Nat → HeapM α (List Nat)
  | 0 => return []
  | n + 1 => do
    match ← pop with
    | none => return []
    | some i => return i :: (← popMany n)

/-- Takes all indices off the heap. -/
def drain : HeapM α (List Nat) := do popMany (← get).limit

end Sifting

section Growth

variable [Inhabited α]

/-- The value of an index, or a default one. -/
def valueAt (h : IndexHeap α) (i : Nat) : α := h.values[i]?.getD default

/-- The heap with room for an index, which has a value, and for all before it, which have the default value if they are
new. Those that are new are not active. -/
def grown (h : IndexHeap α) (i : Nat) (v : α) : IndexHeap α :=
  { h with
    values := (h.values ++ Array.replicate (i - h.size) default).push v
    position := h.position ++ Array.replicate (i - h.size + 1) none
    heap := h.heap ++ Array.replicate (i - h.size + 1) unused }

/-- Gives an index a value, and tells whether the index is new. -/
def add (i : Nat) (value : α) : HeapM α Bool := do
  if i < (← get).size then
    revalue i value
    return false
  else
    modify (·.grown i value)
    return true

end Growth

end IndexHeap

end ClauseLearning
