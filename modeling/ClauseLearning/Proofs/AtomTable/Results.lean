import ClauseLearning.Proofs.Heap.Sifting
import ClauseLearning.AtomTable.Activity

/-!
# What operations on atom tables leave

Where no access is out of range, an operation on an atom table leaves the table that is given here under the name of the
operation: the entries of one atom are written, one is pushed, or the activities are changed. Tables with one entry for
each atom in each part (`Aligned`) are left as such, and their entries are read off atom by atom (`valueOf_value`,
`levelOf_dropAll`, …). What only changes activities leaves all values as they are (`SameValues`).
-/

namespace ClauseLearning

namespace AtomTable

variable {a b : AtomTable} {l : Literal} {x n : Nat}

/-! ## What the operations leave -/

/-- The table with one more atom, which is active and has the given value to go back to. -/
def grow (a : AtomTable) (previous : Bool) : AtomTable :=
  { a with
    valuation := a.valuation.push none
    previous := a.previous.push previous
    levels := a.levels.push none
    reasons := a.reasons.push none
    activity := a.activity.after do
      discard (IndexHeap.add a.size 0)
      IndexHeap.activate a.size }

/-- The table with a literal made true at a level, by an antecedent if there is one. -/
def value (a : AtomTable) (l : Literal) (level : Nat) (reason : Option ClauseKey) : AtomTable :=
  { a with
    valuation := a.valuation.setIfInBounds l.atom (some l.polarity)
    levels := a.levels.setIfInBounds l.atom (some level)
    reasons := a.reasons.setIfInBounds l.atom reason }

/-- The table without the value of an atom, which becomes the previous one; the atom is active again. -/
def dropValue (a : AtomTable) (x : Nat) : AtomTable :=
  let previous := (a.valueOf x).getD (a.previous[x]?.getD false)
  { a with
    valuation := a.valuation.setIfInBounds x none
    previous := a.previous.setIfInBounds x previous
    activity := a.activity.after (IndexHeap.activate x)
    levels := a.levels.setIfInBounds x none
    reasons := a.reasons.setIfInBounds x none }

/-- The table with all activities, and the next bump, divided by the greatest of them. -/
def rescale (a : AtomTable) : AtomTable :=
  let factor := 1 / a.activity.values.foldl floatMax a.bump.value
  { a with
    activity := a.activity.after do
      IndexHeap.mapValues (· * factor)
      IndexHeap.reheap
    bump := a.bump.force (a.bump.value * factor) }

/-- The table with an atom bumped. -/
def bumpActivity (a : AtomTable) (x : Nat) : AtomTable :=
  let activity := a.activityOf x + a.bump.value
  { a with
    activity := a.activity.after do
      IndexHeap.revalue x activity
      IndexHeap.restore x }

/-- The table with an atom bumped, after a rescaling if the activity would outgrow the greatest bump. -/
def bumpRelative (a : AtomTable) (x : Nat) : AtomTable :=
  let a := if a.bump.greatest < a.activityOf x + a.bump.value then a.rescale else a
  a.bumpActivity x

/-- The table with a greater next bump. -/
def decayActivity (a : AtomTable) : AtomTable :=
  let value := a.bump.value * (1 / (1 - a.decay.value))
  let outgrown := a.bump.greatest < value
  let a := { a with bump := a.bump.force value }
  if outgrown then a.rescale else a

/-- The most active atom, and the table with this atom off the heap. -/
def popMostActive (a : AtomTable) : Option Nat × AtomTable :=
  (if a.activity.limit = 0 then none else some (a.activity.index 0),
    { a with activity := a.activity.after IndexHeap.pop })

/-- The first of the most active atoms that has no value, at most the `n`-th, and the table with the atoms
up to this one off the heap. -/
def popUnvalued : Nat → AtomTable → Option Nat × AtomTable
  | 0, a => (none, a)
  | n + 1, a =>
    match a.popMostActive with
    | (none, a) => (none, a)
    | (some x, a) => if (a.valueOf x).isNone then (some x, a) else popUnvalued n a

/-! ## Changes of the table, atom by atom -/

section Entries

variable {α : Type} {xs : Array (Option α)} {i : Nat}

theorem join_setIfInBounds (hi : i < xs.size) (v : Option α) (j : Nat) :
    (xs.setIfInBounds i v)[j]?.join = if j = i then v else xs[j]?.join := by
  by_cases hj : j = i
  · rw [hj, Array.getElem?_setIfInBounds_self_of_lt hi, if_pos rfl]
    rfl
  · rw [Array.getElem?_setIfInBounds_ne (Ne.symm hj), if_neg hj]

/-- No entry is left, whether or not there was a place for one. -/
theorem join_setIfInBounds_none (xs : Array (Option α)) (i j : Nat) :
    (xs.setIfInBounds i none)[j]?.join = if j = i then none else xs[j]?.join := by
  by_cases hj : j = i
  · rw [hj, Array.getElem?_setIfInBounds_self, if_pos rfl]
    split <;> rfl
  · rw [Array.getElem?_setIfInBounds_ne (Ne.symm hj), if_neg hj]

theorem join_push_none (xs : Array (Option α)) (j : Nat) : (xs.push none)[j]?.join = xs[j]?.join := by
  rw [Array.getElem?_push]
  split
  · rename_i hj
    rw [Array.getElem?_eq_none (Nat.le_of_eq hj.symm)]
    rfl
  · rfl

theorem ite_mem_cons (l : Literal) (ls : List Literal) (x : Nat) (v : Option α) :
    (if x ∈ ls.map (·.atom) then none else if x = l.atom then none else v) =
      if x ∈ (l :: ls).map (·.atom) then none else v := by
  rw [List.map_cons]
  by_cases hx : x = l.atom
  · rw [if_pos hx, if_pos (List.mem_cons.mpr (Or.inl hx)), ite_self]
  · have hiff : x ∈ l.atom :: ls.map (·.atom) ↔ x ∈ ls.map (·.atom) := List.mem_cons.trans (or_iff_right hx)
    simp only [hiff, if_neg hx]

end Entries

@[simp] theorem size_value (a : AtomTable) (l : Literal) (n : Nat) (r : Option ClauseKey) :
    (a.value l n r).size = a.size := by simp [value, size]

theorem valueOf_value (hl : l.atom < a.size) (r : Option ClauseKey) (x : Nat) :
    (a.value l n r).valueOf x = if x = l.atom then some l.polarity else a.valueOf x := join_setIfInBounds hl _ x

theorem levelOf_value (hl : l.atom < a.levels.size) (r : Option ClauseKey) (x : Nat) :
    (a.value l n r).levelOf x = if x = l.atom then some n else a.levelOf x := join_setIfInBounds hl _ x

theorem reasonOf_value (hl : l.atom < a.reasons.size) (r : Option ClauseKey) (x : Nat) :
    (a.value l n r).reasonOf x = if x = l.atom then r else a.reasonOf x := join_setIfInBounds hl _ x

@[simp] theorem size_dropValue (a : AtomTable) (x : Nat) : (a.dropValue x).size = a.size := by simp [dropValue, size]

theorem valueOf_dropValue (a : AtomTable) (x y : Nat) :
    (a.dropValue x).valueOf y = if y = x then none else a.valueOf y := join_setIfInBounds_none _ x y

theorem levelOf_dropValue (a : AtomTable) (x y : Nat) :
    (a.dropValue x).levelOf y = if y = x then none else a.levelOf y := join_setIfInBounds_none _ x y

theorem reasonOf_dropValue (a : AtomTable) (x y : Nat) :
    (a.dropValue x).reasonOf y = if y = x then none else a.reasonOf y := join_setIfInBounds_none _ x y

/-- The table without the values of the atoms of literals. -/
def dropAll (a : AtomTable) : List Literal → AtomTable
  | [] => a
  | l :: ls => (a.dropValue l.atom).dropAll ls

@[simp] theorem size_dropAll (a : AtomTable) (ls : List Literal) : (a.dropAll ls).size = a.size := by
  induction ls generalizing a with
  | nil => rfl
  | cons l ls ih => rw [dropAll, ih, size_dropValue]

theorem valueOf_dropAll (a : AtomTable) (ls : List Literal) (x : Nat) :
    (a.dropAll ls).valueOf x = if x ∈ ls.map (·.atom) then none else a.valueOf x := by
  induction ls generalizing a with
  | nil => simp [dropAll]
  | cons l ls ih => rw [dropAll, ih, valueOf_dropValue, ite_mem_cons]

theorem levelOf_dropAll (a : AtomTable) (ls : List Literal) (x : Nat) :
    (a.dropAll ls).levelOf x = if x ∈ ls.map (·.atom) then none else a.levelOf x := by
  induction ls generalizing a with
  | nil => simp [dropAll]
  | cons l ls ih => rw [dropAll, ih, levelOf_dropValue, ite_mem_cons]

theorem reasonOf_dropAll (a : AtomTable) (ls : List Literal) (x : Nat) :
    (a.dropAll ls).reasonOf x = if x ∈ ls.map (·.atom) then none else a.reasonOf x := by
  induction ls generalizing a with
  | nil => simp [dropAll]
  | cons l ls ih => rw [dropAll, ih, reasonOf_dropValue, ite_mem_cons]

theorem previousOf_dropValue (a : AtomTable) (x y : Nat) : (a.dropValue x).previousOf y =
    if y = x then (a.previousOf y).map (a.valueOf y).getD else a.previousOf y := by
  by_cases hy : y = x
  · rw [if_pos hy, hy, previousOf, previousOf, dropValue, Array.getElem?_setIfInBounds_self]
    split
    · rename_i hx
      rw [Array.getElem?_eq_getElem hx]
      rfl
    · rename_i hx
      rw [Array.getElem?_eq_none (Nat.le_of_not_lt hx)]
      rfl
  · rw [if_neg hy, previousOf, previousOf, dropValue, Array.getElem?_setIfInBounds_ne (Ne.symm hy)]

theorem dropAll_eq (a : AtomTable) (ls : List Literal) :
    (a.dropAll ls).bump = a.bump ∧ (a.dropAll ls).decay = a.decay := by
  induction ls generalizing a with
  | nil => exact ⟨rfl, rfl⟩
  | cons l ls ih => exact ih (a.dropValue l.atom)

@[simp] theorem size_grow (a : AtomTable) (p : Bool) : (a.grow p).size = a.size + 1 := by simp [grow, size]

theorem valueOf_grow (a : AtomTable) (p : Bool) (x : Nat) : (a.grow p).valueOf x = a.valueOf x :=
  join_push_none _ x

theorem levelOf_grow (a : AtomTable) (p : Bool) (x : Nat) : (a.grow p).levelOf x = a.levelOf x :=
  join_push_none _ x

theorem reasonOf_grow (a : AtomTable) (p : Bool) (x : Nat) : (a.grow p).reasonOf x = a.reasonOf x :=
  join_push_none _ x

/-- The value of an atom, where it has one, is the value of an atom of the table. -/
theorem lt_size_of_valueOf {p : Bool} (h : a.valueOf x = some p) : x < a.size := by
  simp only [valueOf, Valuation.valueOf, Option.join_eq_some_iff] at h
  exact (Array.getElem?_eq_some_iff.mp h).1

/-- A literal can be made true if its atom is known and has no value. -/
theorem isOpen_iff : a.isOpen l = .ok true ↔ l.atom < a.size ∧ a.valueOf l.atom = none := by
  unfold isOpen valueOf Valuation.valueOf
  by_cases hk : l.atom < a.size
  · rw [Array.getElem?_eq_getElem hk]
    cases a.valuation[l.atom] with
    | none => simp [hk]
    | some v => by_cases hv : v = l.polarity <;> simp [hv]
  · rw [Array.getElem?_eq_none (Nat.le_of_not_lt hk)]
    simp [hk]

/-! ## Tables with an entry for each atom -/

/-- All parts of the table have one entry for each atom. -/
structure Aligned (a : AtomTable) : Prop where
  previous : a.previous.size = a.size
  levels : a.levels.size = a.size
  reasons : a.reasons.size = a.size
  activity : a.activity.size = a.size
  linked : a.activity.Linked

theorem Aligned.value (h : a.Aligned) (l : Literal) (n : Nat) (r : Option ClauseKey) : (a.value l n r).Aligned := by
  refine ⟨?_, ?_, ?_, ?_, h.linked⟩ <;> rw [size_value] <;>
    simp [AtomTable.value, h.previous, h.levels, h.reasons, h.activity]

theorem Aligned.dropValue (h : a.Aligned) (x : Nat) : (a.dropValue x).Aligned := by
  have hx := h.linked.after_activate x
  refine ⟨?_, ?_, ?_, ?_, hx.linked⟩ <;> rw [size_dropValue]
  · simp [AtomTable.dropValue, h.previous]
  · simp [AtomTable.dropValue, h.levels]
  · simp [AtomTable.dropValue, h.reasons]
  · exact (congrArg Array.size hx.values).trans h.activity

theorem Aligned.dropAll (h : a.Aligned) (ls : List Literal) : (a.dropAll ls).Aligned := by
  induction ls generalizing a with
  | nil => exact h
  | cons l ls ih => exact ih (h.dropValue l.atom)

theorem Aligned.isActive_dropValue (h : a.Aligned) (x y : Nat) :
    (a.dropValue x).activity.isActive y = if y = x then decide (y < a.size) else a.activity.isActive y := by
  have hx := h.linked.after_activate x
  rw [AtomTable.dropValue, hx.active, Function.update_apply, ← h.activity]
  split
  · rename_i hy
    rw [hy]
  · rfl

/-- Activities stay as they are. -/
theorem Aligned.activities_dropAll (h : a.Aligned) (ls : List Literal) :
    (a.dropAll ls).activity.values = a.activity.values := by
  induction ls generalizing a with
  | nil => rfl
  | cons l ls ih => exact (ih (h.dropValue l.atom)).trans (h.linked.after_activate l.atom).values

theorem Aligned.grow (h : a.Aligned) (p : Bool) : (a.grow p).Aligned := by
  have hx := (h.linked.holds_add_activate 0).holds_after
  rw [h.activity] at hx
  refine ⟨?_, ?_, ?_, ?_, hx.linked⟩ <;> rw [size_grow]
  · simp [AtomTable.grow, h.previous]
  · simp [AtomTable.grow, h.levels]
  · simp [AtomTable.grow, h.reasons]
  · rw [← h.activity]
    exact (congrArg Array.size hx.values).trans (Array.size_push 0)

theorem aligned_ofConfig (config : Config) : (ofConfig config).Aligned :=
  ⟨rfl, rfl, rfl, rfl, (IndexHeap.linked_empty.grown topAtom (0 : Float)).linked⟩

/-! ## Changes of activities -/

/-- The tables differ in activities only, and those of the second are in order if those of the first are. -/
structure SameValues (a b : AtomTable) : Prop where
  valuation : b.valuation = a.valuation
  previous : b.previous = a.previous
  levels : b.levels = a.levels
  reasons : b.reasons = a.reasons
  activity : a.activity.Linked → b.activity.Linked ∧ b.activity.size = a.activity.size

theorem SameValues.refl (a : AtomTable) : a.SameValues a := ⟨rfl, rfl, rfl, rfl, fun hl => ⟨hl, rfl⟩⟩

theorem SameValues.trans {c : AtomTable} (h : a.SameValues b) (h' : b.SameValues c) : a.SameValues c :=
  ⟨h'.valuation.trans h.valuation, h'.previous.trans h.previous, h'.levels.trans h.levels, h'.reasons.trans h.reasons,
    fun hl => ⟨(h'.activity (h.activity hl).1).1, (h'.activity (h.activity hl).1).2.trans (h.activity hl).2⟩⟩

theorem SameValues.size_eq (h : a.SameValues b) : b.size = a.size := by rw [size, h.valuation, size]

theorem SameValues.valueOf_eq (h : a.SameValues b) : b.valueOf = a.valueOf := by
  funext x
  rw [valueOf, h.valuation, valueOf]

theorem SameValues.levelOf_eq (h : a.SameValues b) : b.levelOf = a.levelOf := by
  funext x
  rw [levelOf, h.levels, levelOf]

theorem SameValues.reasonOf_eq (h : a.SameValues b) : b.reasonOf = a.reasonOf := by
  funext x
  rw [reasonOf, h.reasons, reasonOf]

theorem SameValues.aligned (h : a.SameValues b) (ha : a.Aligned) : b.Aligned :=
  ⟨by rw [h.previous, h.size_eq]; exact ha.previous, by rw [h.levels, h.size_eq]; exact ha.levels,
    by rw [h.reasons, h.size_eq]; exact ha.reasons, by rw [(h.activity ha.linked).2, h.size_eq]; exact ha.activity,
    (h.activity ha.linked).1⟩

theorem sameValues_rescale (a : AtomTable) : a.SameValues a.rescale :=
  ⟨rfl, rfl, rfl, rfl, fun hl =>
    have hx := (hl.holds_mapValues_reheap (· * (1 / a.activity.values.foldl floatMax a.bump.value))).holds_after
    ⟨hx.linked, (congrArg Array.size hx.values).trans Array.size_map⟩⟩

theorem sameValues_bumpActivity (a : AtomTable) (x : Nat) : a.SameValues (a.bumpActivity x) :=
  ⟨rfl, rfl, rfl, rfl, fun hl =>
    have hx := hl.after_revalue_restore x (a.activityOf x + a.bump.value)
    ⟨hx.linked, (congrArg Array.size hx.values).trans Array.size_setIfInBounds⟩⟩

theorem sameValues_bumpRelative (a : AtomTable) (x : Nat) : a.SameValues (a.bumpRelative x) := by
  unfold bumpRelative
  split
  · exact (sameValues_rescale a).trans (sameValues_bumpActivity _ x)
  · exact sameValues_bumpActivity a x

theorem sameValues_foldl_bumpRelative (a : AtomTable) (xs : List Nat) : a.SameValues (xs.foldl bumpRelative a) := by
  induction xs generalizing a with
  | nil => exact SameValues.refl a
  | cons x xs ih => exact (sameValues_bumpRelative a x).trans (ih _)

theorem sameValues_decayActivity (a : AtomTable) : a.SameValues a.decayActivity := by
  have h : a.SameValues { a with bump := a.bump.force (a.bump.value * (1 / (1 - a.decay.value))) } :=
    ⟨rfl, rfl, rfl, rfl, fun hl => ⟨hl, rfl⟩⟩
  unfold decayActivity
  simp only
  split
  · exact h.trans (sameValues_rescale _)
  · exact h

theorem sameValues_popMostActive (a : AtomTable) : a.SameValues a.popMostActive.2 :=
  ⟨rfl, rfl, rfl, rfl, fun hl => by
    obtain ⟨_, -, -, hx⟩ := hl.holds_pop.after
    exact ⟨hx.linked, congrArg Array.size hx.values⟩⟩

theorem sameValues_popUnvalued (n : Nat) (a : AtomTable) : a.SameValues (popUnvalued n a).2 := by
  induction n generalizing a with
  | zero => exact SameValues.refl a
  | succ n ih =>
    have h := sameValues_popMostActive a
    unfold popUnvalued
    split
    · rename_i b hb
      rw [hb] at h
      exact h
    · rename_i x b hb
      rw [hb] at h
      split
      · exact h
      · exact h.trans (ih b)

theorem Aligned.lt_of_popMostActive (h : a.Aligned) (hx : a.popMostActive.1 = some x) : x < a.activity.size := by
  unfold popMostActive at hx
  split at hx
  · cases hx
  · cases hx
    exact h.linked.lt_size (h.linked.isActive_index (by omega))

/-- An atom taken off the heap for a decision is known and has no value. -/
theorem Aligned.popUnvalued_some (h : a.Aligned) (hx : (popUnvalued n a).1 = some x) :
    x < a.size ∧ a.valueOf x = none := by
  induction n generalizing a with
  | zero => cases hx
  | succ n ih =>
    have hs := sameValues_popMostActive a
    unfold popUnvalued at hx
    split at hx
    · cases hx
    · rename_i y b hb
      have hb2 : b = a.popMostActive.2 := by rw [hb]
      have hb1 : a.popMostActive.1 = some y := by rw [hb]
      rw [← hb2] at hs
      split at hx
      · rename_i hv
        cases hx
        refine ⟨?_, by simpa [hs.valueOf_eq] using hv⟩
        rw [← h.activity]
        exact h.lt_of_popMostActive hb1
      · have := ih (hs.aligned h) hx
        rwa [hs.size_eq, hs.valueOf_eq] at this

end AtomTable

end ClauseLearning
