import Mathlib.Data.List.Nodup
import Mathlib.Data.List.Perm.Subperm
import ClauseLearning.Proofs.Heap.Returns

/-!
# Positions on an index heap

The table of positions and the heap refer to each other: an index has a position if and only if it stands there, below
the limit (`Linked`). All operations keep this, whatever the order of the values, so that no access is out of range:
there is room on the heap for one more index as long as an index is not active (`Linked.limit_lt`). What a sift does is
a series of swaps, which bring the active indices in another order (`Resorted`).
-/

namespace ClauseLearning

namespace IndexHeap

variable {α : Type}

/-- The table of positions and the heap refer to each other. -/
structure Linked (h : IndexHeap α) : Prop where
  position_size : h.position.size = h.size
  heap_size : h.heap.size = h.size
  limit_le : h.limit ≤ h.size
  position_iff : ∀ {i p : Nat}, h.position[i]? = some (some p) ↔ p < h.limit ∧ h.heap[p]? = some i

theorem linked_empty : ({} : IndexHeap α).Linked := ⟨rfl, rfl, Nat.le_refl _, by simp⟩

variable {h h' : IndexHeap α} {i j p q n : Nat}

theorem isActive_iff : h.isActive i = true ↔ ∃ p, h.position[i]? = some (some p) := by
  rw [isActive, Option.isSome_iff_exists]
  exact exists_congr fun _ => Option.join_eq_some_iff

namespace Linked

variable (hl : h.Linked)
include hl

/-- What stands below the limit is an index, which has this position. -/
theorem index_below (hp : p < h.limit) : ∃ i, h.heap[p]? = some i ∧ i < h.size ∧ h.position[i]? = some (some p) := by
  have hp' : p < h.heap.size := by
    rw [hl.heap_size]
    exact Nat.lt_of_lt_of_le hp hl.limit_le
  have hi := hl.position_iff.mpr ⟨hp, Array.getElem?_eq_getElem hp'⟩
  refine ⟨_, Array.getElem?_eq_getElem hp', ?_, hi⟩
  have := (Array.getElem?_eq_some_iff.mp hi).1
  rwa [hl.position_size] at this

theorem isActive_iff : h.isActive i = true ↔ ∃ p, p < h.limit ∧ h.heap[p]? = some i := by
  rw [IndexHeap.isActive_iff]
  exact exists_congr fun _ => hl.position_iff

/-- An active index is the index of a value. -/
theorem lt_size (hi : h.isActive i = true) : i < h.size := by
  obtain ⟨p, hp⟩ := IndexHeap.isActive_iff.mp hi
  have := (Array.getElem?_eq_some_iff.mp hp).1
  rwa [hl.position_size] at this

theorem position_of_lt (hi : i < h.size) : h.position[i]? = some none ∨ ∃ p, h.position[i]? = some (some p) := by
  rw [← hl.position_size] at hi
  cases hx : h.position[i] with
  | none => exact Or.inl (by rw [Array.getElem?_eq_getElem hi, hx])
  | some p => exact Or.inr ⟨p, by rw [Array.getElem?_eq_getElem hi, hx]⟩

end Linked

/-! ## The number of active indices -/

/-- The active indices in the order of their positions. -/
def actives (h : IndexHeap α) : List Nat := h.heap.toList.take h.limit

theorem getElem?_actives (h : IndexHeap α) (p : Nat) : h.actives[p]? = if p < h.limit then h.heap[p]? else none := by
  rw [actives, List.getElem?_take, Array.getElem?_toList]

namespace Linked

variable (hl : h.Linked)
include hl

theorem length_actives : h.actives.length = h.limit := by
  rw [actives, List.length_take, Array.length_toList, hl.heap_size]
  exact Nat.min_eq_left hl.limit_le

theorem mem_actives : i ∈ h.actives ↔ h.isActive i = true := by
  rw [List.mem_iff_getElem?, hl.isActive_iff]
  refine exists_congr fun p => ?_
  rw [getElem?_actives]
  split <;> simp [*]

/-- No index stands at two positions. -/
theorem nodup_actives : h.actives.Nodup := by
  rw [List.nodup_iff_injective_get]
  intro a b heq
  have ha : h.position[h.actives.get a]? = some (some a.val) := by
    have := List.getElem?_eq_getElem a.isLt
    rw [getElem?_actives] at this
    split at this
    · exact hl.position_iff.mpr ⟨by assumption, this⟩
    · cases this
  have hb : h.position[h.actives.get b]? = some (some b.val) := by
    have := List.getElem?_eq_getElem b.isLt
    rw [getElem?_actives] at this
    split at this
    · exact hl.position_iff.mpr ⟨by assumption, this⟩
    · cases this
  rw [heq, hb] at ha
  exact Fin.ext (Option.some.inj (Option.some.inj ha)).symm

/-- The limit counts the active indices. -/
theorem limit_eq : h.limit = (List.range h.size).countP h.isActive := by
  rw [← hl.length_actives, List.countP_eq_length_filter]
  refine (List.perm_iff_count.mpr fun i => ?_).length_eq
  rw [hl.nodup_actives.count, (List.nodup_range.filter _).count]
  refine if_congr ?_ rfl rfl
  rw [hl.mem_actives, List.mem_filter, List.mem_range]
  exact ⟨fun hi => ⟨hl.lt_size hi, hi⟩, fun hi => hi.2⟩

/-- There is room on the heap for an index that is not active. -/
theorem limit_lt (hi : i < h.size) (hx : h.isActive i = false) : h.limit < h.size := by
  have hnodup : (i :: h.actives).Nodup := by
    rw [List.nodup_cons, hl.mem_actives, hx]
    exact ⟨Bool.false_ne_true, hl.nodup_actives⟩
  have hsub : i :: h.actives ⊆ List.range h.size := by
    intro j hj
    rw [List.mem_range]
    rcases List.mem_cons.mp hj with rfl | hj
    · exact hi
    · exact hl.lt_size (hl.mem_actives.mp hj)
  have := (hnodup.subperm hsub).length_le
  rwa [List.length_cons, hl.length_actives, List.length_range] at this

end Linked

/-! ## Swaps -/

/-- The index at a position. -/
def index (h : IndexHeap α) (p : Nat) : Nat := h.heap[p]?.getD 0

theorem Linked.heap_eq (hl : h.Linked) (hp : p < h.limit) : h.heap[p]? = some (h.index p) := by
  obtain ⟨i, hi, -⟩ := hl.index_below hp
  rw [index, hi]
  rfl

/-- The heap with the indices at two positions swapped. -/
def swapped (h : IndexHeap α) (p q : Nat) : IndexHeap α :=
  { h with
    heap := (h.heap.setIfInBounds p (h.index q)).setIfInBounds q (h.index p)
    position := (h.position.setIfInBounds (h.index q) (some p)).setIfInBounds (h.index p) (some q) }

theorem returns_swapIndices (hp : p < h.heap.size) (hq : q < h.heap.size) {Q : Unit → IndexHeap α → Prop} :
    Returns (swapIndices p q) h Q ↔ Q () { h with heap := (h.swapped p q).heap } := by
  have hip : h.heap[p]? = some (h.index p) := by simp [index, hp]
  have hiq : h.heap[q]? = some (h.index q) := by simp [index, hq]
  simp only [swapIndices, indexAt, returns_bind, returns_entry, hip, hiq, Option.some.injEq, exists_eq_left',
    returns_setIndex, Array.size_setIfInBounds, hp, hq, true_and]
  rfl

/-- The second heap has the same values and active indices, perhaps in another order. -/
structure Resorted (h h' : IndexHeap α) : Prop where
  linked : h'.Linked
  values : h'.values = h.values
  limit : h'.limit = h.limit
  active : h'.isActive = h.isActive

theorem Resorted.refl (hl : h.Linked) : h.Resorted h := ⟨hl, rfl, rfl, rfl⟩

theorem Resorted.trans {h'' : IndexHeap α} (h1 : h.Resorted h') (h2 : h'.Resorted h'') : h.Resorted h'' :=
  ⟨h2.linked, h2.values.trans h1.values, h2.limit.trans h1.limit, h2.active.trans h1.active⟩

section Swap

variable (hl : h.Linked) (hp : p < h.limit) (hq : q < h.limit)
include hl hp

theorem Linked.lt_heap : p < h.heap.size := by
  rw [hl.heap_size]
  exact Nat.lt_of_lt_of_le hp hl.limit_le

theorem Linked.lt_position : h.index p < h.position.size :=
  (Array.getElem?_eq_some_iff.mp (hl.position_iff.mpr ⟨hp, hl.heap_eq hp⟩)).1

include hq

theorem Linked.heap_swapped :
    (h.swapped p q).heap[n]? = if n = q then some (h.index p) else if n = p then some (h.index q) else h.heap[n]? := by
  have hps := hl.lt_heap hp
  have hqs := hl.lt_heap hq
  simp only [swapped, Array.getElem?_setIfInBounds, Array.size_setIfInBounds]
  grind

theorem Linked.position_swapped :
    (h.swapped p q).position[i]? =
      if i = h.index p then some (some q) else if i = h.index q then some (some p) else h.position[i]? := by
  have hps := hl.lt_position hp
  have hqs := hl.lt_position hq
  simp only [swapped, Array.getElem?_setIfInBounds, Array.size_setIfInBounds]
  grind

theorem Linked.index_swapped :
    (h.swapped p q).index n = if n = q then h.index p else if n = p then h.index q else h.index n := by
  rw [index, hl.heap_swapped hp hq]
  split
  · rfl
  · split <;> rfl

theorem Linked.swapped : (h.swapped p q).Linked := by
  refine ⟨by simpa [IndexHeap.swapped, size] using hl.position_size,
    by simpa [IndexHeap.swapped, size] using hl.heap_size, hl.limit_le, fun {i r} => ?_⟩
  have hir := hl.position_iff (i := i) (p := r)
  have ha := hl.heap_eq hp
  have hb := hl.heap_eq hq
  have ha' := hl.position_iff.mpr ⟨hp, ha⟩
  have hb' := hl.position_iff.mpr ⟨hq, hb⟩
  have hlimit : (h.swapped p q).limit = h.limit := rfl
  rw [hl.heap_swapped hp hq, hl.position_swapped hp hq, hlimit]
  grind

theorem Linked.resorted_swapped : h.Resorted (h.swapped p q) := by
  refine ⟨hl.swapped hp hq, rfl, rfl, funext fun i => ?_⟩
  have ha := hl.position_iff.mpr ⟨hp, hl.heap_eq hp⟩
  have hb := hl.position_iff.mpr ⟨hq, hl.heap_eq hq⟩
  rw [isActive, isActive, hl.position_swapped hp hq]
  split
  · rename_i heq
    rw [heq, ha]
    rfl
  · split
    · rename_i heq
      rw [heq, hb]
      rfl
    · rfl

theorem Linked.returns_swap {Q : Unit → IndexHeap α → Prop} : Returns (swap p q) h Q ↔ Q () (h.swapped p q) := by
  have hps := hl.lt_position hp
  have hqs := hl.lt_position hq
  have hat : (h.swapped p q).heap[p]? = some (h.index q) := by
    rw [hl.heap_swapped hp hq]
    split
    · rename_i heq
      rw [heq]
    · rw [if_pos rfl]
  have hat' : (h.swapped p q).heap[q]? = some (h.index p) := by rw [hl.heap_swapped hp hq, if_pos rfl]
  rw [swap, returns_bind, returns_swapIndices (hl.lt_heap hp) (hl.lt_heap hq)]
  simp only [indexAt, returns_bind, returns_entry, hat, hat', Option.some.injEq, exists_eq_left', returns_setPosition,
    Array.size_setIfInBounds, hps, hqs, true_and]
  rfl

end Swap

/-! ## What stands on the heap -/

theorem Linked.returns_peek (hl : h.Linked) {Q : Option Nat → IndexHeap α → Prop} :
    Returns peek h Q ↔ Q (if h.limit = 0 then none else some (h.index 0)) h := by
  rw [peek, returns_bind, returns_get]
  split
  · rw [returns_pure]
  · rename_i h0
    simp only [indexAt, returns_bind, returns_entry, hl.heap_eq (Nat.pos_of_ne_zero h0), Option.some.injEq,
      exists_eq_left', returns_pure]

/-- What stands below the limit is active. -/
theorem Linked.isActive_index (hl : h.Linked) (hp : p < h.limit) : h.isActive (h.index p) = true :=
  hl.isActive_iff.mpr ⟨p, hp, hl.heap_eq hp⟩

section Keys

variable [Inhabited α]

/-- The value of the index at a position. -/
def key (h : IndexHeap α) (p : Nat) : α := h.valueAt (h.index p)

theorem Linked.returns_valueOn (hl : h.Linked) (hp : p < h.limit) {Q : α → IndexHeap α → Prop} :
    Returns (valueOn p) h Q ↔ Q (h.key p) h := by
  obtain ⟨i, hi, hlt, -⟩ := hl.index_below hp
  have hkey : h.values[i]? = some (h.key p) := by
    rw [key, valueAt, index, hi]
    exact Array.getElem?_eq_getElem hlt ▸ rfl
  simp only [valueOn, indexAt, readValue, returns_bind, returns_entry, hi, hkey, Option.some.injEq, exists_eq_left']

theorem Linked.key_swapped (hl : h.Linked) (hp : p < h.limit) (hq : q < h.limit) :
    (h.swapped p q).key n = if n = q then h.key p else if n = p then h.key q else h.key n := by
  rw [key, hl.index_swapped hp hq]
  split
  · rfl
  · split <;> rfl

end Keys

/-! ## Changes of values, and of what is active -/

/-- What an operation leaves: a linked heap of these values and active indices. -/
structure Holds (h : IndexHeap α) (values : Array α) (active : Nat → Bool) : Prop where
  linked : h.Linked
  values : h.values = values
  active : h.isActive = active

theorem Resorted.holds (hr : h.Resorted h') : h'.Holds h.values h.isActive := ⟨hr.linked, hr.values, hr.active⟩

theorem Holds.resorted {values : Array α} {active : Nat → Bool} (hh : h.Holds values active) (hr : h.Resorted h') :
    h'.Holds values active := ⟨hr.linked, hr.values.trans hh.values, hr.active.trans hh.active⟩

/-- The heap with an index written at the limit. -/
def appended (h : IndexHeap α) (i : Nat) : IndexHeap α :=
  { h with
    position := h.position.setIfInBounds i (some h.limit)
    heap := h.heap.setIfInBounds h.limit i
    limit := h.limit + 1 }

/-- The heap without the index at a position, in whose place the last index stands. -/
def cut (h : IndexHeap α) (i p : Nat) : IndexHeap α :=
  let position := h.position.setIfInBounds i none
  { h with
    position := if p < h.limit - 1 then position.setIfInBounds (h.index (h.limit - 1)) (some p) else position
    heap := (h.swapped p (h.limit - 1)).heap
    limit := h.limit - 1 }

/-- The heap with a new value for an index. -/
def revalued (h : IndexHeap α) (i : Nat) (v : α) : IndexHeap α := { h with values := h.values.setIfInBounds i v }

/-- The heap after an index was added with a value. -/
def added [Inhabited α] (h : IndexHeap α) (i : Nat) (v : α) : IndexHeap α :=
  if i < h.size then h.revalued i v else h.grown i v

theorem size_added [Inhabited α] (h : IndexHeap α) (i : Nat) (v : α) : (h.added i v).size = max h.size (i + 1) := by
  rw [added]
  split
  · have hsize : (h.revalued i v).size = h.size := Array.size_setIfInBounds
    omega
  · have hsize : (h.grown i v).size = h.size + (i - h.size + 1) := by simp [grown, size]
    omega

/-- The index has the value, and all others keep theirs. -/
theorem valueAt_added [Inhabited α] (h : IndexHeap α) (i : Nat) (v : α) :
    (h.added i v).valueAt = Function.update h.valueAt i v := by
  funext j
  rw [added, Function.update_apply]
  split
  · simp only [revalued, valueAt, size] at *
    grind
  · simp only [grown, valueAt, size] at *
    grind

namespace Linked

variable (hl : h.Linked)
include hl

/-- Other values, as many as before. -/
theorem withValues {values : Array α} (hv : values.size = h.size) :
    ({ h with values := values } : IndexHeap α).Holds values h.isActive :=
  ⟨⟨by rw [size, hv]; exact hl.position_size, by rw [size, hv]; exact hl.heap_size, by rw [size, hv]; exact hl.limit_le,
    hl.position_iff⟩, rfl, rfl⟩

theorem grown [Inhabited α] (i : Nat) (v : α) :
    (h.grown i v).Holds ((h.values ++ Array.replicate (i - h.size) default).push v) h.isActive := by
  have hps := hl.position_size
  have hhs := hl.heap_size
  have hle := hl.limit_le
  refine ⟨⟨?_, ?_, ?_, fun {j p} => ?_⟩, rfl, funext fun j => ?_⟩
  · simp [IndexHeap.grown, size, hps]
  · simp [IndexHeap.grown, size, hhs]
  · simp [IndexHeap.grown, size] at hle ⊢
    omega
  · have hjp := hl.position_iff (i := j) (p := p)
    simp only [IndexHeap.grown, Array.getElem?_append, Array.getElem?_replicate]
    grind
  · simp only [isActive, IndexHeap.grown, Array.getElem?_append, Array.getElem?_replicate]
    grind

theorem added [Inhabited α] (i : Nat) (v : α) :
    (h.added i v).Holds (if i < h.size then h.values.setIfInBounds i v
      else (h.values ++ Array.replicate (i - h.size) default).push v) h.isActive := by
  rw [IndexHeap.added]
  split
  · exact hl.withValues Array.size_setIfInBounds
  · exact hl.grown i v

theorem appended (hi : i < h.size) (hx : h.position[i]? = some none) :
    (h.appended i).Holds h.values (Function.update h.isActive i true) := by
  have hlt := hl.limit_lt hi (by rw [isActive, hx]; rfl)
  have hps := hl.position_size
  have hhs := hl.heap_size
  refine ⟨⟨?_, ?_, hlt, fun {j p} => ?_⟩, rfl, funext fun j => ?_⟩
  · simpa [IndexHeap.appended, size] using hps
  · simpa [IndexHeap.appended, size] using hhs
  · have hjp := hl.position_iff (i := j) (p := p)
    simp only [IndexHeap.appended, Array.getElem?_setIfInBounds]
    grind
  · simp only [isActive, IndexHeap.appended, Function.update_apply, Array.getElem?_setIfInBounds]
    grind

theorem cut (hx : h.position[i]? = some (some p)) :
    (h.cut i p).Holds h.values (Function.update h.isActive i false) := by
  obtain ⟨hp, hi⟩ := hl.position_iff.mp hx
  have hlast : h.limit - 1 < h.limit := by omega
  have hj := hl.heap_eq hlast
  have hx' := hl.position_iff.mpr ⟨hlast, hj⟩
  have hindex : h.index p = i := Option.some.inj ((hl.heap_eq hp).symm.trans hi)
  have hposition : ∀ j, (h.cut i p).position[j]? =
      if p < h.limit - 1 ∧ j = h.index (h.limit - 1) then some (some p)
      else if j = i then some none else h.position[j]? := by
    intro j
    simp only [IndexHeap.cut]
    grind
  have hheap (r : Nat) : (h.cut i p).heap[r]? =
      if r = h.limit - 1 then some i else if r = p then some (h.index (h.limit - 1)) else h.heap[r]? := by
    rw [← hindex]
    exact hl.heap_swapped hp hlast
  refine ⟨⟨?_, ?_, Nat.le_trans (Nat.sub_le _ 1) hl.limit_le, fun {j r} => ?_⟩, rfl, funext fun j => ?_⟩
  · have hps : h.position.size = h.values.size := hl.position_size
    simp only [IndexHeap.cut, size]
    split <;> simpa using hps
  · have hhs : h.heap.size = h.values.size := hl.heap_size
    simpa only [IndexHeap.cut, IndexHeap.swapped, size, Array.size_setIfInBounds] using hhs
  · have hjr := hl.position_iff (i := j) (p := r)
    have hlimit : (h.cut i p).limit = h.limit - 1 := rfl
    rw [hposition, hheap, hlimit]
    grind
  · rw [isActive, hposition, Function.update_apply, isActive]
    grind

end Linked

end IndexHeap

end ClauseLearning
