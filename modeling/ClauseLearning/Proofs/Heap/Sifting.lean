import ClauseLearning.Proofs.Heap.Positions

/-!
# Sifts and operations on an index heap

What moving an index up or down the heap keeps, step by step (`Linked.returns_siftDown`, `Linked.returns_siftUp`), and
from it what each operation does to a linked heap: it makes no access out of range, and the values and the active
indices change as the operation says (`Linked.holds_add`, `Linked.holds_activate`, `Linked.holds_remove`, …).
-/

namespace ClauseLearning

namespace IndexHeap

variable {α : Type} [LT α] [DecidableLT α] {h h' : IndexHeap α} {i j p q n : Nat}

/-! ## Steps of the operations -/

theorem Linked.returns_activate_of_inactive (hl : h.Linked) (hx : h.position[i]? = some none)
    {Q : Bool → IndexHeap α → Prop} :
    Returns (activate i) h Q ↔ Returns (siftUp h.limit) (h.appended i) fun _ h' => Q true h' := by
  have hi : i < h.position.size := (Array.getElem?_eq_some_iff.mp hx).1
  have hroom : h.limit < h.heap.size := by
    rw [hl.heap_size]
    exact hl.limit_lt (by rwa [← hl.position_size]) (by rw [isActive, hx]; rfl)
  simp only [activate, positionOf, returns_bind, returns_entry, hx, Option.some.injEq, exists_eq_left', returns_get,
    returns_setIndex, returns_setPosition, returns_modify, returns_pure, hroom, hi, true_and]
  rfl

theorem returns_activate_of_active (hx : h.position[i]? = some (some p)) {Q : Bool → IndexHeap α → Prop} :
    Returns (activate i) h Q ↔ Returns (siftUp p) h fun _ h' => Q false h' := by
  simp only [activate, positionOf, returns_bind, returns_entry, hx, Option.some.injEq, exists_eq_left', returns_pure]

theorem returns_remove_of_inactive (hx : h.position[i]? = some none) {Q : Bool → IndexHeap α → Prop} :
    Returns (remove i) h Q ↔ Q false h := by
  simp only [remove, positionOf, returns_bind, returns_entry, hx, Option.some.injEq, exists_eq_left', returns_pure]

theorem Linked.returns_remove_of_active (hl : h.Linked) (hx : h.position[i]? = some (some p))
    {Q : Bool → IndexHeap α → Prop} :
    Returns (remove i) h Q ↔
      if p < h.limit - 1 then
        Returns (siftDown p) (h.cut i p) fun _ h' => Returns (siftUp p) h' fun _ h'' => Q true h''
      else Q true (h.cut i p) := by
  obtain ⟨hp, -⟩ := hl.position_iff.mp hx
  have hi : i < h.position.size := (Array.getElem?_eq_some_iff.mp hx).1
  have hlast : h.limit - 1 < h.limit := by omega
  have hlast' := hl.heap_eq hlast
  have hj := hl.lt_position hlast
  simp only [remove, positionOf, indexAt, returns_bind, returns_entry,
    hx, Option.some.injEq, exists_eq_left', returns_get,
    returns_require, returns_modify, decide_eq_true_eq, Nat.zero_lt_of_lt hp, true_and, hlast']
  rw [returns_swapIndices (h := { h with limit := h.limit - 1 }) (hl.lt_heap hp) (hl.lt_heap hlast)]
  simp only [returns_setPosition, hi, true_and]
  split
  · rename_i hlt
    simp only [returns_bind, returns_setPosition, Array.size_setIfInBounds,
      hj, true_and, IndexHeap.cut, if_pos hlt, returns_pure]
    rfl
  · rename_i hlt
    simp only [returns_pure, IndexHeap.cut, if_neg hlt]
    rfl

theorem returns_restore_of_inactive (hx : h.position[i]? = some none) {Q : Unit → IndexHeap α → Prop} :
    Returns (restore i) h Q ↔ Q () h := by
  simp only [restore, positionOf, returns_bind, returns_entry, hx, Option.some.injEq, exists_eq_left', returns_pure]

theorem returns_restore_of_active (hx : h.position[i]? = some (some p)) {Q : Unit → IndexHeap α → Prop} :
    Returns (restore i) h Q ↔ Returns (siftUp p) h fun _ h' => Returns (siftDown p) h' Q := by
  simp only [restore, positionOf, returns_bind, returns_entry, hx, Option.some.injEq, exists_eq_left']

/-! ## Sifts -/

variable [Inhabited α]

theorem Linked.returns_exceeds (hl : h.Linked) (hp : p < h.limit) (hq : q < h.limit) {Q : Bool → IndexHeap α → Prop} :
    Returns (exceeds p q) h Q ↔ Q (decide (h.key q < h.key p)) h := by
  simp only [exceeds, returns_bind, hl.returns_valueOn hq, hl.returns_valueOn hp, returns_pure]

theorem Linked.returns_exceedsBelow (hl : h.Linked) (hq : q < h.limit) {Q : Bool → IndexHeap α → Prop} :
    Returns (exceedsBelow h.limit p q) h Q ↔ Q (decide (p < h.limit ∧ h.key q < h.key p)) h := by
  unfold exceedsBelow
  by_cases hp : p < h.limit
  · rw [if_pos hp, hl.returns_exceeds hp hq]
    simp only [hp, true_and]
  · rw [if_neg hp, returns_pure]
    simp only [hp, false_and, decide_false]

/-- The position with the greatest value among a position and its children, the first of equals. -/
def greatest (h : IndexHeap α) (p : Nat) : Nat :=
  let best := if 2 * p + 1 < h.limit ∧ h.key p < h.key (2 * p + 1) then 2 * p + 1 else p
  if 2 * p + 2 < h.limit ∧ h.key best < h.key (2 * p + 2) then 2 * p + 2 else best

theorem greatest_cases (h : IndexHeap α) (p : Nat) :
    h.greatest p = p ∨ p < h.greatest p ∧ h.greatest p < h.limit ∧ (h.greatest p - 1) / 2 = p := by
  simp only [greatest]
  split <;> split <;> omega

/-- One step of moving an index down: to the place of the greatest child, if this has a greater value. -/
theorem Linked.returns_siftDownBelow (hl : h.Linked) (p : Nat) {Q : Unit → IndexHeap α → Prop} :
    Returns (siftDownBelow h.limit p) h Q ↔
      if h.greatest p = p then Q () h
      else Returns (siftDownBelow h.limit (h.greatest p)) (h.swapped p (h.greatest p)) Q := by
  rw [siftDownBelow]
  by_cases h1 : 2 * p + 1 < h.limit
  · have hp : p < h.limit := by omega
    have hbest : (if h.key p < h.key (2 * p + 1) then 2 * p + 1 else p) < h.limit := by split <;> omega
    simp only [if_pos h1, returns_bind, hl.returns_exceeds h1 hp, decide_eq_true_eq, hl.returns_exceedsBelow hbest]
    simp only [greatest, h1, true_and]
    by_cases hright : 2 * p + 2 < h.limit ∧
        h.key (if h.key p < h.key (2 * p + 1) then 2 * p + 1 else p) < h.key (2 * p + 2)
    · rw [if_pos hright, if_pos hright, if_neg (by omega), returns_bind, hl.returns_swap hp hright.1]
    · rw [if_neg hright, if_neg hright]
      by_cases hleft : h.key p < h.key (2 * p + 1)
      · rw [if_pos hleft, if_pos hleft, if_neg (by omega), returns_bind, hl.returns_swap hp h1]
      · rw [if_neg hleft, if_neg hleft, if_pos rfl, returns_pure]
  · have hg : h.greatest p = p := by
      simp only [greatest]
      rw [if_neg (by omega), if_neg (by omega)]
    rw [if_pos hg, if_neg h1]
    exact Iff.rfl

/-- What moving an index down keeps: a property of heaps and positions that each step keeps holds at the place that the
index comes to, and there no child has a greater value. -/
theorem Linked.returns_siftDown (hl : h.Linked) (M : IndexHeap α → Nat → Prop) (hM : M h p)
    (hstep : ∀ h q, h.Linked → M h q → h.greatest q ≠ q → M (h.swapped q (h.greatest q)) (h.greatest q)) :
    Returns (siftDown p) h fun _ h' => h.Resorted h' ∧ ∃ q, M h' q ∧ h'.greatest q = q := by
  rw [siftDown, returns_bind, returns_get]
  -- by the distance of the position from the limit, which grows shorter with each step
  induction hn : h.limit - p using Nat.strongRecOn generalizing h p with
  | ind n ih =>
    rw [hl.returns_siftDownBelow]
    by_cases hg : h.greatest p = p
    · rw [if_pos hg]
      exact ⟨.refl hl, p, hM, hg⟩
    · rw [if_neg hg]
      obtain ⟨hlt, hlim, -⟩ := (h.greatest_cases p).resolve_left hg
      have hr := hl.resorted_swapped (Nat.lt_trans hlt hlim) hlim
      have := ih (h.limit - h.greatest p) (by omega) hr.linked (hstep h p hl hM hg) rfl
      exact this.imp fun _ h' hh' => ⟨hr.trans hh'.1, hh'.2⟩

/-- What moving an index up keeps: a property of heaps and positions that each step keeps holds at the place that the
index comes to, and there the parent, if there is one, has no smaller value. -/
theorem Linked.returns_siftUp (hl : h.Linked) (hp : p < h.limit) (M : IndexHeap α → Nat → Prop) (hM : M h p)
    (hstep : ∀ h q, h.Linked → M h (q + 1) → q + 1 < h.limit → h.key (q / 2) < h.key (q + 1) →
      M (h.swapped (q + 1) (q / 2)) (q / 2)) :
    Returns (siftUp p) h fun _ h' => h.Resorted h' ∧
      ∃ q, M h' q ∧ q < h.limit ∧ (0 < q → ¬ h'.key ((q - 1) / 2) < h'.key q) := by
  induction p using Nat.strongRecOn generalizing h with
  | ind p ih =>
    cases p with
    | zero =>
      rw [siftUp]
      exact ⟨.refl hl, 0, hM, hp, fun h0 => absurd h0 (Nat.lt_irrefl 0)⟩
    | succ p =>
      have hparent : p / 2 < h.limit := by omega
      rw [siftUp, returns_bind, hl.returns_exceeds hp hparent]
      by_cases hlt : h.key (p / 2) < h.key (p + 1)
      · rw [if_pos (decide_eq_true hlt), returns_bind, hl.returns_swap hp hparent]
        have hr := hl.resorted_swapped hp hparent
        exact (ih (p / 2) (by omega) hr.linked hparent (hstep h p hl hM hp hlt)).imp
          fun _ h' hh' => ⟨hr.trans hh'.1, hh'.2⟩
      · rw [if_neg (by rw [decide_eq_true_eq]; exact hlt)]
        exact ⟨.refl hl, p + 1, hM, hp, fun _ => hlt⟩

theorem Linked.resorted_siftDown (hl : h.Linked) (p : Nat) : Returns (siftDown p) h fun _ h' => h.Resorted h' :=
  (hl.returns_siftDown (p := p) (fun _ _ => True) trivial fun _ _ _ _ _ => trivial).imp fun _ _ hh' => hh'.1

theorem Linked.resorted_siftUp (hl : h.Linked) (hp : p < h.limit) : Returns (siftUp p) h fun _ h' => h.Resorted h' :=
  (hl.returns_siftUp hp (fun _ _ => True) trivial fun _ _ _ _ _ _ => trivial).imp fun _ _ hh' => hh'.1

/-! ## Operations -/

omit [LT α] [DecidableLT α] in
theorem returns_add {v : α} {Q : Bool → IndexHeap α → Prop} :
    Returns (add i v) h Q ↔ Q (decide (h.size ≤ i)) (h.added i v) := by
  rw [add, returns_bind, returns_get, added]
  by_cases hi : i < h.size
  · simp only [hi, if_true, returns_bind, returns_revalue, true_and, returns_pure, decide_eq_false (Nat.not_le.mpr hi)]
    rfl
  · simp only [hi, if_false, returns_bind, returns_modify, returns_pure, decide_eq_true (Nat.not_lt.mp hi)]

omit [LT α] [DecidableLT α] in
theorem Linked.holds_add (hl : h.Linked) (i : Nat) (v : α) :
    Returns (add i v) h fun b h' => b = decide (h.size ≤ i) ∧
      h'.Holds (if i < h.size then h.values.setIfInBounds i v
        else (h.values ++ Array.replicate (i - h.size) default).push v) h.isActive :=
  returns_add.mpr ⟨rfl, hl.added i v⟩

theorem Linked.holds_activate (hl : h.Linked) (hi : i < h.size) :
    Returns (activate i) h fun b h' => b = !h.isActive i ∧ h'.Holds h.values (Function.update h.isActive i true) := by
  rcases hl.position_of_lt hi with hx | ⟨p, hx⟩
  · have hinactive : h.isActive i = false := by rw [isActive, hx]; rfl
    have hh := hl.appended hi hx
    rw [hl.returns_activate_of_inactive hx, hinactive]
    exact (hh.linked.resorted_siftUp (Nat.lt_succ_self _)).imp fun _ _ hr => ⟨rfl, hh.resorted hr⟩
  · have hactive : h.isActive i = true := IndexHeap.isActive_iff.mpr ⟨p, hx⟩
    rw [returns_activate_of_active hx, hactive, ← hactive, Function.update_eq_self]
    exact (hl.resorted_siftUp (hl.position_iff.mp hx).1).imp fun _ _ hr => ⟨by rw [hactive]; rfl, hr.holds⟩

theorem Linked.holds_remove (hl : h.Linked) (hi : i < h.size) :
    Returns (remove i) h fun b h' => b = h.isActive i ∧ h'.Holds h.values (Function.update h.isActive i false) := by
  rcases hl.position_of_lt hi with hx | ⟨p, hx⟩
  · have hinactive : h.isActive i = false := by rw [isActive, hx]; rfl
    rw [returns_remove_of_inactive hx, hinactive, ← hinactive, Function.update_eq_self]
    exact ⟨rfl, (Resorted.refl hl).holds⟩
  · have hactive : h.isActive i = true := IndexHeap.isActive_iff.mpr ⟨p, hx⟩
    have hh := hl.cut hx
    rw [hl.returns_remove_of_active hx, hactive]
    split
    · rename_i hlt
      refine (hh.linked.resorted_siftDown p).imp fun _ _ hr => ?_
      exact (hr.linked.resorted_siftUp (by rw [hr.limit]; exact hlt)).imp fun _ _ hr' =>
        ⟨rfl, hh.resorted (hr.trans hr')⟩
    · exact ⟨rfl, hh⟩

theorem Linked.resorted_restore (hl : h.Linked) (hi : i < h.size) :
    Returns (restore i) h fun _ h' => h.Resorted h' := by
  rcases hl.position_of_lt hi with hx | ⟨p, hx⟩
  · rw [returns_restore_of_inactive hx]
    exact .refl hl
  · rw [returns_restore_of_active hx]
    refine (hl.resorted_siftUp (hl.position_iff.mp hx).1).imp fun _ _ hr => ?_
    exact (hr.linked.resorted_siftDown p).imp fun _ _ hr' => hr.trans hr'

theorem Linked.resorted_siftAll (hl : h.Linked) (n : Nat) : Returns (siftAll n) h fun _ h' => h.Resorted h' := by
  induction n generalizing h with
  | zero => exact .refl hl
  | succ n ih =>
    rw [siftAll, returns_bind]
    exact (hl.resorted_siftDown n).imp fun _ _ hr => (ih hr.linked).imp fun _ _ hr' => hr.trans hr'

theorem Linked.resorted_reheap (hl : h.Linked) : Returns reheap h fun _ h' => h.Resorted h' := by
  rw [reheap, returns_bind, returns_get]
  exact hl.resorted_siftAll _

theorem Linked.holds_pop (hl : h.Linked) :
    Returns pop h fun o h' => o = (if h.limit = 0 then none else some (h.index 0)) ∧
      h'.Holds h.values (o.elim h.isActive fun i => Function.update h.isActive i false) := by
  rw [pop, returns_bind, hl.returns_peek]
  by_cases h0 : h.limit = 0
  · rw [if_pos h0]
    exact ⟨rfl, (Resorted.refl hl).holds⟩
  · rw [if_neg h0]
    simp only [returns_bind, returns_discard, returns_pure]
    have hactive := hl.isActive_index (Nat.pos_of_ne_zero h0)
    exact (hl.holds_remove (hl.lt_size hactive)).imp fun _ _ hh => ⟨trivial, hh.2⟩

/-! ## Operations in a row -/

omit [LT α] [DecidableLT α] [Inhabited α] in
theorem Linked.holds_revalue (hl : h.Linked) (hi : i < h.size) (v : α) :
    Returns (revalue i v) h fun _ h' => h'.Holds (h.values.setIfInBounds i v) h.isActive :=
  returns_revalue.mpr ⟨hi, hl.withValues Array.size_setIfInBounds⟩

/-- A new value for an index, which then moves to its place. -/
theorem Linked.holds_revalue_restore (hl : h.Linked) (hi : i < h.size) (v : α) :
    Returns (do revalue i v; restore i) h fun _ h' => h'.Holds (h.values.setIfInBounds i v) h.isActive := by
  rw [returns_bind]
  refine (hl.holds_revalue hi v).imp fun _ h' hh => ?_
  have hsize : h'.size = h.size := by rw [size, hh.values, Array.size_setIfInBounds, size]
  exact (hh.linked.resorted_restore (by rw [hsize]; exact hi)).imp fun _ _ hr => hh.resorted hr

/-- New values for all indices, which are then put in order. -/
theorem Linked.holds_mapValues_reheap (hl : h.Linked) (f : α → α) :
    Returns (do mapValues f; reheap) h fun _ h' => h'.Holds (h.values.map f) h.isActive := by
  rw [returns_bind, returns_mapValues]
  have hh : (IndexHeap.mk (h.values.map f) h.position h.heap h.limit).Holds _ _ := hl.withValues Array.size_map
  exact hh.linked.resorted_reheap.imp fun _ _ hr => hh.resorted hr

/-- The next index, with a value, which becomes active. -/
theorem Linked.holds_add_activate (hl : h.Linked) (v : α) :
    Returns (do discard (add h.size v); activate h.size) h fun _ h' =>
      h'.Holds (h.values.push v) (Function.update h.isActive h.size true) := by
  rw [returns_bind, returns_discard]
  refine (hl.holds_add h.size v).imp fun _ h' hh => ?_
  obtain ⟨-, hh⟩ := hh
  rw [if_neg (Nat.lt_irrefl _), Nat.sub_self, Array.replicate_zero, Array.append_empty] at hh
  have hsize : h'.size = h.size + 1 := by rw [size, hh.values, Array.size_push, size]
  refine (hh.linked.holds_activate (i := h.size) (by omega)).imp fun _ _ hh' => ?_
  rw [hh.values, hh.active] at hh'
  exact hh'.2

/-! ## The heap after an operation -/

/-- Whether or not there is such an index. -/
theorem Linked.after_activate (hl : h.Linked) (i : Nat) :
    (h.after (activate i)).Holds h.values (Function.update h.isActive i (decide (i < h.size))) := by
  by_cases hi : i < h.size
  · rw [decide_eq_true hi]
    exact ((hl.holds_activate hi).imp fun _ _ hh => hh.2).holds_after
  · have hx : h.position[i]? = none := Array.getElem?_eq_none (by rw [hl.position_size]; omega)
    have hinactive : h.isActive i = false := by rw [isActive, hx]; rfl
    rw [activate, positionOf, after_entry_of_none hx, decide_eq_false hi, ← hinactive, Function.update_eq_self]
    exact ⟨hl, rfl, rfl⟩

/-- Whether or not there is such an index. -/
theorem Linked.after_revalue_restore (hl : h.Linked) (i : Nat) (v : α) :
    (h.after do revalue i v; restore i).Holds (h.values.setIfInBounds i v) h.isActive := by
  by_cases hi : i < h.size
  · exact (hl.holds_revalue_restore hi v).holds_after
  · rw [after_revalue_of_le (Nat.le_of_not_lt hi), Array.setIfInBounds_eq_of_size_le (Nat.le_of_not_lt hi)]
    exact ⟨hl, rfl, rfl⟩

end IndexHeap

end ClauseLearning
