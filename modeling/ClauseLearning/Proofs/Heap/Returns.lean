import Mathlib.Tactic.Common
import ClauseLearning.IndexHeap

/-!
# Operations on index heaps that succeed

`Returns m h Q` says that the operation `m` makes no access out of range on the heap `h`, and that its answer and the
heap after it have `Q`. The equivalences for the ways to build an operation take an operation apart, and those for the
accesses say which index has to be in range.
-/

namespace ClauseLearning

namespace IndexHeap

variable {α β γ : Type}

/-- On the heap, the operation succeeds, with an answer and a heap that have `Q`. -/
def Returns (m : HeapM α β) (h : IndexHeap α) (Q : β → IndexHeap α → Prop) : Prop :=
  match m h with
  | .ok b h' => Q b h'
  | .error _ _ => False

variable {h : IndexHeap α} {m : HeapM α β} {f : β → HeapM α γ} {Q Q' : β → IndexHeap α → Prop}

theorem returns_iff : Returns m h Q ↔ ∃ b h', m h = .ok b h' ∧ Q b h' := by
  unfold Returns
  cases m h <;> simp

theorem Returns.imp (hm : Returns m h Q) (hq : ∀ b h', Q b h' → Q' b h') : Returns m h Q' := by
  obtain ⟨b, h', hr, hb⟩ := returns_iff.mp hm
  exact returns_iff.mpr ⟨b, h', hr, hq b h' hb⟩

/-- Two statements of what an operation comes to hold together. -/
theorem Returns.and (hm : Returns m h Q) (hm' : Returns m h Q') : Returns m h fun b h' => Q b h' ∧ Q' b h' := by
  obtain ⟨b, h', hr, hb⟩ := returns_iff.mp hm
  obtain ⟨c, h'', hr', hc⟩ := returns_iff.mp hm'
  rw [hr] at hr'
  cases hr'
  exact returns_iff.mpr ⟨b, h', hr, hb, hc⟩

/-- What an operation comes to holds of the result that it gives. -/
theorem Returns.of_ok (hm : Returns m h Q) {b : β} {h' : IndexHeap α} (hr : m h = .ok b h') : Q b h' := by
  unfold Returns at hm
  rwa [hr] at hm

/-- The heap that an operation leaves. -/
def after (h : IndexHeap α) (m : HeapM α β) : IndexHeap α :=
  match m h with
  | .ok _ h' => h'
  | .error _ h' => h'

/-- An operation that succeeds leaves the heap of its result. -/
theorem Returns.after (hm : Returns m h Q) : ∃ b, m h = .ok b (h.after m) ∧ Q b (h.after m) := by
  obtain ⟨b, h', hr, hb⟩ := returns_iff.mp hm
  have hafter : h.after m = h' := by rw [IndexHeap.after, hr]
  exact ⟨b, by rw [hafter, hr], by rw [hafter]; exact hb⟩

/-- What holds of the heap that an operation leaves when it succeeds, holds of the heap after it. -/
theorem Returns.holds_after {P : IndexHeap α → Prop} (hm : Returns m h fun _ h' => P h') : P (h.after m) := by
  obtain ⟨b, -, hb⟩ := hm.after
  exact hb

/-! ## Ways to build an operation -/

@[simp] theorem returns_pure {b : β} : Returns (pure b) h Q ↔ Q b h := Iff.rfl

@[simp] theorem returns_throw {e : Breach} : ¬Returns (throw e) h Q := id

@[simp] theorem returns_bind {Q : γ → IndexHeap α → Prop} :
    Returns (m >>= f) h Q ↔ Returns m h fun b h' => Returns (f b) h' Q := by
  simp only [Returns, bind, EStateM.bind]
  cases m h <;> rfl

@[simp] theorem returns_discard {Q : Unit → IndexHeap α → Prop} :
    Returns (discard m) h Q ↔ Returns m h fun _ h' => Q () h' := by
  simp only [Returns, discard, Functor.discard, Functor.mapConst, EStateM.map, Function.comp]
  cases m h <;> rfl

@[simp] theorem returns_get {Q : IndexHeap α → IndexHeap α → Prop} : Returns get h Q ↔ Q h h := Iff.rfl

@[simp] theorem returns_modify {g : IndexHeap α → IndexHeap α} {Q : Unit → IndexHeap α → Prop} :
    Returns (modify g) h Q ↔ Q () (g h) := Iff.rfl

/-! ## Accesses -/

@[simp] theorem returns_require {inside : Bool} {Q : Unit → IndexHeap α → Prop} :
    Returns (require inside) h Q ↔ inside = true ∧ Q () h := by
  cases inside <;> simp [require]

@[simp] theorem returns_entry {table : IndexHeap α → Array β} {i : Nat} :
    Returns (entry table i) h Q ↔ ∃ b, (table h)[i]? = some b ∧ Q b h := by
  simp only [entry, returns_bind, returns_get]
  cases (table h)[i]? with
  | none => simp
  | some b => simp

/-- An operation stops at an error, which may leave the heap as it was. -/
theorem after_bind_of_error {e : Breach} (hm : m h = .error e h) : h.after (m >>= f) = h := by
  simp only [after, bind, EStateM.bind, hm]

theorem entry_eq (table : IndexHeap α → Array β) (i : Nat) : entry table i h = match (table h)[i]? with
    | some b => .ok b h
    | none => .error .outOfRange h := by
  show (match (table h)[i]? with
    | some b => pure b
    | none => throw .outOfRange : HeapM α β) h = _
  cases (table h)[i]? <;> rfl

/-- An operation stops at an access out of range. -/
theorem after_entry_of_none {table : IndexHeap α → Array β} {i : Nat} (hi : (table h)[i]? = none) :
    h.after (entry table i >>= f) = h := after_bind_of_error (by rw [entry_eq, hi])

@[simp] theorem returns_setPosition {i : Nat} {p : Option Nat} {Q : Unit → IndexHeap α → Prop} :
    Returns (setPosition i p) h Q ↔ i < h.position.size ∧ Q () { h with position := h.position.setIfInBounds i p } := by
  simp [setPosition]

@[simp] theorem returns_setIndex {p i : Nat} {Q : Unit → IndexHeap α → Prop} :
    Returns (setIndex p i) h Q ↔ p < h.heap.size ∧ Q () { h with heap := h.heap.setIfInBounds p i } := by
  simp [setIndex]

@[simp] theorem returns_revalue {i : Nat} {v : α} {Q : Unit → IndexHeap α → Prop} :
    Returns (revalue i v) h Q ↔ i < h.size ∧ Q () { h with values := h.values.setIfInBounds i v } := by
  simp [revalue, size]

/-- An operation stops at a new value out of range. -/
theorem after_revalue_of_le {i : Nat} {v : α} {g : Unit → HeapM α γ} (hi : h.size ≤ i) :
    h.after (revalue i v >>= g) = h := by
  have hrun : revalue i v h = (require (decide (i < h.values.size)) >>= fun _ =>
    modify fun h => { h with values := h.values.setIfInBounds i v }) h := rfl
  have hout : decide (i < h.values.size) = false := decide_eq_false (Nat.not_lt.mpr hi)
  rw [hout] at hrun
  exact after_bind_of_error hrun

@[simp] theorem returns_mapValues {g : α → α} {Q : Unit → IndexHeap α → Prop} :
    Returns (mapValues g) h Q ↔ Q () { h with values := h.values.map g } := Iff.rfl

end IndexHeap

end ClauseLearning
