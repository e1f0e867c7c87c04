import ClauseLearning.Proofs.AtomTable.Results

/-!
# Operations on atom tables that succeed

On a table with one entry for each atom in each part, no operation makes an access out of range if the atom is
known, and it leaves the table of the same name (`grow_eq`, `value_eq`, `dropValue_eq`, `rescale_eq`, …). An
operation on the activities succeeds if it does so on the heap (`onActivity_of_returns`), where it does as the
positions and the heap refer to each other.
-/

namespace ClauseLearning

namespace AtomM

variable {α β : Type} {a b : AtomTable} {l : Literal} {x n : Nat} {r : Option ClauseKey}

/-! ## Ways to build an operation -/

/-- An operation goes on from what the one before it leaves. -/
theorem bind_of_ok {m : AtomM α} {c : α} (h : m a = .ok c b) (f : α → AtomM β) : (m >>= f) a = f c b := by
  simp only [bind, EStateM.bind, h]

theorem bind_of_error {m : AtomM α} {e : Breach} (h : m a = .error e b) (f : α → AtomM β) :
    (m >>= f) a = .error e b := by
  simp only [bind, EStateM.bind, h]

theorem discard_of_ok {m : AtomM α} {c : α} (h : m a = .ok c b) : discard m a = .ok () b := by
  simp only [discard, Functor.discard, Functor.mapConst, EStateM.map, Function.comp, h]

theorem get_bind (f : AtomTable → AtomM α) : (get >>= f) a = f a a := rfl

theorem modify_bind (g : AtomTable → AtomTable) (f : Unit → AtomM α) : (modify g >>= f) a = f () (g a) := rfl

theorem require_of_true {inside : Bool} (h : inside = true) : require inside a = .ok () a := by
  rw [h]
  rfl

theorem onActivity_of_ok {m : HeapM Float α} {c : α} {h : IndexHeap Float} (hm : m a.activity = .ok c h) :
    onActivity m a = .ok c { a with activity := h } := by
  simp only [onActivity, hm]

/-- An operation that succeeds on the heap of activities succeeds on the table. -/
theorem onActivity_of_returns {m : HeapM Float α} {Q : α → IndexHeap Float → Prop}
    (hm : IndexHeap.Returns m a.activity Q) :
    ∃ c, onActivity m a = .ok c { a with activity := a.activity.after m } ∧ Q c (a.activity.after m) := by
  obtain ⟨c, hr, hc⟩ := hm.after
  exact ⟨c, onActivity_of_ok hr, hc⟩

/-- An operation without an answer of its own. -/
theorem onActivity_unit {m : HeapM Float Unit} {Q : Unit → IndexHeap Float → Prop}
    (hm : IndexHeap.Returns m a.activity Q) : onActivity m a = .ok () { a with activity := a.activity.after m } := by
  obtain ⟨_, hr, -⟩ := onActivity_of_returns hm
  exact hr

/-! ## Atoms and their values -/

theorem grow_eq (h : a.Aligned) (p : Bool) : grow p a = .ok () (a.grow p) := by
  have hadd := h.linked.holds_add_activate 0
  rw [h.activity] at hadd
  obtain ⟨_, hr, -⟩ := onActivity_of_returns (a := { a with
    valuation := a.valuation.push none
    previous := a.previous.push p
    levels := a.levels.push none
    reasons := a.reasons.push none }) hadd
  rw [grow, get_bind, modify_bind]
  exact discard_of_ok hr

theorem requireEntry_eq (h : a.Aligned) (hx : x < a.size) : requireEntry x a = .ok () a := by
  have hv : x < a.valuation.size := hx
  rw [requireEntry, get_bind]
  exact require_of_true (by simp [hv, h.levels, h.reasons, hx])

theorem value_eq (h : a.Aligned) (hl : l.atom < a.size) : value l n r a = .ok () (a.value l n r) := by
  rw [value, bind_of_ok (requireEntry_eq h hl)]
  rfl

theorem setValue_eq (h : a.Aligned) : setValue l n r a = match a.isOpen l with
    | .ok true => .ok (.ok true) (a.value l n r)
    | answer => .ok answer a := by
  rw [setValue, get_bind]
  cases ho : a.isOpen l with
  | error e => rfl
  | ok fresh =>
    cases fresh with
    | false => rfl
    | true => exact bind_of_ok (value_eq h (AtomTable.isOpen_iff.mp ho).1) _

theorem saveValue_eq (h : a.Aligned) (hx : x < a.size) : saveValue x a =
    .ok () { a with previous := a.previous.setIfInBounds x ((a.valueOf x).getD (a.previous[x]?.getD false)) } := by
  have hp : x < a.previous.size := by rw [h.previous]; exact hx
  rw [saveValue, get_bind]
  cases a.valueOf x with
  | none =>
    have hsame : a.previous.setIfInBounds x (a.previous[x]?.getD false) = a.previous := by
      rw [Array.getElem?_eq_getElem hp, Option.getD_some, Array.setIfInBounds_def, dif_pos hp, Array.set_getElem_self]
    rw [Option.getD_none, hsame]
    rfl
  | some v =>
    simp only [get_bind]
    rw [bind_of_ok (require_of_true (decide_eq_true hp))]
    rfl

theorem dropValue_eq (h : a.Aligned) (hx : x < a.size) : dropValue x a = .ok () (a.dropValue x) := by
  have hactivate := h.linked.holds_activate (i := x) (by rw [h.activity]; exact hx)
  obtain ⟨_, hr, -⟩ := onActivity_of_returns (a := { a with
    valuation := a.valuation.setIfInBounds x none
    previous := a.previous.setIfInBounds x ((a.valueOf x).getD (a.previous[x]?.getD false))
    levels := a.levels.setIfInBounds x none
    reasons := a.reasons.setIfInBounds x none }) hactivate
  rw [dropValue, bind_of_ok (requireEntry_eq h hx), bind_of_ok (saveValue_eq h hx), modify_bind]
  exact discard_of_ok hr

/-! ## Activities -/

theorem activityOf_eq (a : AtomTable) (x : Nat) : activityOf x a = match a.activity.values[x]? with
    | some v => .ok v a
    | none => .error .outOfRange a := by
  rw [activityOf, onActivity, IndexHeap.readValue, IndexHeap.entry_eq]
  cases a.activity.values[x]? <;> rfl

theorem activityOf_of_lt (h : a.Aligned) (hx : x < a.size) : activityOf x a = .ok (a.activityOf x) a := by
  have hlt : x < a.activity.values.size := by
    rw [← h.activity] at hx
    exact hx
  rw [activityOf_eq, AtomTable.activityOf, IndexHeap.valueAt, Array.getElem?_eq_getElem hlt]
  rfl

/-- The activities are read one after the other. -/
theorem greatest_eq (h : a.Aligned) {atoms : List Nat} (hatoms : ∀ x ∈ atoms, x < a.size) (y : Float) :
    greatest atoms y a = .ok ((atoms.map a.activityOf).foldl floatMax y) a := by
  induction atoms generalizing y with
  | nil => rfl
  | cons x atoms ih =>
    rw [greatest, bind_of_ok (activityOf_of_lt h (hatoms x List.mem_cons_self))]
    exact ih (fun z hz => hatoms z (List.mem_cons_of_mem x hz)) _

theorem map_activityOf_range (h : a.Aligned) : (List.range a.size).map a.activityOf = a.activity.values.toList := by
  have hsize : a.activity.values.size = a.size := h.activity
  refine List.ext_getElem (by simp [hsize]) fun i _ hi => ?_
  rw [List.getElem_map, List.getElem_range, AtomTable.activityOf,
    IndexHeap.valueAt, Array.getElem?_eq_getElem (by simpa using hi)]
  rfl

theorem rescale_eq (h : a.Aligned) : rescale a = .ok () a.rescale := by
  have hknown : ∀ x ∈ List.range a.size, x < a.size := fun x hx => List.mem_range.mp hx
  have hgreatest := greatest_eq h hknown a.bump.value
  rw [map_activityOf_range h, Array.foldl_toList] at hgreatest
  rw [rescale, get_bind, get_bind, bind_of_ok hgreatest,
    bind_of_ok (onActivity_unit (h.linked.holds_mapValues_reheap _))]
  rfl

theorem bumpActivity_eq (h : a.Aligned) (hx : x < a.size) : bumpActivity x a = .ok () (a.bumpActivity x) := by
  rw [bumpActivity, bind_of_ok (activityOf_of_lt h hx), get_bind]
  exact onActivity_unit (h.linked.holds_revalue_restore (by rw [h.activity]; exact hx) _)

/-- An atom that is not known is not bumped. -/
theorem bumpRelative_eq (h : a.Aligned) (x : Nat) :
    bumpRelative x a = if x < a.size then .ok () (a.bumpRelative x) else .error .outOfRange a := by
  by_cases hx : x < a.size
  · rw [if_pos hx, bumpRelative, bind_of_ok (activityOf_of_lt h hx), get_bind, AtomTable.bumpRelative]
    split
    · have hs := AtomTable.sameValues_rescale a
      rw [bind_of_ok (rescale_eq h)]
      exact bumpActivity_eq (hs.aligned h) (by rw [hs.size_eq]; exact hx)
    · exact bumpActivity_eq h hx
  · have hnone : a.activity.values[x]? = none := Array.getElem?_eq_none (by
      rw [← h.activity] at hx
      exact Nat.le_of_not_lt hx)
    rw [if_neg hx, bumpRelative]
    exact bind_of_error (by rw [activityOf_eq, hnone]) _

theorem decayActivity_eq (h : a.Aligned) : decayActivity a = .ok () a.decayActivity := by
  rw [decayActivity, get_bind, modify_bind, AtomTable.decayActivity]
  split
  · exact rescale_eq ⟨h.previous, h.levels, h.reasons, h.activity, h.linked⟩
  · rfl

theorem popMostActive_eq (h : a.Aligned) : popMostActive a = .ok a.popMostActive.1 a.popMostActive.2 := by
  obtain ⟨o, hr, rfl, -⟩ := onActivity_of_returns h.linked.holds_pop
  exact hr

theorem popUnvalued_eq (h : a.Aligned) (n : Nat) :
    popUnvalued n a = .ok (AtomTable.popUnvalued n a).1 (AtomTable.popUnvalued n a).2 := by
  induction n generalizing a with
  | zero => rfl
  | succ n ih =>
    have hs := AtomTable.sameValues_popMostActive a
    rw [popUnvalued, bind_of_ok (popMostActive_eq h), AtomTable.popUnvalued]
    cases hp : a.popMostActive with
    | mk o b =>
      rw [hp] at hs
      cases o with
      | none => rfl
      | some x =>
        simp only [get_bind]
        split
        · rfl
        · exact ih (hs.aligned h)

end AtomM

end ClauseLearning
