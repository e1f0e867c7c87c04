import ClauseLearning.Proofs.FloatOrder
import ClauseLearning.Proofs.Heap.Queue
import ClauseLearning.Proofs.Trail.Agreement

/-!
# Atoms to decide on

An atom table is `Poised` if all atoms without a value are on the heap of activities, and the heap is in order if all
activities are numbers. Valued atoms may be on the heap or not. New atoms and dropped values put atoms on the heap, a
new value takes none off, and every change of activities restores the order, whatever the heap was like before if an
activity was no number: that of the atom that is bumped is none then either. Only a decision takes an atom without a
value off the heap, the most active one (`Aligned.popUnvalued_spec`), and gives it a value at once (`Poised.value`).
-/

namespace ClauseLearning

namespace AtomTable

variable {a b : AtomTable} {l : Literal} {x n : Nat} {chosen : Option Nat}

/-- All atoms without a value, but one that may have been chosen, are on the heap, which is in order if
all activities are numbers. -/
structure Poised (a : AtomTable) (chosen : Option Nat) : Prop where
  active : ∀ x ≠ topAtom, some x ≠ chosen → x < a.size → a.valueOf x = none → a.activity.isActive x = true
  ordered : floatRanking.Covers a.activity → floatRanking.InOrder a.activity

theorem poised_ofConfig (config : Config) : (ofConfig config).Poised none where
  active x hx _ hlt _ := absurd (Nat.lt_one_iff.mp hlt) hx
  ordered _ q h0 hq := by
    have hlimit : (ofConfig config).activity.limit = 0 := rfl
    omega

/-! ## Values -/

/-- The atom that was chosen gets a value, or another one does. -/
theorem Poised.value (hp : a.Poised chosen) (hchosen : ∀ x, chosen = some x → x = l.atom) (hk : l.atom < a.size)
    (r : Option ClauseKey) : (a.value l n r).Poised none where
  active x hx _ hlt hv := by
    rw [valueOf_value hk] at hv
    rw [size_value] at hlt
    split at hv
    · cases hv
    · rename_i hne
      exact hp.active x hx (fun heq => hne (hchosen x heq.symm)) hlt hv
  ordered := hp.ordered

theorem Poised.dropValue (ha : a.Aligned) (hp : a.Poised none) (x : Nat) : (a.dropValue x).Poised none where
  active y hy hne hlt hv := by
    rw [size_dropValue] at hlt
    rw [valueOf_dropValue] at hv
    rw [ha.isActive_dropValue]
    split
    · exact decide_eq_true hlt
    · rename_i hyx
      rw [if_neg hyx] at hv
      exact hp.active y hy hne hlt hv
  ordered hc := by
    have hc' : floatRanking.Covers a.activity := hc.of_values_eq (ha.linked.after_activate x).values.symm
    exact ha.linked.ordered_after_activate hc' (hp.ordered hc') x

theorem Poised.dropAll (ha : a.Aligned) (hp : a.Poised none) (ls : List Literal) : (a.dropAll ls).Poised none := by
  induction ls generalizing a with
  | nil => exact hp
  | cons l ls ih => exact ih (ha.dropValue l.atom) (hp.dropValue ha l.atom)

theorem Poised.grow (ha : a.Aligned) (hp : a.Poised none) (p : Bool) : (a.grow p).Poised none := by
  have hh := (ha.linked.holds_add_activate 0).holds_after
  rw [ha.activity] at hh
  refine ⟨fun x hx hne hlt hv => ?_, fun hc => ?_⟩
  · rw [size_grow] at hlt
    rw [valueOf_grow] at hv
    rw [AtomTable.grow, hh.active, Function.update_apply]
    split
    · rfl
    · exact hp.active x hx hne (by omega) hv
  · have hvalues : (a.grow p).activity.values = a.activity.values.push 0 := hh.values
    have hc' : floatRanking.Covers a.activity := fun v hv => hc v (by rw [hvalues]; exact Array.mem_push_of_mem 0 hv)
    have hzero : (0 : Float).isNaN = false := by decide +kernel
    have := (ha.linked.ordered_add_activate hc' (hp.ordered hc') hzero).holds_after
    rwa [ha.activity] at this

/-! ## Activities -/

/-- Other activities do not matter if the same atoms are active and the heap is in order. -/
theorem Poised.of_sameValues (hp : a.Poised chosen) (hs : a.SameValues b)
    (ha : b.activity.isActive = a.activity.isActive)
    (ho : floatRanking.Covers b.activity → floatRanking.InOrder b.activity) : b.Poised chosen where
  active x hx hne hlt hv := by
    rw [hs.size_eq] at hlt
    rw [hs.valueOf_eq] at hv
    rw [ha]
    exact hp.active x hx hne hlt hv
  ordered := ho

/-- All activities are scaled, and the heap is put in order from scratch. -/
theorem Poised.rescale (ha : a.Aligned) (hp : a.Poised none) : a.rescale.Poised none := by
  have hh := (ha.linked.holds_mapValues_reheap (· * (1 / a.activity.values.foldl floatMax a.bump.value))).holds_after
  refine hp.of_sameValues (sameValues_rescale a) hh.active fun hc => ?_
  have hsize : (a.activity.values.map (· * (1 / a.activity.values.foldl floatMax a.bump.value))).size =
      a.activity.size :=
    Array.size_map
  have hlinked := (ha.linked.withValues hsize).linked
  have hsorted : IndexHeap.Returns (do
      IndexHeap.mapValues (· * (1 / a.activity.values.foldl floatMax a.bump.value))
      IndexHeap.reheap) a.activity fun _ h' => floatRanking.InOrder h' := by
    rw [IndexHeap.returns_bind, IndexHeap.returns_mapValues]
    exact hlinked.ordered_reheap (hc.of_values_eq hh.values.symm)
  exact hsorted.holds_after

/-- If the activity of an atom is no number it is none after a bump, and otherwise the heap was in order before. -/
theorem Poised.bumpActivity (ha : a.Aligned) (hp : a.Poised none) (x : Nat) : (a.bumpActivity x).Poised none := by
  have hh := ha.linked.after_revalue_restore x (a.activityOf x + a.bump.value)
  refine hp.of_sameValues (sameValues_bumpActivity a x) hh.active fun hc => ?_
  by_cases hx : x < a.activity.size
  · have hv : (a.activityOf x + a.bump.value).isNaN = false := by
      refine hc _ ?_
      rw [AtomTable.bumpActivity, hh.values]
      exact Array.mem_of_getElem? (Array.getElem?_setIfInBounds_self_of_lt hx)
    have hc' : floatRanking.Covers a.activity := by
      intro w hw
      obtain ⟨j, hj⟩ := Array.mem_iff_getElem?.mp hw
      by_cases hjx : j = x
      · have hwx : a.activityOf x = w := by
          rw [activityOf, IndexHeap.valueAt, ← hjx, hj, Option.getD_some]
        by_contra hnan
        rw [Float.isNaN_add (by rw [hwx]; simpa [floatRanking] using hnan)] at hv
        cases hv
      · refine hc w ?_
        rw [AtomTable.bumpActivity, hh.values]
        exact Array.mem_of_getElem? (by rw [Array.getElem?_setIfInBounds_ne (Ne.symm hjx), hj])
    exact (ha.linked.ordered_revalue_restore hc' (hp.ordered hc') hx hv).holds_after
  · have hsame : (a.bumpActivity x).activity = a.activity := IndexHeap.after_revalue_of_le (Nat.le_of_not_lt hx)
    rw [hsame] at hc ⊢
    exact hp.ordered hc

theorem Poised.bumpRelative (ha : a.Aligned) (hp : a.Poised none) (x : Nat) : (a.bumpRelative x).Poised none := by
  unfold AtomTable.bumpRelative
  simp only
  split
  · exact (hp.rescale ha).bumpActivity ((sameValues_rescale a).aligned ha) x
  · exact hp.bumpActivity ha x

theorem Poised.decayActivity (ha : a.Aligned) (hp : a.Poised none) : a.decayActivity.Poised none := by
  have h : Poised { a with bump := a.bump.force (a.bump.value * (1 / (1 - a.decay.value))) } none :=
    ⟨hp.active, hp.ordered⟩
  unfold AtomTable.decayActivity
  simp only
  split
  · exact h.rescale ⟨ha.previous, ha.levels, ha.reasons, ha.activity, ha.linked⟩
  · exact h

/-! ## The atom to decide on -/

/-- The atom that is taken off the heap is not active any more. -/
theorem Aligned.holds_popMostActive (ha : a.Aligned) : a.popMostActive.2.activity.Holds a.activity.values
    (a.popMostActive.1.elim a.activity.isActive fun x => Function.update a.activity.isActive x false) := by
  obtain ⟨_, -, rfl, hh⟩ := ha.linked.holds_pop.after
  exact hh

theorem Aligned.popMostActive_none (ha : a.Aligned) (hx : a.popMostActive.1 = none) (x : Nat) :
    a.activity.isActive x = false := by
  unfold popMostActive at hx
  split at hx
  · rename_i h0
    exact ha.linked.isActive_of_limit h0 x
  · cases hx

/-- It was active, and has the greatest activity. -/
theorem Aligned.popMostActive_some (ha : a.Aligned) (hx : a.popMostActive.1 = some x) : a.activity.isActive x = true ∧
    (floatRanking.InOrder a.activity → ∀ y, a.activity.isActive y = true →
      floatRanking.rank (a.activityOf y) ≤ floatRanking.rank (a.activityOf x)) := by
  unfold popMostActive at hx
  split at hx
  · cases hx
  · cases hx
    exact ⟨ha.linked.isActive_index (by omega), fun ho y hy => ha.linked.le_top ho hy⟩

/-- Unless it has a value, the atom that is taken off the heap is the chosen one. -/
theorem Poised.popMostActive (ha : a.Aligned) (hp : a.Poised none)
    (hchosen : ∀ x, a.popMostActive.1 = some x → a.valueOf x = none → chosen = some x) :
    a.popMostActive.2.Poised chosen where
  active y hy hne hlt hv := by
    have hs := sameValues_popMostActive a
    rw [hs.size_eq] at hlt
    rw [hs.valueOf_eq] at hv
    have hactive := hp.active y hy (by simp) hlt hv
    rw [ha.holds_popMostActive.active]
    cases hx : a.popMostActive.1 with
    | none => exact hactive
    | some x =>
      have hyx : y ≠ x := by
        rintro rfl
        exact hne (hchosen y hx hv).symm
      rw [Option.elim_some, Function.update_of_ne hyx, hactive]
  ordered hc := by
    have hc' : floatRanking.Covers a.activity := hc.of_values_eq ha.holds_popMostActive.values.symm
    exact (ha.linked.ordered_pop hc' (hp.ordered hc')).holds_after

/-- An atom that has a value is not missed on the heap. -/
theorem Poised.popMostActive_valued (ha : a.Aligned) (hp : a.Poised none) (hx : a.popMostActive.1 = some x)
    (hv : a.valueOf x ≠ none) :
    a.popMostActive.2.Poised none ∧ a.popMostActive.2.activity.limit + 1 = a.activity.limit := by
  refine ⟨hp.popMostActive ha fun y hy hnone => ?_, ?_⟩
  · rw [hx] at hy
    cases hy
    exact absurd hnone hv
  · have hh := ha.holds_popMostActive
    rw [hx] at hh
    exact hh.limit_of_remove ha.linked (ha.popMostActive_some hx).1

theorem Aligned.activityOf_popMostActive (ha : a.Aligned) : a.popMostActive.2.activityOf = a.activityOf := by
  funext y
  rw [activityOf, IndexHeap.valueAt, ha.holds_popMostActive.values]
  rfl

/-- Atoms are taken off the heap until one has no value. It is the most active one of these, and all others of them are
still on the heap; if there is no such atom then all atoms have a value. -/
theorem Aligned.popUnvalued_spec (ha : a.Aligned) (hp : a.Poised none) (hn : a.activity.limit ≤ n) :
    (popUnvalued n a).2.Poised (popUnvalued n a).1 ∧
      match (popUnvalued n a).1 with
      | none => ∀ x ≠ topAtom, x < a.size → a.valueOf x ≠ none
      | some x => floatRanking.Covers a.activity → ∀ y ≠ topAtom, y < a.size → a.valueOf y = none →
          floatRanking.rank (a.activityOf y) ≤ floatRanking.rank (a.activityOf x) := by
  induction n generalizing a with
  | zero =>
    refine ⟨hp, fun x hx hlt hv => ?_⟩
    have hno := ha.linked.isActive_of_limit (Nat.le_zero.mp hn) x
    rw [hp.active x hx (by simp) hlt hv] at hno
    cases hno
  | succ n ih =>
    have hs := sameValues_popMostActive a
    unfold popUnvalued
    split
    · rename_i b hb
      obtain rfl : a.popMostActive.2 = b := by rw [hb]
      have hnone : a.popMostActive.1 = none := by rw [hb]
      refine ⟨hp.popMostActive ha fun x hx => (by rw [hnone] at hx; cases hx), fun x hx hlt hv => ?_⟩
      have hno := ha.popMostActive_none hnone x
      rw [hp.active x hx (by simp) hlt hv] at hno
      cases hno
    · rename_i x b hb
      obtain rfl : a.popMostActive.2 = b := by rw [hb]
      have hx : a.popMostActive.1 = some x := by rw [hb]
      split
      · refine ⟨hp.popMostActive ha fun y hy _ => hx.symm.trans hy, fun hc y hy hlt hv => ?_⟩
        exact (ha.popMostActive_some hx).2 (hp.ordered hc) y (hp.active y hy (by simp) hlt hv)
      · rename_i hv
        have hvalued : a.valueOf x ≠ none := fun hnone => hv (by rw [hs.valueOf_eq, hnone]; rfl)
        obtain ⟨hb', hlimit⟩ := hp.popMostActive_valued ha hx hvalued
        obtain ⟨hpoised, hrest⟩ := ih (hs.aligned ha) hb' (by omega)
        have hcovers : floatRanking.Covers a.activity → floatRanking.Covers a.popMostActive.2.activity := fun hc =>
          hc.of_values_eq ha.holds_popMostActive.values
        rw [hs.size_eq, hs.valueOf_eq, ha.activityOf_popMostActive] at hrest
        refine ⟨hpoised, ?_⟩
        split
        · rename_i hnone
          rwa [hnone] at hrest
        · rename_i y hsome
          rw [hsome] at hrest
          exact fun hc => hrest (hcovers hc)

end AtomTable

end ClauseLearning
