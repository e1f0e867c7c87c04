import ClauseLearning.Proofs.Heap.Queue

/-!
# New values for indices on the heap

An index that is added again gets a new value. If it is not active, it finds its place when it is put on the heap. If it
is active, then putting it on the heap only moves it up: this restores the order exactly if no child has a greater value
than the new one (`Dominates`), as is the case if the value has not become smaller. Otherwise the index stays above a
greater child, and if it stands on top, then it is the next one that is taken off (`ordered_add_activate_iff`).
-/

namespace ClauseLearning

namespace IndexHeap

variable {α : Type} [LinearOrder α] [Inhabited α] {h h' : IndexHeap α} {i j p : Nat} {v : α}

/-- No child of an index has a greater value than the given one, if the index is active. -/
def Dominates (h : IndexHeap α) (i : Nat) (v : α) : Prop :=
  ∀ p q, h.position[i]? = some (some p) → 0 < q → q < h.limit → (q - 1) / 2 = p → h.key q ≤ v

theorem dominates_of_inactive (hx : h.isActive i = false) (v : α) : h.Dominates i v := by
  intro p q hp
  rw [isActive, hp] at hx
  cases hx

theorem exists_child_of_not_dominates (hx : h.position[i]? = some (some p)) (hd : ¬h.Dominates i v) :
    ∃ q, 0 < q ∧ q < h.limit ∧ (q - 1) / 2 = p ∧ v < h.key q := by
  simp only [Dominates, not_forall, not_le] at hd
  obtain ⟨p', q, hx', h0, hq, hqp, hlt⟩ := hd
  obtain rfl : p = p' := Option.some.inj (Option.some.inj (hx.symm.trans hx'))
  exact ⟨q, h0, hq, hqp, hlt⟩

/-- A value that has not become smaller is no smaller than those of the children. -/
theorem Linked.dominates_of_le (hl : h.Linked) (ho : (Ranking.ofLinearOrder α).InOrder h) (hv : h.valueAt i ≤ v) :
    h.Dominates i v := by
  rintro p q hp h0 hq rfl
  obtain ⟨-, hi⟩ := hl.position_iff.mp hp
  have hparent : h.key q ≤ h.key ((q - 1) / 2) := ho q h0 hq
  have hkey : h.key ((q - 1) / 2) = h.valueAt i := by rw [key, index, hi, Option.getD_some]
  exact (hkey ▸ hparent).trans hv

/-- An index stays where it is if its parent has no smaller value. -/
theorem Linked.returns_siftUp_of_le (hl : h.Linked) (hp : p < h.limit) (hle : 0 < p → h.key p ≤ h.key ((p - 1) / 2))
    {Q : Unit → IndexHeap α → Prop} : Returns (siftUp p) h Q ↔ Q () h := by
  cases p with
  | zero => rw [siftUp, returns_pure]
  | succ p =>
    have hparent : p / 2 < h.limit := by omega
    have hnot : ¬h.key (p / 2) < h.key (p + 1) := not_lt.mpr (hle (Nat.succ_pos p))
    rw [siftUp, returns_bind, hl.returns_exceeds hp hparent,
      if_neg (by rw [decide_eq_true_eq]; exact hnot), returns_pure]

/-! ## An active index with a new value -/

section Revalued

variable (hl : h.Linked) (hx : h.position[i]? = some (some p))
include hl

omit [LinearOrder α] [Inhabited α] in
theorem Linked.linked_revalued : (h.revalued i v).Linked := (hl.withValues Array.size_setIfInBounds).linked

include hx

omit [LinearOrder α] in
theorem Linked.key_revalued_self : (h.revalued i v).key p = v := by
  obtain ⟨hp, hi⟩ := hl.position_iff.mp hx
  have hlt : i < h.values.size := hl.lt_size (IndexHeap.isActive_iff.mpr ⟨p, hx⟩)
  simp only [key, index, revalued, valueAt, hi, Option.getD_some, Array.getElem?_setIfInBounds_self_of_lt hlt]

theorem Linked.key_revalued_of_ne {q : Nat} (hq : q < h.limit) (hne : q ≠ p) : (h.revalued i v).key q = h.key q := by
  refine hl.ranks_revalue (r := Ranking.ofLinearOrder α) v hq fun hxq => hne ?_
  rw [hx] at hxq
  exact (Option.some.inj (Option.some.inj hxq)).symm

/-- The children of the index have no greater values afterwards if they have none greater than the new value. -/
theorem Linked.overChildren_revalued_iff : OverChildren (h.revalued i v).key h.limit p ↔ h.Dominates i v := by
  constructor
  · intro ho p' q hx' h0 hq hqp
    obtain rfl : p = p' := Option.some.inj (Option.some.inj (hx.symm.trans hx'))
    have := ho q h0 hq hqp
    rwa [hl.key_revalued_self hx, hl.key_revalued_of_ne hx hq (by omega)] at this
  · intro hd q h0 hq hqp
    rw [hl.key_revalued_self hx, hl.key_revalued_of_ne hx hq (by omega)]
    exact hd p q hx h0 hq hqp

variable (ho : (Ranking.ofLinearOrder α).InOrder h)
include ho

/-- With a value no smaller than those of the children, moving the index up puts the heap in order. -/
theorem Linked.ordered_activate_revalued (hd : h.Dominates i v) :
    Returns (activate i) (h.revalued i v) fun _ h' => (Ranking.ofLinearOrder α).InOrder h' := by
  rw [returns_activate_of_active (h := h.revalued i v) hx]
  exact hl.linked_revalued.ordered_siftUp (r := Ranking.ofLinearOrder α) (fun _ _ => trivial) (hl.position_iff.mp hx).1
    (ho.nearly_of_eq fun q hne hq => hl.key_revalued_of_ne hx hq hne) ((hl.overChildren_revalued_iff hx).mpr hd)

/-- With a value below that of a child the index stays where it is. -/
theorem Linked.stays_of_not_dominates (hd : ¬h.Dominates i v) :
    Returns (activate i) (h.revalued i v) fun _ h' => h' = h.revalued i v := by
  have hp := (hl.position_iff.mp hx).1
  rw [returns_activate_of_active (h := h.revalued i v) hx, hl.linked_revalued.returns_siftUp_of_le hp fun h0 => ?_]
  rw [hl.key_revalued_self hx, hl.key_revalued_of_ne hx (by omega) (by omega)]
  obtain ⟨q, hq0, hq, hqp, hlt⟩ := exists_child_of_not_dominates hx hd
  have hchild : h.key q ≤ h.key p := hqp ▸ ho q hq0 hq
  exact (hlt.le.trans hchild).trans (ho p h0 hp)

/-- A value below that of a child leaves a greatest one on top unless the index stands there. -/
theorem Linked.le_top_revalued_iff (hd : ¬h.Dominates i v) :
    (∀ q < h.limit, (h.revalued i v).key q ≤ (h.revalued i v).key 0) ↔ p ≠ 0 := by
  obtain ⟨c, hc0, hc, hcp, hlt⟩ := exists_child_of_not_dominates hx hd
  constructor
  · rintro htop rfl
    have := htop c hc
    rw [hl.key_revalued_self hx, hl.key_revalued_of_ne hx hc (by omega)] at this
    exact not_lt.mpr this hlt
  · intro hne q hq
    rw [hl.key_revalued_of_ne hx (by omega) hne.symm]
    by_cases hqp : q = p
    · rw [hqp, hl.key_revalued_self hx]
      exact hlt.le.trans (ho.le_top hc)
    · rw [hl.key_revalued_of_ne hx hq hqp]
      exact ho.le_top hq

end Revalued

/-! ## Adding and activating -/

/-- The index on top, which is taken off next, has a greatest value. -/
def TopIsGreatest (h : IndexHeap α) : Prop := ∀ j, h.isActive j = true → h.valueAt j ≤ h.valueAt (h.index 0)

theorem Linked.topIsGreatest_iff (hl : h.Linked) : h.TopIsGreatest ↔ ∀ q < h.limit, h.key q ≤ h.key 0 := by
  constructor
  · exact fun ht q hq => ht _ (hl.isActive_index hq)
  · intro ht j hj
    obtain ⟨q, hq, hi⟩ := hl.isActive_iff.mp hj
    have := ht q hq
    rwa [key, index, hi] at this

section Activated

variable (hl : h.Linked) (ho : (Ranking.ofLinearOrder α).InOrder h)
include hl ho

theorem Linked.ordered_activate_added (hd : h.Dominates i v) :
    Returns (activate i) (h.added i v) fun _ h' => (Ranking.ofLinearOrder α).InOrder h' := by
  by_cases hx : h.isActive i = true
  · obtain ⟨p, hp⟩ := IndexHeap.isActive_iff.mp hx
    rw [IndexHeap.added, if_pos (hl.lt_size hx)]
    exact hl.ordered_activate_revalued hp ho hd
  · have ho' := hl.ordered_added ho (Bool.not_eq_true _ ▸ hx) v
    exact (hl.added i v).linked.ordered_activate (fun _ _ => trivial) ho' (by rw [size_added]; omega)

theorem Linked.activate_added_of_not_dominates (hd : ¬h.Dominates i v) :
    Returns (activate i) (h.added i v) fun _ h' =>
      ¬(Ranking.ofLinearOrder α).InOrder h' ∧ (h'.TopIsGreatest ↔ h.position[i]? ≠ some (some 0)) := by
  have hx : h.isActive i = true := by
    by_contra hx
    exact hd (dominates_of_inactive (Bool.not_eq_true _ ▸ hx) v)
  obtain ⟨p, hp⟩ := IndexHeap.isActive_iff.mp hx
  rw [IndexHeap.added, if_pos (hl.lt_size hx)]
  refine (hl.stays_of_not_dominates hp ho hd).imp fun _ h' hh' => ?_
  subst hh'
  refine ⟨fun ho' => hd ((hl.overChildren_revalued_iff hp).mp (ordered_iff.mp ho').2.1), ?_⟩
  rw [hl.linked_revalued.topIsGreatest_iff, hp, ne_eq, Option.some_inj, Option.some_inj]
  exact hl.le_top_revalued_iff hp ho hd

/-- What comes of adding an index and putting it on the heap. -/
theorem Linked.add_activate_spec (i : Nat) (v : α) :
    Returns (do discard (add i v); activate i) h fun b h' => b = !h.isActive i ∧
      h'.Holds (h.added i v).values (Function.update h.isActive i true) ∧
      ((Ranking.ofLinearOrder α).InOrder h' ↔ h.Dominates i v) ∧
      (h'.TopIsGreatest ↔ (h.position[i]? = some (some 0) → h.Dominates i v)) := by
  have ha := hl.added i v
  have hholds := ha.linked.holds_activate (i := i) (by rw [size_added]; omega)
  rw [ha.active] at hholds
  rw [returns_bind, returns_discard, returns_add]
  by_cases hd : h.Dominates i v
  · refine (hholds.and (hl.ordered_activate_added ho hd)).imp fun b h' ⟨⟨hb, hh⟩, ho'⟩ =>
      ⟨hb, hh, iff_of_true ho' hd, ?_⟩
    exact iff_of_true (fun j hj => hh.linked.le_top ho' hj) fun _ => hd
  · refine (hholds.and (hl.activate_added_of_not_dominates ho hd)).imp fun b h' ⟨⟨hb, hh⟩, ho', ht⟩ => ?_
    exact ⟨hb, hh, iff_of_false ho' hd, ht.trans (imp_congr_right fun _ => iff_of_false id hd)⟩

end Activated

/-- On any heap that is reached and in order, adding an index with a value and putting it on the heap succeeds: the
index is active and has the value, and nothing else has changed of what is active and of the values. The heap is in
order exactly if no child of the index had a greater value than the new one, as is the case if the index was not
active or its value has not become smaller; and the index that is then taken off has a greatest value unless it is
this one with a greater child. -/
theorem ordered_add_activate_iff (hr : Reached h) (ho : (Ranking.ofLinearOrder α).InOrder h) (i : Nat) (v : α) :
    (h.isActive i = false ∨ h.valueAt i ≤ v → h.Dominates i v) ∧
    ∃ b h' j h'', (do discard (add i v); activate i) h = .ok b h' ∧ pop h' = .ok (some j) h'' ∧
      h'.isActive = Function.update h.isActive i true ∧ h'.valueAt = Function.update h.valueAt i v ∧
      ((∀ p, 0 < p → p < h'.limit → h'.key p ≤ h'.key ((p - 1) / 2)) ↔ h.Dominates i v) ∧
      h'.isActive j = true ∧
      ((∀ k, h'.isActive k = true → h'.valueAt k ≤ h'.valueAt j) ↔
        (h.position[i]? = some (some 0) → h.Dominates i v)) := by
  have hl := hr.linked
  refine ⟨fun hx => hx.elim (dominates_of_inactive · v) (hl.dominates_of_le ho), ?_⟩
  obtain ⟨b, h', hrun, -, hh, ho', ht⟩ := returns_iff.mp (hl.add_activate_spec ho i v)
  have hvalue : h'.valueAt = Function.update h.valueAt i v := by
    rw [← valueAt_added]
    funext j
    rw [valueAt, hh.values, valueAt]
  have hi : h'.isActive i = true := by rw [hh.active, Function.update_self]
  have h0 : 0 < h'.limit := by
    obtain ⟨p, hp, -⟩ := hh.linked.isActive_iff.mp hi
    omega
  obtain ⟨j, h'', hpop, hj, -⟩ := returns_iff.mp hh.linked.holds_pop
  rw [if_neg (Nat.pos_iff_ne_zero.mp h0)] at hj
  subst hj
  exact ⟨b, h', _, h'', hrun, hpop, hh.active, hvalue, ho', hh.linked.isActive_index h0, ht⟩

/-- The index on top can get a smaller value than it had, and still be the next one. -/
theorem ordered_add_activate_raised :
    Reached raised ∧ (Ranking.ofLinearOrder Nat).InOrder raised ∧ raised.valueAt 2 = 9 ∧
    ∃ b h' j h'', (do discard (add 2 8); activate 2) raised = .ok b h' ∧ pop h' = .ok (some j) h'' ∧
      ∀ k, h'.isActive k = true → h'.valueAt k ≤ h'.valueAt j := by
  refine ⟨orderly_raised.reached, orderly_raised.ordered, rfl, ?_⟩
  have hd : raised.Dominates 2 8 := by
    intro p q _ h0 hq _
    obtain rfl : q = 1 := Nat.le_antisymm (Nat.lt_succ_iff.mp hq) h0
    decide
  obtain ⟨-, b, h', j, h'', hrun, hpop, -, -, -, -, hmax⟩ :=
    ordered_add_activate_iff orderly_raised.reached orderly_raised.ordered 2 8
  exact ⟨b, h', j, h'', hrun, hpop, hmax.mpr fun _ => hd⟩

/-- With a value below that of its child, the index on top stays there and is taken off first. -/
theorem unordered_add_activate_raised : Reached raised ∧ (Ranking.ofLinearOrder Nat).InOrder raised ∧
    ∃ h' h'', (do discard (add 2 1); activate 2) raised = .ok false h' ∧ pop h' = .ok (some 2) h'' ∧
      ¬(Ranking.ofLinearOrder Nat).InOrder h' ∧ h'.isActive 0 = true ∧ h'.valueAt 2 < h'.valueAt 0 := by
  have hrun : (do discard (add 2 1); activate 2 : HeapM Nat Bool) raised =
      .ok false ⟨#[7, 0, 1], #[some 1, none, some 0], #[2, 0, unused], 2⟩ := by with_unfolding_all rfl
  have hpop : pop (IndexHeap.mk #[7, 0, 1] #[some 1, none, some 0] #[2, 0, unused] 2) =
      .ok (some 2) ⟨#[7, 0, 1], #[some 0, none, none], #[0, 2, unused], 1⟩ := by with_unfolding_all rfl
  exact ⟨orderly_raised.reached, orderly_raised.ordered, _, _,
    hrun, hpop, fun ho => absurd (ho 1 (by decide) (by decide)) (by decide), rfl, by decide⟩

end IndexHeap

end ClauseLearning
