import ClauseLearning.Clause

/-!
# Normalised clauses

A normalised clause has the literals of the clause (`mem_normalise`) in the strict order of their indices
(`ordered_normalise`). So a literal stands next to its negation, and the clause has neighbours of one atom just if it
holds both (`hasTwins_normalise`); otherwise its atoms are distinct (`Ordered.nodup`).
-/

namespace ClauseLearning

namespace Clause

variable {c : Clause} {k l : Literal}

/-- The literals come in the strict order of their indices. -/
def Ordered (c : Clause) : Prop := c.Pairwise fun k l => k.index < l.index

instance (c : Clause) : Decidable c.Ordered := inferInstanceAs (Decidable (c.Pairwise _))

theorem mem_eraseReps_loop (x k : Literal) (c done : Clause) :
    x ∈ List.eraseRepsBy.loop (· == ·) k c done ↔ x ∈ done ∨ x = k ∨ x ∈ c := by
  induction c generalizing k done with
  | nil => simp [List.eraseRepsBy.loop, or_comm]
  | cons l c ih =>
    rw [List.eraseRepsBy.loop]
    split
    · rename_i heq
      rw [ih, show k = l from beq_iff_eq.mp heq]
      simp
    · rw [ih]
      simp [or_assoc, or_left_comm]

/-- Repetitions in a list in order stand next to each other. -/
theorem ordered_eraseReps_loop {k : Literal} {c done : Clause}
    (hd : (k :: done).Pairwise fun x y => y.index < x.index) (hc : (k :: c).Pairwise fun x y => x.index ≤ y.index) :
    Ordered (List.eraseRepsBy.loop (· == ·) k c done) := by
  induction c generalizing k done with
  | nil => exact List.pairwise_reverse.mpr hd
  | cons l c ih =>
    obtain ⟨hk, hc⟩ := List.pairwise_cons.mp hc
    rw [List.eraseRepsBy.loop]
    split
    · rename_i heq
      rw [beq_iff_eq.mp heq] at hd ⊢
      exact ih hd hc
    · rename_i hne
      have hlt : k.index < l.index := by
        have hne : k ≠ l := by simpa using hne
        exact Nat.lt_of_le_of_ne (hk l List.mem_cons_self) fun he => hne (Literal.index_inj he)
      refine ih (List.pairwise_cons.mpr ⟨fun x hx => ?_, hd⟩) hc
      rcases List.mem_cons.mp hx with rfl | hx
      · exact hlt
      · exact Nat.lt_trans ((List.pairwise_cons.mp hd).1 x hx) hlt

theorem mem_normalise : l ∈ c.normalise ↔ l ∈ c := by
  have hsort : l ∈ c.mergeSort Literal.le ↔ l ∈ c := List.mem_mergeSort
  unfold normalise List.eraseReps
  rw [← hsort]
  cases c.mergeSort Literal.le with
  | nil => rfl
  | cons k d => simp [List.eraseRepsBy, mem_eraseReps_loop]

theorem ordered_normalise (c : Clause) : c.normalise.Ordered := by
  have hsorted : (c.mergeSort Literal.le).Pairwise fun k l => k.index ≤ l.index := by
    refine (List.pairwise_mergeSort (fun k l m hkl hlm => ?_) (fun k l => ?_) c).imp (by simp [Literal.le])
    · simp only [Literal.le, decide_eq_true_eq] at *
      exact Nat.le_trans hkl hlm
    · simpa [Literal.le] using Nat.le_total k.index l.index
  unfold normalise List.eraseReps
  cases h : c.mergeSort Literal.le with
  | nil => exact List.Pairwise.nil
  | cons k d =>
    rw [h] at hsorted
    exact ordered_eraseReps_loop (List.pairwise_singleton _ _) hsorted

theorem eraseReps_loop_of_ordered {k : Literal} {c : Clause} (done : Clause) (hc : Ordered (k :: c)) :
    List.eraseRepsBy.loop (· == ·) k c done = done.reverse ++ k :: c := by
  induction c generalizing k done with
  | nil => exact List.reverse_cons
  | cons l c ih =>
    obtain ⟨hk, hc⟩ := List.pairwise_cons.mp hc
    have hne : (k == l) = false := by
      refine beq_eq_false_iff_ne.mpr fun heq => ?_
      have := hk l List.mem_cons_self
      rw [heq] at this
      omega
    rw [List.eraseRepsBy.loop, hne, ih (k :: done) hc, List.reverse_cons, List.append_assoc]
    rfl

/-- A clause in strict order is normalised already. -/
theorem Ordered.normalise (h : c.Ordered) : c.normalise = c := by
  have hsort : c.mergeSort Literal.le = c :=
    List.mergeSort_of_pairwise (h.imp fun hkl => decide_eq_true (Nat.le_of_lt hkl))
  unfold Clause.normalise List.eraseReps
  rw [hsort]
  cases c with
  | nil => rfl
  | cons k c => exact eraseReps_loop_of_ordered [] h

/-- Of two literals of one atom, the one with the greater index is the negation of the other. -/
theorem eq_neg_of_index (ha : k.atom = l.atom) (hi : k.index < l.index) : l = -k := by
  obtain ⟨x, p⟩ := k
  obtain ⟨y, q⟩ := l
  simp only at ha
  subst ha
  cases p <;> cases q <;> simp [Literal.index, Neg.neg, Literal.negate] at hi ⊢

/-- Neighbours of one atom are a literal and its negation. -/
theorem Ordered.twins (h : c.Ordered) (ht : c.hasTwins = true) : ∃ l ∈ c, -l ∈ c := by
  induction c with
  | nil => cases ht
  | cons k c ih =>
    obtain ⟨hk, hc⟩ := List.pairwise_cons.mp h
    cases c with
    | nil => cases ht
    | cons l c =>
      rw [hasTwins, Bool.or_eq_true, beq_iff_eq] at ht
      rcases ht with ha | ht
      · have hl := eq_neg_of_index ha (hk l List.mem_cons_self)
        exact ⟨k, List.mem_cons_self, hl ▸ List.mem_cons_of_mem _ List.mem_cons_self⟩
      · obtain ⟨m, hm, hneg⟩ := ih hc ht
        exact ⟨m, List.mem_cons_of_mem _ hm, List.mem_cons_of_mem _ hneg⟩

/-- Without neighbours of one atom, the atoms are in strict order. -/
theorem Ordered.atoms (h : c.Ordered) (ht : c.hasTwins = false) : c.Pairwise fun k l => k.atom < l.atom := by
  induction c with
  | nil => exact List.Pairwise.nil
  | cons k c ih =>
    obtain ⟨hk, hc⟩ := List.pairwise_cons.mp h
    cases c with
    | nil => exact List.pairwise_singleton _ _
    | cons l c =>
      rw [hasTwins, Bool.or_eq_false_iff, beq_eq_false_iff_ne] at ht
      have hrest := ih hc ht.2
      have hlt : k.atom < l.atom := by
        have hkl := hk l List.mem_cons_self
        have := Bool.toNat_le k.polarity
        have := Bool.toNat_le l.polarity
        simp only [Literal.index] at hkl
        have := ht.1
        omega
      refine List.pairwise_cons.mpr ⟨fun m hm => ?_, hrest⟩
      rcases List.mem_cons.mp hm with rfl | hm
      · exact hlt
      · exact Nat.lt_trans hlt ((List.pairwise_cons.mp hrest).1 m hm)

theorem Ordered.nodup (h : c.Ordered) (ht : c.hasTwins = false) : (c.map (·.atom)).Nodup :=
  List.pairwise_map.mpr ((h.atoms ht).imp Nat.ne_of_lt)

/-- A normalised clause has neighbours of one atom just if the clause holds a literal and its negation. -/
theorem hasTwins_normalise : c.normalise.hasTwins = true ↔ ∃ l ∈ c, -l ∈ c := by
  constructor
  · intro ht
    obtain ⟨l, hl, hn⟩ := (ordered_normalise c).twins ht
    exact ⟨l, mem_normalise.mp hl, mem_normalise.mp hn⟩
  · rintro ⟨l, hl, hn⟩
    cases ht : c.normalise.hasTwins with
    | true => rfl
    | false =>
      have hlt := (ordered_normalise c).nodup ht
      obtain ⟨i, hi⟩ := List.mem_iff_getElem?.mp (mem_normalise.mpr hl)
      obtain ⟨j, hj⟩ := List.mem_iff_getElem?.mp (mem_normalise.mpr hn)
      have hij : i = j := by
        refine (List.getElem?_inj (by simpa using (List.getElem?_eq_some_iff.mp hi).1) hlt).mp ?_
        rw [List.getElem?_map, List.getElem?_map, hi, hj]
        rfl
      rw [hij, hj] at hi
      have := congrArg Literal.polarity (Option.some.inj hi)
      simp at this

end Clause

end ClauseLearning
