import ClauseLearning.Trail
import Mathlib.Data.List.Basic

/-!
# Levels of a trail

A trail is `Layered` if its levels start one after the other, each with a literal, and all of them but the
literals of the top level have been propagated. The level of a position is the number of levels that start at or
before it (`HasLevel`, `HasLevel.eq_countP`); `NoLater i j` compares the levels of two positions without
counting them (`noLater_iff`). Assignments, decisions and cuts keep the order of levels and the levels of the
positions that stay. A trail on which decisions are made at any time is only `Ordered`: levels may be empty, and
what waits may belong to any of them.
-/

namespace ClauseLearning

namespace Trail

/-- Levels start one after the other, none is empty, and what is to be propagated belongs to the top level. -/
structure Layered (t : Trail) : Prop where
  increasing : ∀ {j k p q : Nat}, t.starts[j]? = some p → t.starts[k]? = some q → j < k → p < q
  inside : ∀ {k p : Nat}, t.starts[k]? = some p → p < t.literals.size
  propagated : ∀ {k p : Nat}, t.starts[k]? = some p → p ≤ t.head
  head_le : t.head ≤ t.literals.size

/-- Levels start one after the other, maybe with the next literal, and no more is propagated than there is. -/
structure Ordered (t : Trail) : Prop where
  sorted : ∀ {j k p q : Nat}, t.starts[j]? = some p → t.starts[k]? = some q → j < k → p ≤ q
  bounded : ∀ {k p : Nat}, t.starts[k]? = some p → p ≤ t.literals.size
  head_le : t.head ≤ t.literals.size

/-- The level of a position: so many levels start at or before it. -/
def HasLevel (t : Trail) (i n : Nat) : Prop :=
  n ≤ t.level ∧ ∀ {k p : Nat}, t.starts[k]? = some p → (k < n ↔ p ≤ i)

/-- The level of the first position is at most that of the second. -/
def NoLater (t : Trail) (i j : Nat) : Prop := ∀ {k p : Nat}, t.starts[k]? = some p → p ≤ i → p ≤ j

variable {t : Trail} {i j m n start level : Nat} {l : Literal}

theorem noLater_of_le (h : i ≤ j) : t.NoLater i j := fun _ hp => Nat.le_trans hp h

theorem HasLevel.noLater_iff (hi : t.HasLevel i m) (hj : t.HasLevel j n) : t.NoLater i j ↔ m ≤ n := by
  constructor
  · intro h
    by_contra hlt
    have hn : n < t.starts.size := Nat.lt_of_lt_of_le (Nat.lt_of_not_le hlt) hi.1
    have hs := Array.getElem?_eq_getElem hn
    exact Nat.lt_irrefl n ((hj.2 hs).mpr (h hs ((hi.2 hs).mp (Nat.lt_of_not_le hlt))))
  · intro h k p hs hp
    exact (hj.2 hs).mp (Nat.lt_of_lt_of_le ((hi.2 hs).mpr hp) h)

/-- A position has one level. -/
theorem HasLevel.unique (hm : t.HasLevel i m) (hn : t.HasLevel i n) : m = n :=
  Nat.le_antisymm ((hm.noLater_iff hn).mp (noLater_of_le (Nat.le_refl i)))
    ((hn.noLater_iff hm).mp (noLater_of_le (Nat.le_refl i)))

/-- Level zero is before all starts of levels. -/
theorem hasLevel_zero_iff : t.HasLevel i 0 ↔ ∀ {k p : Nat}, t.starts[k]? = some p → i < p := by
  constructor
  · intro h k p hs
    exact Nat.lt_of_not_le fun hp => Nat.not_lt_zero k ((h.2 hs).mpr hp)
  · intro h
    refine ⟨Nat.zero_le _, fun {k p} hs => ⟨fun hk => absurd hk (Nat.not_lt_zero k), fun hp => ?_⟩⟩
    exact absurd hp (Nat.not_le_of_lt (h hs))

/-- The top level is at or after all starts of levels. -/
theorem hasLevel_top_iff : t.HasLevel i t.level ↔ ∀ {k p : Nat}, t.starts[k]? = some p → p ≤ i := by
  constructor
  · intro h k p hs
    exact (h.2 hs).mp (Array.getElem?_eq_some_iff.mp hs).1
  · intro h
    exact ⟨Nat.le_refl _, fun {k p} hs => ⟨fun _ => h hs, fun _ => (Array.getElem?_eq_some_iff.mp hs).1⟩⟩

theorem isDecided_eq_false_iff : t.isDecided = false ↔ t.starts = #[] := by
  rw [isDecided, level, decide_eq_false_iff_not, Nat.pos_iff_ne_zero, not_not, Array.size_eq_zero_iff]

theorem Layered.ordered (h : t.Layered) : t.Ordered where
  sorted hp hq hjk := Nat.le_of_lt (h.increasing hp hq hjk)
  bounded hp := Nat.le_of_lt (h.inside hp)
  head_le := h.head_le

/-- There are at least as many literals as levels. -/
theorem Layered.level_le (h : t.Layered) : t.level ≤ t.literals.size := by
  have hstart : ∀ {k p : Nat}, t.starts[k]? = some p → k ≤ p := by
    intro k
    induction k with
    | zero => exact fun _ => Nat.zero_le _
    | succ k ih =>
      intro p hp
      have hlt := (Array.getElem?_eq_some_iff.mp hp).1
      have hk := Array.getElem?_eq_getElem (Nat.lt_of_succ_lt hlt)
      have := h.increasing hk hp (Nat.lt_succ_self k)
      have := ih hk
      omega
  by_contra hlt
  have hk := Array.getElem?_eq_getElem (show t.literals.size < t.starts.size from Nat.lt_of_not_le hlt)
  have := hstart hk
  have := h.inside hk
  omega

/-! ## Assignments and decisions -/

@[simp] theorem starts_push (t : Trail) (l : Literal) : (t.push l).starts = t.starts := rfl

@[simp] theorem head_push (t : Trail) (l : Literal) : (t.push l).head = t.head := rfl

theorem literals_push (t : Trail) (l : Literal) (i : Nat) :
    (t.push l).literals[i]? = if i = t.literals.size then some l else t.literals[i]? := Array.getElem?_push

/-- What is on the trail stays there. -/
theorem literals_push_of_some {k : Literal} (h : t.literals[i]? = some k) : (t.push l).literals[i]? = some k := by
  have := (Array.getElem?_eq_some_iff.mp h).1
  rw [literals_push, if_neg (by omega), h]

@[simp] theorem literals_openLevel (t : Trail) : t.openLevel.literals = t.literals := rfl

@[simp] theorem head_openLevel (t : Trail) : t.openLevel.head = t.head := rfl

@[simp] theorem level_openLevel (t : Trail) : t.openLevel.level = t.level + 1 := by simp [openLevel, level]

theorem starts_openLevel (t : Trail) (k : Nat) :
    t.openLevel.starts[k]? = if k = t.level then some t.literals.size else t.starts[k]? := Array.getElem?_push

theorem Ordered.push (h : t.Ordered) (l : Literal) : (t.push l).Ordered where
  sorted := h.sorted
  bounded hp := by
    have := h.bounded hp
    simp only [Trail.push, Array.size_push]
    omega
  head_le := by
    have := h.head_le
    simp only [Trail.push, Array.size_push]
    omega

theorem Ordered.openLevel (h : t.Ordered) : t.openLevel.Ordered where
  sorted {j k p q} hp hq hjk := by
    rw [starts_openLevel] at hp hq
    split at hq
    · rename_i hk
      rw [if_neg (by omega)] at hp
      cases hq
      exact h.bounded hp
    · have := (Array.getElem?_eq_some_iff.mp hq).1
      rw [if_neg (by simp only [Trail.level]; omega)] at hp
      exact h.sorted hp hq hjk
  bounded {k p} hp := by
    rw [starts_openLevel] at hp
    split at hp
    · cases hp
      exact Nat.le_refl _
    · exact h.bounded hp
  head_le := h.head_le

theorem Layered.push (h : t.Layered) (l : Literal) : (t.push l).Layered where
  increasing := h.increasing
  inside hs := by
    have := h.inside hs
    simp only [Trail.push, Array.size_push]
    omega
  propagated := h.propagated
  head_le := by
    have := h.head_le
    simp only [Trail.push, Array.size_push]
    omega

/-- A decision is made where all literals have been propagated. -/
theorem Layered.decide (h : t.Layered) (hh : t.head = t.literals.size) (l : Literal) :
    (t.openLevel.push l).Layered where
  increasing {j k p q} hp hq hjk := by
    rw [starts_push, starts_openLevel] at hp hq
    split at hq
    · rename_i hk
      rw [if_neg (by omega)] at hp
      cases hq
      exact h.inside hp
    · rename_i hk
      have := (Array.getElem?_eq_some_iff.mp hq).1
      rw [if_neg (by simp only [Trail.level]; omega)] at hp
      exact h.increasing hp hq hjk
  inside {k p} hp := by
    rw [starts_push, starts_openLevel] at hp
    simp only [Trail.push, literals_openLevel, Array.size_push]
    split at hp
    · cases hp
      omega
    · have := h.inside hp
      omega
  propagated {k p} hp := by
    rw [starts_push, starts_openLevel] at hp
    rw [head_push, head_openLevel, hh]
    split at hp
    · cases hp
      exact Nat.le_refl _
    · exact Nat.le_of_lt (h.inside hp)
  head_le := by
    have := h.head_le
    simp only [Trail.push, literals_openLevel, Array.size_push, head_openLevel]
    omega

theorem HasLevel.push (h : t.HasLevel i n) (l : Literal) : (t.push l).HasLevel i n := h

theorem HasLevel.openLevel (h : t.HasLevel i n) (hi : i < t.literals.size) : t.openLevel.HasLevel i n := by
  refine ⟨by rw [level_openLevel]; exact Nat.le_succ_of_le h.1, fun {k p} hs => ?_⟩
  rw [starts_openLevel] at hs
  split at hs
  · rename_i hk
    cases hs
    have := h.1
    constructor <;> intro <;> omega
  · exact h.2 hs

/-- The next position belongs to the top level. -/
theorem Ordered.hasLevel_next (h : t.Ordered) : t.HasLevel t.literals.size t.level := hasLevel_top_iff.mpr h.bounded

/-- What is to be propagated belongs to the top level. -/
theorem Layered.hasLevel_waiting (h : t.Layered) (hi : t.head ≤ i) : t.HasLevel i t.level :=
  hasLevel_top_iff.mpr fun hs => Nat.le_trans (h.propagated hs) hi

/-- The top level is what comes from some position on. -/
theorem Layered.exists_topLevel_eq (h : t.Layered) :
    ∃ start, t.topLevel = t.literals.toList.drop start ∧ ∀ i, t.HasLevel i t.level ↔ start ≤ i := by
  cases hback : t.starts.back? with
  | none =>
    have hempty : t.starts = #[] := Array.back?_eq_none_iff.mp hback
    have hlev : ∀ i, t.HasLevel i t.level := fun i => hasLevel_top_iff.mpr fun hs => by simp [hempty] at hs
    exact ⟨0, by simp [topLevel, hback], fun i => ⟨fun _ => Nat.zero_le i, fun _ => hlev i⟩⟩
  | some start =>
    have hstart : t.starts[t.starts.size - 1]? = some start := by rw [← Array.back?_eq_getElem?, hback]
    refine ⟨start, by simp [topLevel, hback], fun i => ?_⟩
    rw [hasLevel_top_iff]
    constructor
    · intro hall
      exact hall hstart
    · intro hle k p hs
      have hk := (Array.getElem?_eq_some_iff.mp hs).1
      rcases Nat.lt_or_eq_of_le (show k ≤ t.starts.size - 1 by omega) with hlt | rfl
      · have := h.increasing hs hstart hlt
        omega
      · obtain rfl := Option.some.inj (hs.symm.trans hstart)
        exact hle

/-- The literals of the top level are those at positions of the top level. -/
theorem Layered.mem_topLevel_iff (h : t.Layered) :
    l ∈ t.topLevel ↔ ∃ i, t.literals[i]? = some l ∧ t.HasLevel i t.level := by
  obtain ⟨start, htop, hlev⟩ := h.exists_topLevel_eq
  simp only [htop, hlev, List.mem_iff_getElem?, List.getElem?_drop, Array.getElem?_toList]
  constructor
  · rintro ⟨i, hi⟩
    exact ⟨start + i, hi, Nat.le_add_right _ _⟩
  · rintro ⟨i, hi, hle⟩
    exact ⟨i - start, by rw [Nat.add_sub_cancel' hle]; exact hi⟩

/-- The first literal of the top level is that at the start of the level. -/
theorem exists_start (hlevel : 0 < t.level) : ∃ start, t.starts[t.level - 1]? = some start ∧
    t.topLevel.head? = t.literals[start]? ∧ ∀ {i : Nat}, t.HasLevel i t.level → start ≤ i := by
  have hlt : t.level - 1 < t.starts.size := Nat.sub_one_lt_of_lt hlevel
  have hstart : t.starts[t.level - 1]? = some t.starts[t.level - 1] := Array.getElem?_eq_getElem hlt
  refine ⟨_, hstart, ?_, fun hi => hasLevel_top_iff.mp hi hstart⟩
  have hback : t.starts.back? = some t.starts[t.level - 1] := by rw [Array.back?_eq_getElem?]; exact hstart
  simp [topLevel, hback, List.head?_drop]

/-! ## Cuts -/

theorem cut_of_none (h : t.starts[level]? = none) : t.cut level = t := by
  unfold cut
  rw [h]

theorem cut_of_some (h : t.starts[level]? = some start) :
    t.cut level = ⟨t.literals.shrink start, t.starts.shrink level, min t.head start⟩ := by
  unfold cut
  rw [h]

theorem above_of_none (h : t.starts[level]? = none) : t.above level = [] := by
  unfold above
  rw [h]

theorem getElem?_shrink {α : Type} (xs : Array α) (n i : Nat) :
    (xs.shrink n)[i]? = if i < n then xs[i]? else none := by
  rw [Array.shrink_eq_take, Array.take_eq_extract, Array.getElem?_extract, Nat.zero_add, Nat.sub_zero]
  by_cases hi : i < xs.size
  · simp only [Nat.lt_min, hi, and_true]
  · rw [if_neg (by omega), Array.getElem?_eq_none (Nat.le_of_not_lt hi), ite_self]

theorem literals_cut (h : t.starts[level]? = some start) (i : Nat) :
    (t.cut level).literals[i]? = if i < start then t.literals[i]? else none := by
  rw [cut_of_some h, getElem?_shrink]

theorem starts_cut (h : t.starts[level]? = some start) (k : Nat) :
    (t.cut level).starts[k]? = if k < level then t.starts[k]? else none := by
  rw [cut_of_some h, getElem?_shrink]

theorem head_cut (h : t.starts[level]? = some start) : (t.cut level).head = min t.head start := by rw [cut_of_some h]

theorem mem_above (h : t.starts[level]? = some start) :
    l ∈ t.above level ↔ ∃ i, start ≤ i ∧ t.literals[i]? = some l := by
  unfold above
  rw [h]
  simp only [Array.mem_toList_iff, Array.mem_iff_getElem?]
  constructor
  · rintro ⟨i, hi⟩
    rw [Array.getElem?_extract] at hi
    split at hi
    · exact ⟨start + i, Nat.le_add_right start i, hi⟩
    · cases hi
  · rintro ⟨i, hs, hi⟩
    have := (Array.getElem?_eq_some_iff.mp hi).1
    exact ⟨i - start, by rw [Array.getElem?_extract, if_pos (by omega), Nat.add_sub_cancel' hs, hi]⟩

/-- What is above a level starts on the trail. -/
theorem Ordered.covers (h : t.Ordered) (level : Nat) : t.covers level = true := by
  rw [Trail.covers, Option.all_eq_true]
  exact fun _ hs => decide_eq_true (h.bounded hs)

theorem size_cut (h : t.Ordered) (hs : t.starts[level]? = some start) : (t.cut level).literals.size = start := by
  have := h.bounded hs
  simp only [cut_of_some hs, Array.shrink_eq_take, Array.take_eq_extract, Array.size_extract]
  omega

/-- The level after a cut. -/
theorem level_cut (t : Trail) (level : Nat) : (t.cut level).level = min t.level level := by
  unfold cut Trail.level
  split
  · rename_i hs
    have := (Array.getElem?_eq_some_iff.mp hs).1
    simp only [Array.shrink_eq_take, Array.take_eq_extract, Array.size_extract]
    omega
  · rename_i hs
    have := Array.getElem?_eq_none_iff.mp hs
    omega

/-- After a cut nothing waits for propagation. -/
theorem Layered.head_cut (h : t.Layered) (hs : t.starts[level]? = some start) :
    (t.cut level).head = (t.cut level).literals.size := by
  rw [size_cut h.ordered hs, Trail.head_cut hs]
  have := h.propagated hs
  omega

theorem Ordered.cut (h : t.Ordered) (level : Nat) : (t.cut level).Ordered := by
  cases hs : t.starts[level]? with
  | none => rw [cut_of_none hs]; exact h
  | some start =>
    refine ⟨fun {j k p q} hp hq hjk => ?_, fun {k p} hp => ?_, ?_⟩
    · rw [starts_cut hs] at hp hq
      split at hq
      · rw [if_pos (by omega)] at hp
        exact h.sorted hp hq hjk
      · cases hq
    · rw [starts_cut hs] at hp
      split at hp
      · rename_i hk
        rw [size_cut h hs]
        exact h.sorted hp hs hk
      · cases hp
    · rw [size_cut h hs, Trail.head_cut hs]
      exact Nat.min_le_right _ _

theorem Layered.cut (h : t.Layered) (level : Nat) : (t.cut level).Layered := by
  cases hs : t.starts[level]? with
  | none => rw [cut_of_none hs]; exact h
  | some start =>
    refine ⟨fun {j k p q} hp hq hjk => ?_, fun {k p} hp => ?_, fun {k p} hp => ?_, Nat.le_of_eq (h.head_cut hs)⟩
    · rw [starts_cut hs] at hp hq
      split at hq
      · rw [if_pos (by omega)] at hp
        exact h.increasing hp hq hjk
      · cases hq
    · rw [starts_cut hs] at hp
      split at hp
      · rename_i hk
        rw [size_cut h.ordered hs]
        exact h.increasing hp hs hk
      · cases hp
    · rw [starts_cut hs] at hp
      split at hp
      · rename_i hk
        have h1 := h.increasing hp hs hk
        have h2 := h.propagated hp
        rw [Trail.head_cut hs]
        omega
      · cases hp

/-- What is left of the trail is what was at the positions before the cut. -/
theorem getElem?_of_cut {k : Literal} (h : (t.cut level).literals[i]? = some k) : t.literals[i]? = some k := by
  cases hs : t.starts[level]? with
  | none => rwa [cut_of_none hs] at h
  | some start =>
    rw [literals_cut hs] at h
    split at h
    · exact h
    · cases h

/-- The starts of levels after a cut are those before it that lie on what is left of the trail. -/
theorem Layered.starts_cut_iff (h : t.Layered) (hs : t.starts[level]? = some start) {k p : Nat} :
    (t.cut level).starts[k]? = some p ↔ t.starts[k]? = some p ∧ p < start := by
  rw [starts_cut hs]
  constructor
  · intro hp
    split at hp
    · rename_i hk
      exact ⟨hp, h.increasing hp hs hk⟩
    · cases hp
  · rintro ⟨hp, hlt⟩
    have hk : k < level := by
      by_contra hk
      rcases Nat.eq_or_lt_of_le (Nat.le_of_not_lt hk) with rfl | hk
      · rw [hs] at hp
        cases hp
        omega
      · have := h.increasing hs hp hk
        omega
    rw [if_pos hk, hp]

theorem HasLevel.cut (hs : t.starts[level]? = some start) (hi : i < start) (hn : t.HasLevel i n) :
    (t.cut level).HasLevel i n := by
  have hle : ¬level < n := fun hlt => by
    have := (hn.2 hs).mp hlt
    omega
  have := hn.1
  refine ⟨by rw [level_cut]; omega, fun {k p} hp => ?_⟩
  rw [starts_cut hs] at hp
  split at hp
  · exact hn.2 hp
  · cases hp

/-- The positions of the levels up to a target are those before the cut. -/
theorem HasLevel.lt_start_iff (hn : t.HasLevel i n) (hs : t.starts[level]? = some start) : i < start ↔ n ≤ level := by
  have := hn.2 hs
  omega

end Trail

end ClauseLearning
