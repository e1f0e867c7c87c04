import Mathlib.Data.Nat.Bitwise
import Mathlib.Data.Nat.Factorization.Basic
import Mathlib.Tactic.Ring
import ClauseLearning.Luby

/-!
# The elements of the Luby sequence

The elements are those of the recurrence (`Luby.term`): a block of `2 ^ (k + 1) - 1` places ends with `2 ^ k`, and what
stands before its end, from place `2 ^ k` on, is the start of the sequence again.

The run with number `u` has a place for each power of two up to the low bit of `u`, which fixes the place at which
it starts (`Luby.first`). So the counters stand at one place (`IsPlace`), and a step leads to the next one, up to
the last that the bound of the counters leaves room for (`IsPlace.next_of_le`, `IsPlace.next_last`). Behind the run
with number `2 ^ j`, which ends a block, the runs start again (`first_add`), so that the elements follow the
recurrence (`term_first_add`).
-/

namespace ClauseLearning

namespace Luby

variable {s : Luby} {n u i j k m : Nat}

/-! ## The recurrence -/

/-- The element at a place, counted from one, by the recurrence. -/
def term (n : Nat) : Nat :=
  if n = 0 then 0
  else if n + 1 = 2 ^ (n.log2 + 1) then 2 ^ n.log2
  else term (n + 1 - 2 ^ n.log2)
termination_by n
decreasing_by
  have hle := Nat.log2_self_le ‹n ≠ 0›
  have hlog : n.log2 ≠ 0 := by
    intro h0
    have := Nat.lt_log2_self (n := n)
    simp only [h0] at *
    omega
  have := Nat.one_lt_two_pow hlog
  omega

/-- A block ends with the power of two that is half as long. -/
theorem term_two_pow (k : Nat) : term (2 ^ (k + 1) - 1) = 2 ^ k := by
  have hpos := Nat.two_pow_pos k
  have hlog : (2 ^ (k + 1) - 1).log2 = k := (Nat.log2_eq_iff (by omega)).mpr ⟨by omega, by omega⟩
  rw [term, if_neg (by omega), hlog, if_pos (by omega)]

/-- What stands before the end of a block is the start of the sequence again. -/
theorem term_of_lt (hk : 2 ^ k ≤ n) (hn : n < 2 ^ (k + 1) - 1) : term n = term (n - 2 ^ k + 1) := by
  have hpos := Nat.two_pow_pos k
  have hlog : n.log2 = k := (Nat.log2_eq_iff (by omega)).mpr ⟨hk, by omega⟩
  rw [term, if_neg (by omega), hlog, if_neg (by omega), Nat.sub_add_comm hk]

/-! ## Low bits -/

/-- A positive number is an odd multiple of a power of two. -/
theorem exists_odd_mul (hu : 0 < u) : ∃ i m, u = 2 ^ i * (2 * m + 1) := by
  obtain ⟨i, v, hodd, rfl⟩ := Nat.exists_eq_two_pow_mul_odd hu.ne'
  obtain ⟨m, rfl⟩ := hodd
  exact ⟨i, m, rfl⟩

/-- The low bit of a number is the power of two of which it is an odd multiple. -/
theorem lowBit_mul (h : 2 ^ i * (2 * m + 1) < bound) : lowBit (2 ^ i * (2 * m + 1)) = 2 ^ i := by
  have hpos := Nat.two_pow_pos i
  have hnum : 2 ^ i * (2 * m + 1) = 2 ^ (i + 1) * m + 2 ^ i := by ring
  have hi : i < 32 := (Nat.pow_lt_pow_iff_right (by decide : 1 < 2)).mp (Nat.lt_of_le_of_lt (by omega) h)
  have hneg : bound - 2 ^ i * (2 * m + 1) = 2 ^ 32 - (2 ^ (i + 1) * m + (2 ^ i - 1) + 1) := by
    rw [hnum, bound]
    omega
  have hless : 2 ^ (i + 1) * m + (2 ^ i - 1) < 2 ^ 32 := by
    rw [hnum, bound] at h
    omega
  refine Nat.eq_of_testBit_eq fun j => ?_
  rw [lowBit, hneg, hnum, Nat.testBit_and, Nat.testBit_two_pow_sub_succ hless,
    Nat.testBit_two_pow_mul_add m (by omega), Nat.testBit_two_pow_mul_add m (by omega)]
  by_cases hj : j < i + 1
  · rw [if_pos hj, if_pos hj, Nat.testBit_two_pow, Nat.testBit_two_pow_sub_one]
    grind
  · rw [if_neg hj, if_neg hj, Nat.testBit_two_pow]
    grind

theorem lowBit_two_pow (hi : i < 32) : lowBit (2 ^ i) = 2 ^ i := by
  have hlt : 2 ^ i < bound := Nat.pow_lt_pow_right (by decide) hi
  simpa using lowBit_mul (i := i) (m := 0) (by simpa using hlt)

/-- A higher power of two does not change the low bit. -/
theorem lowBit_add (hu : 0 < u) (hlt : u < 2 ^ j) (hj : j < 32) : lowBit (2 ^ j + u) = lowBit u := by
  obtain ⟨i, m, rfl⟩ := exists_odd_mul hu
  have hi : i < j := (Nat.pow_lt_pow_iff_right (by decide : 1 < 2)).mp
    (Nat.lt_of_le_of_lt (Nat.le_mul_of_pos_right _ (by omega)) hlt)
  have hpow : 2 ^ (j + 1) ≤ bound := Nat.pow_le_pow_right (by decide) hj
  have hsum : 2 ^ j + 2 ^ i * (2 * m + 1) = 2 ^ i * (2 * (2 ^ (j - i - 1) + m) + 1) := by
    obtain ⟨d, rfl⟩ := Nat.exists_eq_add_of_lt hi
    rw [show i + d + 1 - i - 1 = d by omega]
    ring
  rw [hsum, lowBit_mul (by rw [← hsum]; omega), lowBit_mul (by omega)]

/-! ## Where the runs start -/

/-- The place at which a run starts: each run has a place for each power of two up to the low bit of its number. -/
def first : Nat → Nat
  | 0 => 0
  | u + 1 => first u + (lowBit u).log2 + 1

theorem first_mono : Monotone first := monotone_nat_of_le_succ fun u => by rw [first]; omega

theorem first_pos (hu : 0 < u) : 0 < first u := first_mono hu

/-- The places of a run come before the next run. -/
theorem first_lt (h : u < m) : first u + (lowBit u).log2 < first m := by
  have hle : first (u + 1) ≤ first m := first_mono h
  rw [first] at hle
  omega

/-- If a block has been passed, the runs start again. -/
theorem first_add_of (hj : j < 32) (hblock : first (2 ^ j) + j + 1 = 2 ^ (j + 1)) (hu : 0 < u) (hle : u ≤ 2 ^ j) :
    first (2 ^ j + u) = 2 ^ (j + 1) - 1 + first u := by
  induction u, hu using Nat.le_induction with
  | base =>
    have hone : first 1 = 1 := by decide
    rw [first, lowBit_two_pow hj, Nat.log2_two_pow, hone]
    omega
  | succ u hu ih =>
    have ih := ih (by omega)
    rw [← Nat.add_assoc, first, lowBit_add hu (by omega) hj, ih, first]
    omega

/-- The run with the number `2 ^ j` ends with a block. -/
theorem first_two_pow (hj : j ≤ 32) : first (2 ^ j) + j + 1 = 2 ^ (j + 1) := by
  induction j with
  | zero => decide
  | succ j ih =>
    have ih := ih (by omega)
    have hpos := Nat.two_pow_pos j
    have hdouble : 2 ^ (j + 1) = 2 ^ j + 2 ^ j := by rw [Nat.pow_succ]; omega
    have := first_add_of (by omega) ih hpos (Nat.le_refl _)
    rw [← hdouble] at this
    omega

/-- Behind a block the runs start again. -/
theorem first_add (hj : j < 32) (hu : 0 < u) (hle : u ≤ 2 ^ j) : first (2 ^ j + u) = 2 ^ (j + 1) - 1 + first u :=
  first_add_of hj (first_two_pow (Nat.le_of_lt hj)) hu hle

/-- The places of the last run of a block have the powers of two in order, as the recurrence has it. -/
theorem term_first_two_pow (hj : j < 32) (hi : i ≤ j) : term (first (2 ^ j) + i) = 2 ^ i := by
  induction j with
  | zero =>
    rw [Nat.le_zero.mp hi]
    exact term_two_pow 0
  | succ j ih =>
    have hfirst := first_two_pow (Nat.le_of_lt hj)
    have hfirst' := first_two_pow (j := j) (by omega)
    rcases Nat.eq_or_lt_of_le hi with rfl | hi
    · rw [show first (2 ^ (j + 1)) + (j + 1) = 2 ^ (j + 1 + 1) - 1 by omega, term_two_pow]
    · have hlt := Nat.lt_two_pow_self (n := j + 1)
      rw [term_of_lt (k := j + 1) (by omega) (by omega), ← ih (by omega) (by omega)]
      congr 1
      omega

/-- And so have the places of any run, which is the last one of a block or stands behind the longest block before it. -/
theorem term_first_add (hu : 0 < u) (hlt : u < bound) (hi : i ≤ (lowBit u).log2) : term (first u + i) = 2 ^ i := by
  induction u using Nat.strongRecOn generalizing i with
  | ind u ih =>
    obtain ⟨j, r, hr, rfl⟩ : ∃ j r, r < 2 ^ j ∧ u = 2 ^ j + r := by
      have hle := Nat.log2_self_le hu.ne'
      have hless := Nat.lt_log2_self (n := u)
      exact ⟨u.log2, u - 2 ^ u.log2, by omega, by omega⟩
    have hpos := Nat.two_pow_pos j
    have hj : j < 32 :=
      (Nat.pow_lt_pow_iff_right (by decide : 1 < 2)).mp (Nat.lt_of_le_of_lt (Nat.le_add_right _ r) hlt)
    rcases Nat.eq_zero_or_pos r with rfl | hr0
    · rw [Nat.add_zero, lowBit_two_pow hj, Nat.log2_two_pow] at hi
      exact term_first_two_pow hj hi
    · rw [lowBit_add hr0 hr hj] at hi
      have hstart := first_pos hr0
      have hend := first_lt hr
      have hfirst := first_two_pow (Nat.le_of_lt hj)
      rw [first_add hj hr0 (Nat.le_of_lt hr), term_of_lt (k := j + 1) (by omega) (by omega),
        ← ih r (by omega) hr0 (by omega) hi]
      congr 1
      omega

/-! ## Places -/

/-- The number of places that the bound of the counters leaves room for. -/
def count : Nat := 2 ^ 33 - 35

/-- The counters stand at a place, counted from one: the element is a power of two up to the low bit of the run, in
which as many places are before it as the smaller powers. -/
structure IsPlace (s : Luby) (n : Nat) : Prop where
  run_pos : 0 < s.run
  run_lt : s.run < bound
  exists_power : ∃ i ≤ (lowBit s.run).log2, s.element = 2 ^ i ∧ n = first s.run + i

theorem isPlace_one : IsPlace {} 1 := ⟨by decide, by decide, 0, Nat.zero_le _, rfl, rfl⟩

/-- The low bit of the number of a run is a power of two. -/
theorem lowBit_eq_two_pow (hu : 0 < u) (hlt : u < bound) : lowBit u = 2 ^ (lowBit u).log2 := by
  obtain ⟨i, m, rfl⟩ := exists_odd_mul hu
  rw [lowBit_mul hlt, Nat.log2_two_pow]

/-- The last run has one place, behind all others. -/
theorem first_last : first (bound - 1) = count + 1 := by
  have hnext : first (bound - 1 + 1) = first (bound - 1) + (lowBit (bound - 1)).log2 + 1 := by rw [first]
  have hfirst : first (2 ^ 32) + 32 + 1 = 2 ^ 33 := first_two_pow (Nat.le_refl 32)
  rw [show bound - 1 + 1 = 2 ^ 32 by decide, show (lowBit (bound - 1)).log2 = 0 by decide] at hnext
  unfold count
  omega

namespace IsPlace

variable (h : IsPlace s n)
include h

/-- The element is the one of the recurrence. -/
theorem element_eq : s.element = term n := by
  obtain ⟨i, hi, hs, rfl⟩ := h.exists_power
  rw [hs, term_first_add h.run_pos h.run_lt hi]

/-- An element that doubles is less than the low bit of the run. -/
theorem two_mul_element_le (hne : lowBit s.run ≠ s.element) : 2 * s.element ≤ lowBit s.run := by
  obtain ⟨i, hi, hs, -⟩ := h.exists_power
  have hlow := lowBit_eq_two_pow h.run_pos h.run_lt
  rw [hs, hlow] at hne
  have hlt : i < (lowBit s.run).log2 := Nat.lt_of_le_of_ne hi fun heq => hne (by rw [heq])
  rw [hs, hlow, ← Nat.pow_succ']
  exact Nat.pow_le_pow_right (by decide) hlt

/-- So it stays within the bound. -/
theorem two_mul_element_lt (hne : lowBit s.run ≠ s.element) : 2 * s.element < bound :=
  Nat.lt_of_le_of_lt (Nat.le_trans (h.two_mul_element_le hne) Nat.and_le_left) h.run_lt

/-- There is a next place behind all but the last. -/
theorem next_of_le (hn : n ≤ count) : ∃ t, s.next = some (s.element, t) ∧ IsPlace t (n + 1) := by
  obtain ⟨i, hi, hs, hplace⟩ := h.exists_power
  have hlow := lowBit_eq_two_pow h.run_pos h.run_lt
  unfold next
  by_cases hend : lowBit s.run = s.element
  · have hlt : s.run + 1 < bound := by
      refine Nat.lt_of_le_of_ne h.run_lt fun heq => ?_
      have hlast := first_last
      rw [← heq, Nat.add_sub_cancel] at hlast
      omega
    have hpower : i = (lowBit s.run).log2 := by rw [hend, hs, Nat.log2_two_pow]
    rw [if_pos hend, if_pos hlt]
    refine ⟨_, rfl, Nat.succ_pos _, hlt, 0, Nat.zero_le _, rfl, ?_⟩
    rw [hplace, hpower, first]
  · rw [if_neg hend, if_pos (h.two_mul_element_lt hend)]
    refine ⟨_, rfl, h.run_pos, h.run_lt, i + 1, ?_, by rw [hs, Nat.pow_succ'], by rw [hplace, Nat.add_assoc]⟩
    have hle := h.two_mul_element_le hend
    rw [hs, ← Nat.pow_succ', hlow] at hle
    exact (Nat.pow_le_pow_iff_right (by decide : 1 < 2)).mp hle

end IsPlace

/-- The last place has none behind it. -/
theorem IsPlace.next_last (h : IsPlace s (count + 1)) : s.next = none := by
  obtain ⟨i, hi, hs, hplace⟩ := h.exists_power
  have hrun : s.run + 1 = bound := by
    refine (Nat.lt_or_eq_of_le h.run_lt).resolve_left fun hlt => ?_
    have hless : first s.run + (lowBit s.run).log2 < first (bound - 1) := first_lt (by omega)
    rw [first_last] at hless
    omega
  have hlow : lowBit s.run = 1 := by
    rw [show s.run = bound - 1 by omega]
    decide
  have hend : lowBit s.run = s.element := by
    rw [hlow, show Nat.log2 1 = 0 by decide, Nat.le_zero] at hi
    rw [hlow, hs, hi, Nat.pow_zero]
  rw [next, if_pos hend, if_neg (by omega)]

/-! ## Main result -/

theorem drop_succ (n : Nat) (s : Luby) : drop (n + 1) s = match (drop n s).next with
    | none => drop n s
    | some (_, t) => t := by
  induction n generalizing s with
  | zero => rw [drop]; rfl
  | succ n ih =>
    rw [drop, drop.eq_2 s n]
    cases hs : s.next with
    | none => simp only [hs]
    | some p => exact ih p.2

/-- Steps lead from place to place up to the last. -/
theorem isPlace_drop (n : Nat) : IsPlace (drop n {}) (min n count + 1) := by
  induction n with
  | zero => exact isPlace_one
  | succ n ih =>
    rw [drop_succ]
    by_cases hn : n < count
    · rw [Nat.min_eq_left (Nat.le_of_lt hn)] at ih
      obtain ⟨t, ht, hplace⟩ := ih.next_of_le hn
      rw [ht, Nat.min_eq_left hn]
      exact hplace
    · rw [Nat.min_eq_right (by omega)] at ih ⊢
      rw [ih.next_last]
      exact ih

/-- Each step gives the element of the Luby sequence at its place, up to place `2 ^ 33 - 35`, and from then on there is
none. No element that doubles leaves the bound. -/
theorem luby_sequence :
    (∀ k, term (2 ^ (k + 1) - 1) = 2 ^ k ∧ ∀ n, 2 ^ k ≤ n → n < 2 ^ (k + 1) - 1 → term n = term (n - 2 ^ k + 1)) ∧
      (∀ n, (drop n {}).next.map Prod.fst = if n < count then some (term (n + 1)) else none) ∧ 2 ^ 32 ≤ count ∧
      ∀ n, lowBit (drop n {}).run ≠ (drop n {}).element → 2 * (drop n {}).element < bound := by
  refine ⟨fun k => ⟨term_two_pow k, fun n => term_of_lt⟩, fun n => ?_, by decide, fun n =>
    (isPlace_drop n).two_mul_element_lt⟩
  have h := isPlace_drop n
  by_cases hn : n < count
  · rw [Nat.min_eq_left (Nat.le_of_lt hn)] at h
    obtain ⟨t, ht, -⟩ := h.next_of_le hn
    rw [ht, if_pos hn, ← h.element_eq]
    rfl
  · rw [Nat.min_eq_right (by omega)] at h
    rw [h.next_last, if_neg hn]
    rfl

/-- The first two blocks, and the start of the third. -/
example : take 9 {} = [1, 1, 2, 1, 1, 2, 4, 1, 1] := by decide

end Luby

end ClauseLearning
