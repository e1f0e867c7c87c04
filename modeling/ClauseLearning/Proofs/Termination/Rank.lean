import Mathlib.Data.Finset.Powerset
import Mathlib.Data.Fintype.Basic
import Mathlib.Data.Finset.Prod
import Mathlib.Data.Prod.Lex
import Mathlib.Order.WellFounded
import ClauseLearning.Proofs.Termination.Moves

/-!
# The rank of a solver

Over so many atoms there are finitely many sets of literals (`clauseCount`), so `ClauseStore.missing`, the number of
those that no stored clause has, gets smaller with each clause that is learned (`Gains.missing_lt`). Reductions
bring such sets back. But each raises the limit for the next one by more than the last did, and once there have been
as many reductions as there are sets of literals, a reduction puts the next one off by more conflicts than there can
be. `Solver.rank` counts this down in lexicographic order: the reductions up to that number, the conflicts before
the next reduction, the missing sets, a restart if it is not ruled out for lack of conflicts, and the levels that
can be opened (`Moved.rank_lt`).
-/

namespace ClauseLearning

/-- The literals of the atoms below a number. -/
def literalsBelow (n : Nat) : Finset Literal := (Finset.range n ×ˢ Finset.univ).image fun x => ⟨x.1, x.2⟩

theorem mem_literalsBelow {n : Nat} {l : Literal} : l ∈ literalsBelow n ↔ l.atom < n := by
  obtain ⟨a, p⟩ := l
  simp [literalsBelow]

/-- The number of sets of literals of the atoms below a number. -/
def clauseCount (n : Nat) : Nat := (literalsBelow n).powerset.card

open Classical in
/-- The number of sets of literals of the atoms below a number that no stored clause has. -/
noncomputable def ClauseStore.missing (s : ClauseStore) (n : Nat) : Nat :=
  ((literalsBelow n).powerset.filter fun c => ¬s.Has c.toList).card

namespace ClauseStore

variable {s s' : ClauseStore} {c d : Clause} {n : Nat}

theorem has_congr (h : ∀ l, l ∈ c ↔ l ∈ d) : s.Has c ↔ s.Has d := by
  simp only [Has, h]

theorem missing_le (s : ClauseStore) (n : Nat) : s.missing n ≤ clauseCount n := by
  classical
  unfold missing
  exact Finset.card_filter_le _ _

theorem Reordered.missing_eq (h : s.Reordered s') (n : Nat) : s'.missing n = s.missing n := by
  classical
  unfold missing
  exact congrArg Finset.card (Finset.filter_congr fun _ _ => not_congr h.has_iff)

/-- With a clause of known atoms that is gained, fewer sets of literals are missing. -/
theorem Gains.missing_lt (h : s.Gains s')
    (hknown : ∀ key lits, s'.find key = some lits → ∀ l ∈ lits, l.atom < n) : s'.missing n < s.missing n := by
  classical
  obtain ⟨c, hc, hn⟩ := h.gained
  have hset : ∀ l, l ∈ c.toFinset.toList ↔ l ∈ c := fun l => by rw [Finset.mem_toList, List.mem_toFinset]
  have hmem : c.toFinset ∈ (literalsBelow n).powerset := by
    obtain ⟨key, lits, hfind, hiff⟩ := hc
    refine Finset.mem_powerset.mpr fun l hl => mem_literalsBelow.mpr ?_
    exact hknown key lits hfind l ((hiff l).mpr (List.mem_toFinset.mp hl))
  refine Finset.card_lt_card (Finset.ssubset_iff_of_subset ?_ |>.mpr ⟨c.toFinset, ?_, ?_⟩)
  · refine fun d hd => Finset.mem_filter.mpr ⟨(Finset.mem_filter.mp hd).1, fun hs => ?_⟩
    exact (Finset.mem_filter.mp hd).2 (h.kept hs)
  · exact Finset.mem_filter.mpr ⟨hmem, fun hs => hn ((has_congr hset).mp hs)⟩
  · exact fun hd => (Finset.mem_filter.mp hd).2 ((has_congr hset).mpr hc)

end ClauseStore

/-- What is left of a search, in lexicographic order. -/
noncomputable def Solver.rank (s : Solver) : ℕ ×ₗ ℕ ×ₗ ℕ ×ₗ ℕ ×ₗ ℕ :=
  let missing := s.clauses.missing s.atoms.size
  toLex (clauseCount s.atoms.size - s.counters.reductions,
    toLex (s.counters.conflicts + missing + 1 - s.counters.reductionLimit,
      toLex (missing, toLex (min s.counters.freshConflicts 1, s.atoms.size - s.trail.level))))

variable {F : List Clause} {s t : Solver}

/-- There are fewer levels than atoms. -/
theorem Sound.level_lt (h : Sound F s) : s.trail.level < s.atoms.size :=
  Nat.lt_of_le_of_lt h.agrees.layered.level_le h.agrees.size_lt

/-- A round that goes on lowers the rank, if a restart takes a conflict since the last one and the intervals between
reductions grow. -/
theorem Moved.rank_lt (h : Moved s t) (ht : Sound F t) (hst : Steady s t)
    (hinc : 1 ≤ s.config.reductionIncrement.value)
    (hfresh : s.restartDue = true → s.counters.freshConflicts ≠ 0) : t.rank < s.rank := by
  simp only [Solver.rank, hst.size, Prod.Lex.toLex_lt_toLex]
  cases h with
  | learned hgains hpace =>
    have hlt : t.clauses.missing s.atoms.size < s.clauses.missing s.atoms.size :=
      hgains.missing_lt fun key lits hc l hl => hst.size ▸ ((ht.proper hc).known l hl).2
    have hconflicts : t.counters.conflicts = s.counters.conflicts + 1 := congrArg Pace.conflicts hpace
    have hreductions : t.counters.reductions = s.counters.reductions := congrArg Pace.reductions hpace
    have hlimit : t.counters.reductionLimit = s.counters.reductionLimit := congrArg Pace.reductionLimit hpace
    omega
  | @decided u v w hconfig hu hrestart hreduce hpace hlevel hclauses =>
    have hbelow := ht.level_lt
    rw [hst.size] at hbelow
    have hmissing := hclauses.missing_eq s.atoms.size
    have hmissing' := hu.clauses.missing_eq s.atoms.size
    rw [← hrestart.clauses] at hmissing'
    obtain ⟨hvc, hvr, hvl⟩ := hrestart.counts
    obtain ⟨huc, huf, hur, hul⟩ := Counters.counts_eq hu.pace
    obtain ⟨htc, htf, htr, htl⟩ := Counters.counts_eq hpace
    rcases hreduce with ⟨hdue, hr⟩ | ⟨-, rfl⟩
    · -- with fewer reductions than sets of literals one more counts, otherwise the next one is put off
      have hdue : v.counters.reductionLimit ≤ v.counters.conflicts := by simpa [Solver.reductionDue] using hdue
      obtain ⟨hwc, hwr, hwl⟩ := hr.counts
      have hle := w.clauses.missing_le s.atoms.size
      have hmul : v.counters.reductions + 1 ≤ (v.counters.reductions + 1) * v.config.reductionIncrement.value := by
        rw [hconfig.2]
        exact Nat.le_mul_of_pos_right _ hinc
      omega
    · have hulevel := hu.level
      rcases hrestart with ⟨hdue, hr⟩ | ⟨-, rfl⟩
      · -- a restart uses up the fresh conflicts
        have hne := hfresh (hu.restartDue hconfig.1 ▸ hdue)
        obtain ⟨-, hvf, -, -⟩ := hr.counts
        omega
      · omega

end ClauseLearning
