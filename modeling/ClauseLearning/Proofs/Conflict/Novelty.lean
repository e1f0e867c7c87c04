import ClauseLearning.Proofs.Conflict.AssertingClause

/-!
# Nothing known is learned again

A stored clause cannot be used any more for its literals that are false at level zero (`Solver.withoutRefuted`). Without
these, no stored clause is a part of the clause that is derived from a conflict: below the top level propagation is
over, so a clause that is false has two literals of the top level, and the derived clause has one. This holds of every
clause that is stored at the conflict, at whatever level it was stored (`Derived.not_subsumed`). So the derived clause
is stored as the only copy of itself (`nothing_learned_twice`).
-/

namespace ClauseLearning

variable {config : Config} {F : List Clause} {s t : Solver} {key : ClauseKey} {first : Literal} {rest : Clause}
  {lesson : Lesson} {d : StoredClause}

/-- A clause without its literals that are false at level zero. -/
def Solver.withoutRefuted (s : Solver) (c : Clause) : Clause :=
  c.filter fun l => !(s.atoms.valuation.fails l && s.atoms.levelOf l.atom == some 0)

theorem Solver.mem_withoutRefuted {c : Clause} {l : Literal} : l ∈ s.withoutRefuted c ↔
    l ∈ c ∧ ¬(s.atoms.valuation.fails l = true ∧ s.atoms.levelOf l.atom = some 0) := by
  simp [Solver.withoutRefuted, imp_iff_not_or]

/-- A stored clause has a literal that is not in the derived one, and that is not false at level zero. -/
theorem Derived.not_subset (h : Derived F s first rest) (hs : Sound F s) (hlevel : 0 < s.trail.level)
    (hd : s.clauses.get key = .ok d) : ¬s.withoutRefuted d.clause ⊆ first :: rest := by
  intro hsub
  have hfind := ClauseStore.find_of_get hd
  apply h.not_subsumed hs hlevel hfind
  intro l hl
  by_cases hrefuted : s.atoms.valuation.fails l = true ∧ s.atoms.levelOf l.atom = some 0
  · obtain ⟨hfails, hzero⟩ := hrefuted
    have hne := ((hs.proper hfind).known l hl).1
    exact Or.inl ⟨(hs.agrees.fails_iff hne).mp hfails, hzero⟩
  · exact Or.inr (hsub (Solver.mem_withoutRefuted.mpr ⟨Array.mem_toList_iff.mpr hl, hrefuted⟩))

/-- After the derived clause is stored, no other stored clause is a part of it. -/
theorem Asserts.key_eq_of_subset (h : Asserts s first rest lesson t) (hd : Derived F s first rest) (hs : Sound F s)
    (hlevel : 0 < s.trail.level) (hget : t.clauses.get key = .ok d) (hsub : d.clause ⊆ first :: rest) :
    key = lesson.key := by
  by_contra hne
  have hfind : s.clauses.find key = some d.literals := by
    rw [← ClauseStore.find_of_get hget, h.find key, if_neg hne]
  obtain ⟨e, he, hlits⟩ := ClauseStore.find_eq_some_iff.mp hfind
  apply hd.not_subset hs hlevel he
  intro l hl
  apply hsub
  have hmem := (Solver.mem_withoutRefuted.mp hl).1
  rwa [StoredClause.clause, hlits] at hmem

/-! ## Main result -/

/-- From a conflict above level zero, resolution derives a clause of which no stored clause is a part, even without its
literals that are false at level zero. Where the derived clause is stored, it is the only stored clause with its
literals. -/
theorem nothing_learned_twice (h : AtConflict config key t) :
    ∃ first rest buffer, t.resolution.resolve key t.clauses t.atoms t.trail = (.ok (first :: rest), buffer) ∧
      (∀ k d, t.clauses.get k = .ok d → ¬t.withoutRefuted d.clause ⊆ first :: rest) ∧
      ∀ lesson u, Solver.analyse key t = .ok lesson u →
        ∃ c, u.clauses.get lesson.key = .ok c ∧ c.clause = first :: rest ∧
          ∀ k d, u.clauses.get k = .ok d → d.clause ⊆ c.clause → k = lesson.key := by
  obtain ⟨F, c, hs, hlevel, hc⟩ := h.sound
  obtain ⟨first, rest, buffer, hres, hd, hlearns⟩ := analyse_asserts hs hlevel hc
  refine ⟨first, rest, buffer, hres, fun k d hget => hd.not_subset hs hlevel hget, fun lesson u hu => ?_⟩
  obtain ⟨hlearned, hasserts⟩ := (Solver.yields_iff.mp hlearns).1 lesson u hu
  obtain ⟨c, hget, hclause⟩ := (hasserts.learnedClause hd hlearned.pending).stored
  refine ⟨c, hget, hclause, fun k d hk hsub => ?_⟩
  rw [hclause] at hsub
  exact hasserts.key_eq_of_subset hd hs hlevel hk hsub

/-- The clause `3 1` is derived beside the clauses `2 3 1` and `¬2 3 1`, of which neither is a part of it. -/
theorem nothing_learned_twice_opposed : AtConflict default (.given 1) opposed ∧
    (opposed.clauses.get (.given 0)).toOption.map (·.clause) = some [⟨2, true⟩, ⟨3, true⟩, ⟨1, true⟩] ∧
    ∀ k d, opposed.clauses.get k = .ok d → ¬opposed.withoutRefuted d.clause ⊆ [⟨3, true⟩, ⟨1, true⟩] := by
  obtain ⟨first, rest, buffer, hres, hnew, -⟩ := nothing_learned_twice atConflict_opposed
  obtain ⟨rfl, rfl⟩ := eq_of_resolve_opposed hres
  obtain ⟨-, -, hstored, -⟩ := opposed_eq
  exact ⟨atConflict_opposed, hstored, hnew⟩

end ClauseLearning
