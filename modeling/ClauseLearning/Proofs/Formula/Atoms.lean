import ClauseLearning.Proofs.Formula.Additions

/-!
# What a new atom comes to

The outcome of a new atom is given as a function of the state (`freshAtom_eq`): all tables and the watch lists grow by
it (`Solver.grown`), with a value to go back to that is drawn from the source of random choices. Atoms can be added up
to the largest one (`exists_ensureAtoms_iff`), in one step or in several (`ensureAtoms_of_le`).
-/

namespace ClauseLearning

variable {F : List Clause} {s t : Solver} {a : Nat}

namespace Solver

/-- The solver with one more atom, a value for it to go back to and the source of random choices after it was drawn. -/
def grown (s : Solver) (drawn : Bool × Generator) : Solver :=
  { s.begun with
    atoms := s.atoms.grow drawn.1
    watches := s.watches.ensure s.atoms.size
    random := drawn.2 }

@[simp] theorem size_grown (s : Solver) (drawn : Bool × Generator) : (s.grown drawn).atoms.size = s.atoms.size + 1 :=
  AtomTable.size_grow _ _

@[simp] theorem valueOf_grown (s : Solver) (drawn : Bool × Generator) (x : Nat) :
    (s.grown drawn).atoms.valueOf x = s.atoms.valueOf x := AtomTable.valueOf_grow _ _ x

/-- What is drawn for a new atom, none if the parameter is no probability. -/
def draw (s : Solver) : Option (Bool × Generator) := s.random.bool s.config.polarityBias.value

theorem exists_draw (h : IsProbability s.config.polarityBias.value) : ∃ drawn, s.draw = some drawn := by
  obtain ⟨b, g, hbg⟩ := s.random.bool_spec h
  exact ⟨(b, g), hbg⟩

/-- The outcome of a new atom, as a function of the state. -/
theorem freshAtom_eq (ha : s.atoms.Aligned) : freshAtom s = match s.draw with
    | none => .error (.breach .invalidProbability) s
    | some drawn =>
      if maxAtom < s.atoms.size then .error .atomsExhausted { s with random := drawn.2 }
      else .ok s.atoms.size (s.grown drawn) := by
  apply eq_of_yields
  simp only [freshAtom, randomBool, yields_bind, yields_get]
  rw [draw]
  cases s.random.bool s.config.polarityBias.value with
  | none => rfl
  | some drawn =>
    refine yields_bind.mpr (yields_modify.mpr (yields_pure.mpr ?_))
    by_cases hfull : maxAtom < s.atoms.size
    · simp only [if_pos hfull]
      rfl
    · simp only [if_neg hfull]
      simp only [yields_bind, yields_get, yields_onAtoms, AtomM.grow_eq ha]
      rfl

theorem freshAtom_ok_iff (ha : s.atoms.Aligned) : freshAtom s = .ok a t ↔
    s.atoms.size ≤ maxAtom ∧ ∃ drawn, s.draw = some drawn ∧ a = s.atoms.size ∧ t = s.grown drawn := by
  rw [freshAtom_eq ha]
  cases s.draw with
  | none => simp
  | some drawn =>
    by_cases hfull : maxAtom < s.atoms.size
    · simp [hfull, Nat.not_le.mpr hfull]
    · simp [hfull, Nat.not_lt.mp hfull, eq_comm]

/-! ## Several atoms -/

theorem addAtoms_succ_ok_iff {n : Nat} (ha : s.atoms.Aligned) : addAtoms (n + 1) s = .ok () t ↔
    s.atoms.size ≤ maxAtom ∧ ∃ drawn, s.draw = some drawn ∧ addAtoms n (s.grown drawn) = .ok () t := by
  rw [addAtoms, bind_ok_iff]
  constructor
  · rintro ⟨a, u, hfresh, hn⟩
    obtain ⟨hroom, drawn, hdraw, rfl, rfl⟩ := (freshAtom_ok_iff ha).mp hfresh
    exact ⟨hroom, drawn, hdraw, hn⟩
  · rintro ⟨hroom, drawn, hdraw, hn⟩
    exact ⟨_, _, (freshAtom_ok_iff ha).mpr ⟨hroom, drawn, hdraw, rfl, rfl⟩, hn⟩

theorem addAtoms_add (m n : Nat) : addAtoms (m + n) = (do addAtoms m; addAtoms n) := by
  induction m with
  | zero => simp [addAtoms]
  | succ m ih => rw [Nat.succ_add, addAtoms, addAtoms, bind_assoc, ih]

/-- New atoms change neither trail nor clauses. -/
theorem addAtoms_leaves {n : Nat} (ha : s.atoms.Aligned) (hn : addAtoms n s = .ok () t) :
    t.trail = s.trail ∧ t.clauses = s.clauses := by
  induction n generalizing s with
  | zero =>
    cases hn
    exact ⟨rfl, rfl⟩
  | succ n ih =>
    obtain ⟨-, drawn, -, hn⟩ := (addAtoms_succ_ok_iff ha).mp hn
    obtain ⟨htrail, hclauses⟩ := ih (ha.grow drawn.1) hn
    exact ⟨htrail, hclauses⟩

theorem ensureAtoms_apply (count : Nat) (s : Solver) : ensureAtoms count s = addAtoms (count - s.atomCount) s := rfl

end Solver

/-- Atoms up to a count are added in one step or in two. -/
theorem ensureAtoms_of_le {first count : Nat} (hle : first ≤ count) (h : Sound F s)
    (hfirst : Solver.ensureAtoms first s = .ok () t) : Solver.ensureAtoms count s = Solver.ensureAtoms count t := by
  have hcount : t.atomCount = max s.atomCount first := ((ensureAtoms_spec h first).of_ok hfirst).2
  rw [Solver.ensureAtoms_apply] at hfirst ⊢
  rw [Solver.ensureAtoms_apply, show count - s.atomCount = first - s.atomCount + (count - t.atomCount) by omega,
    Solver.addAtoms_add, Solver.bind_of_ok hfirst]

/-- With a probability for their values, atoms can be added up to the largest one. -/
theorem exists_addAtoms (ha : s.atoms.Aligned) (hp : IsProbability s.config.polarityBias.value) {n : Nat}
    (hroom : s.atoms.size + n ≤ maxAtom + 1) : ∃ t, Solver.addAtoms n s = .ok () t := by
  induction n generalizing s with
  | zero => exact ⟨s, rfl⟩
  | succ n ih =>
    obtain ⟨drawn, hdraw⟩ := Solver.exists_draw hp
    obtain ⟨t, ht⟩ := ih (s := s.grown drawn) (ha.grow drawn.1) hp (by rw [Solver.size_grown]; omega)
    exact ⟨t, (Solver.addAtoms_succ_ok_iff ha).mpr ⟨by omega, drawn, hdraw, ht⟩⟩

/-- No more atoms are added than there can be. -/
theorem size_add_le_of_addAtoms {n : Nat} (ha : s.atoms.Aligned) (hs : s.atoms.size ≤ maxAtom + 1)
    (hn : Solver.addAtoms n s = .ok () t) : s.atoms.size + n ≤ maxAtom + 1 := by
  induction n generalizing s with
  | zero => exact hs
  | succ n ih =>
    obtain ⟨hroom, drawn, -, hn⟩ := (Solver.addAtoms_succ_ok_iff ha).mp hn
    have := ih (ha.grow drawn.1) (by rw [Solver.size_grown]; omega) hn
    rw [Solver.size_grown] at this
    omega

theorem exists_ensureAtoms_iff (h : Sound F s) (hp : IsProbability s.config.polarityBias.value)
    (hs : s.atomCount ≤ maxAtom) {count : Nat} : (∃ t, Solver.ensureAtoms count s = .ok () t) ↔ count ≤ maxAtom := by
  have hpos : topAtom < s.atoms.size := AtomTable.lt_size_of_valueOf h.agrees.top
  simp only [topAtom, Solver.atomCount] at *
  constructor
  · rintro ⟨t, ht⟩
    have := size_add_le_of_addAtoms h.agrees.aligned (by omega) ht
    simp only [Solver.atomCount] at this
    omega
  · intro hcount
    rw [Solver.ensureAtoms_apply]
    refine exists_addAtoms h.agrees.aligned hp ?_
    simp only [Solver.atomCount]
    omega

end ClauseLearning
