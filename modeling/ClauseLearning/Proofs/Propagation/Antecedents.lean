import ClauseLearning.Proofs.Rounds

/-!
# Antecedents

At the start of each round the literals on the trail are the decisions, which start the levels, and literals with an
antecedent: a stored clause that watches the literal and whose other literals were false before it (`Antecedents`). So a
derived clause is locked just if it is the antecedent of a value (`LocksAntecedents`), and a reduction of any extent
keeps all antecedents of values (`KeepsAntecedents`), then as well as where a round comes to one (`antecedents`). The
reason is that a level starts with a literal that no stored clause forces (`Sound.reason_start`), as the watched
literals of such a clause would guard each other (`Sound.exists_same_level`).
-/

namespace ClauseLearning

/-- Which literals on the trail have antecedents, and what these are. -/
structure Antecedents (s : Solver) : Prop where
  /-- The first literal of a level above zero has none. -/
  decision : ∀ (k i : Nat) (l : Literal), s.trail.starts[k]? = some i → s.trail.literals[i]? = some l →
    s.atoms.reasonOf l.atom = none
  /-- Every other literal has one. -/
  propagated : ∀ (i : Nat) (l : Literal), s.trail.literals[i]? = some l → (∀ k : Nat, s.trail.starts[k]? ≠ some i) →
    ∃ key, s.atoms.reasonOf l.atom = some key
  /-- It is a stored clause with the literal, whose other literals are false and were so before, and of which the
  literal is one of the first two if there are more. -/
  valid : ∀ (i : Nat) (l : Literal) (key : ClauseKey), s.trail.literals[i]? = some l →
    s.atoms.reasonOf l.atom = some key → ∃ c, s.clauses.get key = .ok c ∧ l ∈ c.literals ∧
      (∀ m ∈ c.literals, m ≠ l → s.atoms.valuation.fails m = true ∧
        ∃ j : Nat, j < i ∧ s.trail.literals[j]? = some (-m)) ∧
      (3 ≤ c.size → c.literals[0]? = some l ∨ c.literals[1]? = some l)

/-- The derived clauses that are locked are those that are antecedents of values. -/
def LocksAntecedents (s : Solver) : Prop :=
  ∀ c ∈ s.clauses.learnedClauses, c.isLocked s.atoms.reasonOf = true ↔
    ∃ x : Nat, s.atoms.valueOf x ≠ none ∧ s.atoms.reasonOf x = some c.key

/-- The antecedents of values are stored, and still are after a reduction by any fraction. -/
def KeepsAntecedents (s : Solver) : Prop :=
  ∀ (x : Nat) (key : ClauseKey), s.atoms.valueOf x ≠ none → s.atoms.reasonOf x = some key →
    ∃ c, s.clauses.find key = some c ∧
      ∀ fraction, (Solver.after (Solver.reduceByFraction fraction) s).clauses.find key = some c

variable {config : Config} {F : List Clause} {s t : Solver} {i k x : Nat} {l : Literal} {key : ClauseKey}

/-- A clause that forces a literal above level zero has another literal that is false at the same level. For the other
watched literal, a lower level would mean that its falsity was propagated and the literal made true at that level. -/
theorem Sound.exists_same_level {c : Array Literal} {n : Nat} (h : Sound F s) (hi : s.trail.literals[i]? = some l)
    (hc : s.clauses.find key = some c) (hf : Forces s.trail c i l) (hlev : s.trail.HasLevel i n) (hn : 0 < n) :
    ∃ m ∈ c, ∃ j : Nat, j < i ∧ s.trail.literals[j]? = some (-m) ∧ s.trail.HasLevel j n := by
  by_cases h2 : 2 ≤ c.size
  · have hw : IsWatch c l := by
      by_cases h3 : 3 ≤ c.size
      · exact hf.watched h3
      · exact isWatch_of_mem hf.mem (by omega)
    obtain ⟨m, hp⟩ := hw.exists_pair h2
    have hne : m ≠ l := fun heq => (h.proper hc).ne_of_pair hp (congrArg Literal.atom heq.symm)
    obtain ⟨j, hji, hj⟩ := hf.others m hp.symm.mem hne
    refine ⟨m, hp.symm.mem, j, hji, hj, ?_⟩
    by_cases hhead : j < s.trail.head
    · obtain ⟨i', hi', hno⟩ := (h.guarded hc).pair m l hp.symm j hhead hj
      obtain rfl := h.agrees.position_eq hi hi'
      obtain ⟨n', -, hlev'⟩ := h.agrees.hasLevel hj
      have hle := (hlev.noLater_iff hlev').mp hno
      have hge := (hlev'.noLater_iff hlev).mp (Trail.noLater_of_le (Nat.le_of_lt hji))
      obtain rfl : n' = n := by omega
      exact hlev'
    · have htop := h.agrees.layered.hasLevel_waiting (show s.trail.head ≤ i by omega)
      rw [hlev.unique htop]
      exact h.agrees.layered.hasLevel_waiting (Nat.le_of_not_lt hhead)
  · exfalso
    have hpos := (h.proper hc).fits.size_pos
    obtain ⟨m, rfl⟩ := Array.size_eq_one_iff.mp (show c.size = 1 by omega)
    obtain rfl := Array.mem_singleton.mp hf.mem
    obtain ⟨i', hi', hzero⟩ := (h.guarded hc).unit l rfl
    obtain rfl := h.agrees.position_eq hi hi'
    have := hlev.unique hzero
    omega

/-- A literal that starts a level has no antecedent: all other literals of such a clause would
be false at lower levels. -/
theorem Sound.reason_start (h : Sound F s) (hk : s.trail.starts[k]? = some i) (hi : s.trail.literals[i]? = some l) :
    s.atoms.reasonOf l.atom = none := by
  rcases h.justified hi with ⟨hr, -⟩ | ⟨key, c, -, hc, hf⟩
  · exact hr
  · exfalso
    obtain ⟨n, -, hlev⟩ := h.agrees.hasLevel hi
    have hkn : k < n := (hlev.2 hk).mpr (Nat.le_refl i)
    obtain ⟨m, -, j, hji, -, hlevj⟩ := h.exists_same_level hi hc hf hlev (by omega)
    have := (hlevj.2 hk).mp hkn
    omega

/-- The antecedent of an atom forces the literal of the atom that is on the trail. -/
theorem Consistent.forces_of_reasonOf (h : Consistent F s) (hr : s.atoms.reasonOf x = some key) :
    ∃ i l c, l.atom = x ∧ s.trail.literals[i]? = some l ∧ s.clauses.find key = some c ∧ Forces s.trail c i l := by
  obtain ⟨p, hp⟩ : ∃ p, s.atoms.valueOf x = some p := by
    rw [← Option.ne_none_iff_exists']
    intro hv
    rw [(h.agrees.unvalued hv).2] at hr
    cases hr
  have hne : x ≠ topAtom := by
    rintro rfl
    rw [h.agrees.top_reason] at hr
    cases hr
  obtain ⟨i, hi⟩ := h.agrees.listed (l := ⟨x, p⟩) hne hp
  rcases h.justified hi with ⟨hn, -⟩ | ⟨key', c, hr', hc, hf⟩
  · cases hn.symm.trans hr
  · cases hr'.symm.trans hr
    exact ⟨i, ⟨x, p⟩, c, rfl, hi, hc, hf⟩

theorem Sound.antecedents (h : Sound F s) : Antecedents s where
  decision _ _ _ hk hi := h.reason_start hk hi
  propagated i l hi hn := by
    rcases h.justified hi with ⟨-, k, hk⟩ | ⟨key, -, hr, -⟩
    · exact absurd hk (hn k)
    · exact ⟨key, hr⟩
  valid i l key hi hr := by
    obtain ⟨j, m, c, hm, hj, hc, hf⟩ := h.forces_of_reasonOf hr
    obtain rfl := h.agrees.position_inj hi hj hm.symm
    obtain rfl := Option.some.inj (hi.symm.trans hj)
    obtain ⟨e, hg, rfl⟩ := ClauseStore.find_eq_some_iff.mp hc
    refine ⟨e, hg, hf.mem, fun m hm hne => ?_, hf.watched⟩
    obtain ⟨j, hji, hj⟩ := hf.others m hm hne
    exact ⟨(h.agrees.fails_iff ((h.proper hc).known m hm).1).mpr ⟨j, hj⟩, j, hji, hj⟩

theorem Consistent.locksAntecedents (h : Consistent F s) : LocksAntecedents s := by
  intro c hc
  rw [ClauseStore.isLocked_iff]
  constructor
  · rintro ⟨-, l, -, -, hr⟩
    refine ⟨l.atom, fun hv => ?_, hr⟩
    rw [(h.agrees.unvalued hv).2] at hr
    cases hr
  · rintro ⟨x, -, hr⟩
    obtain ⟨i, l, d, rfl, -, hd, hf⟩ := h.forces_of_reasonOf hr
    cases (h.keyed.find_of_mem_learnedClauses hc).1.symm.trans hd
    have hw : IsWatch c.literals l := by
      by_cases h3 : 3 ≤ c.literals.size
      · exact hf.watched h3
      · exact isWatch_of_mem hf.mem (by omega)
    rcases hw with h0 | h1
    · exact ⟨0, l, Nat.zero_lt_two, h0, hr⟩
    · exact ⟨1, l, Nat.one_lt_two, h1, hr⟩

theorem Consistent.keepsAntecedents (h : Consistent F s) : KeepsAntecedents s := by
  intro x key _ hr
  obtain ⟨i, l, c, rfl, -, hc, hf⟩ := h.forces_of_reasonOf hr
  refine ⟨c, hc, fun fraction => ?_⟩
  obtain ⟨count, hreduce⟩ := reduceByFraction_eq h.keyed fraction
  rw [Solver.after, hreduce]
  exact h.find_reduceBy hr hc hf count

/-! ## Reductions within a round -/

namespace Solver

/-- A round up to where the clause store is reduced if this is due: nothing is left to propagate, and a restart was made
if one was due. Tells whether the round comes to this. -/
def reachReduction (time : Nat) : SolverM Bool := do
  onCounters fun c => { c with iterations := c.iterations + 1 }
  match ← consequences with
  | .exhausted =>
    onCounters fun c => { c with time }
    if ← terminationDue then return false
    if (← get).restartDue then restart
    return true
  | .fundamentalConflict | .learned _ => return false

/-- A round that comes to a reduction goes on with it. -/
theorem step_of_reachReduction {time : Nat} (h : reachReduction time s = .ok true t) :
    step time s = goOnBy chooseLiteral time t := by
  simp only [reachReduction] at h
  obtain ⟨_, s1, h1, h⟩ := bind_ok_iff.mp h
  obtain ⟨consequence, s2, h2, h⟩ := bind_ok_iff.mp h
  simp only [← stepBy_chooseLiteral, stepBy, bind_of_ok h1, bind_of_ok h2]
  cases consequence with
  | fundamentalConflict => cases h
  | learned lesson => cases h
  | exhausted =>
    obtain ⟨_, s3, h3, h⟩ := bind_ok_iff.mp h
    obtain ⟨due, s4, h4, h⟩ := bind_ok_iff.mp h
    simp only [advanceBy, bind_of_ok h3, bind_of_ok h4]
    cases due with
    | true => cases h
    | false =>
      simp only [Bool.false_eq_true, if_false] at h ⊢
      obtain ⟨u, s5, h5, h⟩ := bind_ok_iff.mp h
      rw [bind_of_ok h5]
      split at h
      · rename_i hdue
        obtain ⟨_, s6, h6, h⟩ := bind_ok_iff.mp h
        cases h
        rw [if_pos hdue, bind_of_ok h6]
      · rename_i hdue
        cases h
        rw [if_neg hdue]

end Solver

/-- A round comes to a reduction with a quiet solver. -/
theorem reachReduction_spec (h : Sound F s) (time : Nat) :
    Solver.Yields (Solver.reachReduction time) s (fun r t => r = true → Quiet F s t) fun _ _ => True := by
  simp only [Solver.reachReduction, Solver.yields_bind, Solver.yields_onCounters]
  have hs := Alike.other s { s.counters with iterations := s.counters.iterations + 1 } s.random s.interrupt
  refine (consequences_spec (hs.sound h)).imp (fun r t ht => ?_) fun _ _ _ => trivial
  cases r with
  | fundamentalConflict => exact Solver.yields_pure.mpr fun h => by cases h
  | learned lesson => exact Solver.yields_pure.mpr fun h => by cases h
  | exhausted =>
    obtain ⟨ht, hst, hh⟩ := ht
    have hquiet : Quiet F s { t with counters := { t.counters with time } } :=
      Quiet.alike ⟨ht, hs.steady.trans hst.steady, hh⟩ (Alike.other t _ _ _)
    simp only [Solver.yields_bind, Solver.yields_onCounters]
    refine yields_terminationDue.ok_imp fun due u hu => ?_
    have hu := hquiet.alike hu
    cases due with
    | true => exact Solver.yields_pure.mpr fun h => by cases h
    | false =>
      simp only [Bool.false_eq_true, if_false, Solver.yields_bind, Solver.yields_get]
      split
      · exact Solver.yields_bind.mpr ((restart_spec hu).ok_imp fun _ v hv => Solver.yields_pure.mpr fun _ => hv)
      · exact Solver.yields_pure.mpr fun _ => hu

/-- At the start of each round, and where the round comes to a reduction, antecedents are as they should be, are what
locks derived clauses, and are not removed by reductions. -/
theorem antecedents_valid (h : AtRound config s) : Antecedents s ∧ LocksAntecedents s ∧ KeepsAntecedents s ∧
    ∀ (time : Nat) (t : Solver), Solver.reachReduction time s = .ok true t →
      Solver.step time s = Solver.goOnBy Solver.chooseLiteral time t ∧
      Antecedents t ∧ LocksAntecedents t ∧ KeepsAntecedents t := by
  obtain ⟨F, hs, -, -⟩ := h.sound
  refine ⟨hs.antecedents, hs.locksAntecedents, hs.keepsAntecedents, fun time t ht => ?_⟩
  have hquiet := ((reachReduction_spec hs time).of_ok ht rfl).sound
  exact ⟨Solver.step_of_reachReduction ht, hquiet.antecedents, hquiet.locksAntecedents, hquiet.keepsAntecedents⟩

/-- After a decision, from which a literal follows by each of two clauses, and another decision. -/
theorem antecedents_valid_decided : AtRound default decidedTwice ∧ Antecedents decidedTwice ∧
    LocksAntecedents decidedTwice ∧ KeepsAntecedents decidedTwice := by
  obtain ⟨hvalid, hlocks, hkeeps, -⟩ := antecedents_valid atRound_decidedTwice
  exact ⟨atRound_decidedTwice, hvalid, hlocks, hkeeps⟩

end ClauseLearning
