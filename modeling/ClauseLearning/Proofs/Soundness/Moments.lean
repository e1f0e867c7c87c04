import ClauseLearning.Proofs.Soundness.History

/-!
# What holds at every moment

The stages of a round keep the parts of a solver consistent (`consistent_stage`). So at every moment of a history,
within calls as well as between them, what was derived is entailed by the clauses accepted so far
(`entailed_at_stage`), and whatever is an index of a table lies inside it (`InRange`). With probabilities for
parameters, a solve fails only if no key is left, and so does each part of a round (`solve_answer`, `stage_answer`): no
step of it accesses a table out of its range, as the error of such an access would be the answer (`solve_safe`).
-/

namespace ClauseLearning

variable {F : List Clause} {s t : Solver} {config : Config}

/-! ## Stages -/

/-- A restart and a reduction, where they are due, leave a quiet solver. -/
theorem schedule_spec (h : Quiet F s t) :
    Solver.Yields (do
      if (← get).restartDue then Solver.restart
      if (← get).reductionDue then Solver.reduce) t (fun _ u => Sound F u) fun _ _ => False := by
  have hreduce : ∀ {u}, Quiet F s u → Solver.Yields (do if (← get).reductionDue then Solver.reduce) u
      (fun _ v => Sound F v) fun _ _ => False := by
    intro u hu
    simp only [Solver.yields_bind, Solver.yields_get]
    split
    · exact (reduce_spec hu).ok_imp fun _ _ hv => hv.sound
    · exact hu.sound
  simp only [Solver.yields_bind, Solver.yields_get]
  split
  · exact Solver.yields_bind.mpr ((restart_spec h).ok_imp fun _ _ hu => hreduce hu)
  · exact hreduce h

theorem Concluded.consistent {r : Consequence} (h : Concluded F s r t) : Consistent F t := by
  cases r with
  | exhausted => exact h.1.toConsistent
  | learned lesson =>
    obtain ⟨⟨c, hc⟩, -, -⟩ := h
    exact hc.toConsistent
  | fundamentalConflict => exact h.1.toConsistent

/-- A stage fails for no other cause than those of `Failed`. -/
theorem stage_spec (h : Sound F s) (stage : Stage) :
    Solver.Yields stage.run s (fun _ t => Consistent F t) (Failed F s) := by
  obtain ⟨t, hu⟩ : ∃ t : Solver,
      t = { s with counters := { s.counters with iterations := s.counters.iterations + 1 } } := ⟨_, rfl⟩
  have hst : Alike s t := by rw [hu]; exact Alike.other s _ _ _
  have ht := hst.sound h
  cases stage with
  | between => exact Solver.yields_pure.mpr h.toConsistent
  | propagated count =>
    simp only [Stage.run, Solver.yields_bind, Solver.yields_onCounters, Solver.yields_discard, ← hu]
    exact (propagateMany_spec ht count).ok_imp fun _ _ hv => hv.1.toConsistent
  | concluded =>
    simp only [Stage.run, Solver.yields_bind, Solver.yields_onCounters, Solver.yields_discard, ← hu]
    exact (consequences_spec ht).imp (fun _ _ hv => hv.consistent) fun _ _ hv => hv.trans hst.steady
  | scheduled time =>
    simp only [Stage.run, Solver.yields_bind, Solver.yields_onCounters, ← hu]
    refine (consequences_spec ht).imp (fun r v hv => ?_) fun _ _ hv => hv.trans hst.steady
    split
    · rename_i hr
      subst hr
      obtain ⟨hv, hs, hh⟩ := hv
      have hquiet : Quiet F t { v with counters := { v.counters with time } } :=
        Quiet.alike ⟨hv, hs.steady, hh⟩ (Alike.other v _ _ _)
      simp only [Solver.yields_bind, Solver.yields_onCounters]
      refine yields_terminationDue.ok_imp fun due w hw => ?_
      have hw := hquiet.alike hw
      cases due with
      | true =>
        rw [if_pos rfl, Solver.yields_backjump hw.sound.agrees]
        exact (hw.backjump 0).sound.toConsistent
      | false => exact (schedule_spec hw).ok_imp fun _ _ hx => hx.toConsistent
    · exact Solver.yields_pure.mpr hv.consistent

/-- At every stage of a round, the parts of the solver are consistent. -/
theorem consistent_stage (h : Sound F s) (stage : Stage) : Consistent F (Solver.after stage.run s) :=
  (stage_spec h stage).run (P := fun _ t => Consistent F t) (fun _ _ ht => ht) fun _ _ ht => ht.sound.toConsistent

/-! ## What was derived -/

/-- At every moment, the clauses that were derived are entailed by the clauses accepted so far, and each literal on the
trail by these and the decisions of the levels up to its own, which at level zero are none. -/
theorem entailed_at_stage (config : Config) (calls : List Call) (stage : Stage) :
    let F := (replay config calls).log.accepted
    let s := Solver.after stage.run (replay config calls).solver
    (∀ c ∈ s.clauses.learnedClauses, Entails F c.clause) ∧
      ∀ (i : Nat) (l : Literal), s.trail.literals[i]? = some l → ∃ n, s.atoms.levelOf l.atom = some n ∧
        Entails (withLiterals F (s.trail.decisions n)) [l] ∧ (n = 0 → Entails F [l]) := by
  intro F s
  have h : Consistent F s := consistent_stage (faithful_replay config calls).sound stage
  refine ⟨fun c hc => h.entailed (h.keyed.find_of_mem_learnedClauses hc).1, fun i l hi => ?_⟩
  obtain ⟨n, hlevel, hn⟩ := h.agrees.hasLevel hi
  refine ⟨n, hlevel, h.entails_trail hi hn, fun hzero => ?_⟩
  subst hzero
  exact h.entails_zero hi hn

/-! ## No error and no index out of range -/

/-- Whatever is an index of a table lies inside it. -/
structure InRange (s : Solver) : Prop where
  atoms : s.atoms.Aligned
  lists : s.watches.lists.size = 2 * s.atoms.size
  trail : ∀ (i : Nat) (l : Literal), s.trail.literals[i]? = some l → l.atom < s.atoms.size
  starts : ∀ k p : Nat, s.trail.starts[k]? = some p → p < s.trail.literals.size
  head : s.trail.head ≤ s.trail.literals.size
  clauses : ∀ (key : ClauseKey) (c : Array Literal), s.clauses.find key = some c →
    0 < c.size ∧ ∀ l ∈ c, l.atom < s.atoms.size
  binary : ∀ (l : Literal) (b : BinaryWatch), b ∈ s.watches.binary l → b.other.atom < s.atoms.size
  reasons : ∀ (i : Nat) (l : Literal) (key : ClauseKey), s.trail.literals[i]? = some l →
    s.atoms.reasonOf l.atom = some key → ∃ c, s.clauses.find key = some c
  marks : ∀ x ∈ s.resolution.atoms, x < s.resolution.seen.size

theorem Consistent.inRange (h : Consistent F s) : InRange s where
  atoms := h.agrees.aligned
  lists := h.watched.size
  trail _ _ hi := h.agrees.lt_size hi
  starts _ _ hk := h.agrees.layered.inside hk
  head := h.agrees.layered.head_le
  clauses _ _ hc := ⟨(h.proper hc).fits.size_pos, fun l hl => ((h.proper hc).known l hl).2⟩
  binary _ b hb := by
    obtain ⟨c, hc, -, hp⟩ := h.watched.binary.mp hb
    have hmem : b.other ∈ c := hp.symm.mem
    exact ((h.proper hc).known _ hmem).2
  reasons _ _ _ hi hr := by
    rcases h.justified hi with ⟨hn, -⟩ | ⟨key, c, hkey, hc, -⟩
    · cases hn.symm.trans hr
    · cases hkey.symm.trans hr
      exact ⟨c, hc⟩
  marks _ hx := h.clean.marked hx

/-- Where parameters are probabilities, no other cause of a failure is left but that there is no key. -/
theorem answer_of_biased {α : Type} {m : SolverM α} (hb : s.config.Biased)
    (h : Solver.Yields m s (fun _ _ => True) fun e _ =>
      e = .store .storageExhausted ∨ e = .breach .invalidProbability ∧ ¬s.config.Biased) :
    (∃ a, Solver.answer m s = .ok a) ∨ Solver.answer m s = .error (.store .storageExhausted) := by
  refine h.run (P := fun r _ => (∃ a, r = .ok a) ∨ r = .error (.store .storageExhausted))
    (fun a _ _ => Or.inl ⟨a, rfl⟩) fun e _ he => ?_
  rcases he with rfl | ⟨-, hn⟩
  · exact Or.inr rfl
  · exact absurd hb hn

theorem solve_answer (h : Sound F s) (hb : s.config.Biased) (clock : Nat → Nat) (rounds : Nat) :
    (∃ r, Solver.answer (Solver.solve clock rounds) s = .ok r) ∨
      Solver.answer (Solver.solve clock rounds) s = .error (.store .storageExhausted) :=
  answer_of_biased hb ((solve_spec h clock rounds).imp (fun _ _ _ => trivial) fun _ _ ht => ht.cause)

theorem stage_answer (h : Sound F s) (hb : s.config.Biased) (stage : Stage) :
    Solver.answer stage.run s = .ok () ∨ Solver.answer stage.run s = .error (.store .storageExhausted) :=
  (answer_of_biased hb ((stage_spec h stage).imp (fun _ _ _ => trivial) fun _ _ ht => ht.cause)).imp_left
    fun ⟨_, ha⟩ => ha

/-- With probabilities for parameters, a solve of any number of rounds gives no error but that no key is left, and
neither does any part of the next round: as an access out of the range of a table is an error, no step makes one. At
every moment, whatever is an index of a table lies inside it. -/
theorem solve_safe (h : config.Biased) (calls : List Call) (clock : Nat → Nat) (rounds : Nat) :
    let s := (replay config calls).solver
    let t := Solver.after (Solver.solve clock rounds) s
    ((∃ r, Solver.answer (Solver.solve clock rounds) s = .ok r) ∨
      Solver.answer (Solver.solve clock rounds) s = .error (.store .storageExhausted)) ∧
    ∀ stage : Stage,
      (Solver.answer stage.run t = .ok () ∨ Solver.answer stage.run t = .error (.store .storageExhausted)) ∧
      InRange (Solver.after stage.run t) := by
  intro s t
  have hs : (replay config calls).Faithful config := faithful_replay config calls
  have ht : ((replay config calls).make (.solve clock rounds)).Faithful config := hs.make (.solve clock rounds)
  have hbs : s.config.Biased := hs.config.symm ▸ h
  have hbt : t.config.Biased := ht.config.symm ▸ h
  exact ⟨solve_answer hs.sound hbs clock rounds, fun stage =>
    ⟨stage_answer ht.sound hbt stage, (consistent_stage ht.sound stage).inRange⟩⟩

theorem biased_default : (default : Config).Biased :=
  ⟨⟨by decide +kernel, by decide +kernel⟩, ⟨by decide +kernel, by decide +kernel⟩⟩

/-- The four clauses of two atoms. -/
def squareCalls : List Call :=
  [.ensureAtoms 2, .addClause [⟨1, true⟩, ⟨2, true⟩], .addClause [⟨1, true⟩, ⟨2, false⟩],
    .addClause [⟨1, false⟩, ⟨2, true⟩], .addClause [⟨1, false⟩, ⟨2, false⟩]]

/-- They are found to have no model. The first round decides on a literal, and from the conflict to which this leads the
second one learns its negation. -/
theorem square_eq :
    let s := (replay default squareCalls).solver
    let t := Solver.after (Solver.solve (fun _ => 0) 1) s
    (Solver.answer (Solver.solve (fun _ => 0) 5) s).toOption = some (some .unsatisfiable) ∧
      t.trail.level = 1 ∧ t.clauses.learnedUnits.toList = [] ∧
      (Solver.after Stage.concluded.run t).clauses.learnedUnits.toList.length = 1 := by
  have h1 : Clause.normalise [⟨1, true⟩, ⟨2, true⟩] = [⟨1, true⟩, ⟨2, true⟩] := Clause.Ordered.normalise (by decide)
  have h2 : Clause.normalise [⟨1, true⟩, ⟨2, false⟩] = [⟨1, true⟩, ⟨2, false⟩] := Clause.Ordered.normalise (by decide)
  have h3 : Clause.normalise [⟨1, false⟩, ⟨2, true⟩] = [⟨1, false⟩, ⟨2, true⟩] := Clause.Ordered.normalise (by decide)
  have h4 : Clause.normalise [⟨1, false⟩, ⟨2, false⟩] = [⟨1, false⟩, ⟨2, false⟩] := Clause.Ordered.normalise (by decide)
  simp only [squareCalls, replay, Session.makeAll, List.foldl,
    Session.make, Solver.addClause, Solver.defect, h1, h2, h3, h4]
  decide +kernel

/-- A solve that comes to a conflict and to a verdict, with the part of the second round in
which the conflict is met. -/
theorem solve_safe_square :
    let s := (replay default squareCalls).solver
    let t := Solver.after (Solver.solve (fun _ => 0) 1) s
    ((∃ r, Solver.answer (Solver.solve (fun _ => 0) 5) s = .ok r) ∨
        Solver.answer (Solver.solve (fun _ => 0) 5) s = .error (.store .storageExhausted)) ∧
      (Solver.answer (Solver.solve (fun _ => 0) 5) s).toOption = some (some .unsatisfiable) ∧
      (Solver.answer Stage.concluded.run t = .ok () ∨
        Solver.answer Stage.concluded.run t = .error (.store .storageExhausted)) ∧
      InRange (Solver.after Stage.concluded.run t) ∧ t.clauses.learnedUnits.toList = [] ∧
      (Solver.after Stage.concluded.run t).clauses.learnedUnits.toList.length = 1 := by
  obtain ⟨hreport, -, hnothing, hlearned⟩ := square_eq
  obtain ⟨hanswer, hrange⟩ := (solve_safe biased_default squareCalls (fun _ => 0) 1).2 .concluded
  exact ⟨(solve_safe biased_default squareCalls (fun _ => 0) 5).1, hreport, hanswer, hrange, hnothing, hlearned⟩

end ClauseLearning
