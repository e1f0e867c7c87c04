import ClauseLearning.Proofs.Termination.Frame

/-!
# What a round does

A round that goes on learns a clause that was not stored, which counts a conflict, or opens a level, after a
restart and a reduction if these are due (`Moved`). `stepBy_moved` derives this from what the parts of a round
come to: `Even` is what all of them keep that are neither the count of a conflict nor a restart nor a reduction.
It does not matter which literal is chosen for a decision, so the statement is about any operation that chooses
literals of open atoms (`Chooses`).
-/

namespace ClauseLearning

/-- The states differ in activities, in the source of random choices and in counts that the
schedule does not depend on. -/
structure Redrawn (s t : Solver) : Prop extends Alike s t where
  pace : t.counters.pace = s.counters.pace

/-- The operation chooses literals: where nothing waits for propagation, any literal it gives is that of an open atom,
and all else that it does is to redraw activities and the source of random choices. -/
def Chooses (choose : SolverM (Option Literal)) : Prop :=
  ∀ (F : List Clause) (s t : Solver) (l : Literal), Sound F s → s.trail.head = s.trail.literals.size →
    s.status = .solving → choose s = .ok (some l) t →
      Redrawn s t ∧ l.atom ≠ topAtom ∧ l.atom < t.atoms.size ∧ t.atoms.valueOf l.atom = none

/-- The counts that the schedule depends on, the level and the clauses are the same. -/
structure Even (s t : Solver) : Prop where
  pace : t.counters.pace = s.counters.pace
  level : t.trail.level = s.trail.level
  clauses : s.clauses.Reordered t.clauses

/-- What a restart does. -/
structure Restarted (s t : Solver) : Prop where
  pace : t.counters.pace = { s.counters.pace with
    freshConflicts := 0
    restartLimit := (s.config.schedule (s.counters.restartLimit * s.config.restartMultiplier.value) s.counters.luby).1
    luby := (s.config.schedule (s.counters.restartLimit * s.config.restartMultiplier.value) s.counters.luby).2 }
  level : t.trail.level = 0
  clauses : t.clauses = s.clauses

/-- What a reduction does. -/
structure Reduced (s t : Solver) : Prop where
  pace : t.counters.pace = { s.counters.pace with
    reductions := s.counters.reductions + 1
    reductionLimit := s.counters.reductionLimit +
      (s.config.reductionFirst.value + (s.counters.reductions + 1) * s.config.reductionIncrement.value) }
  level : t.trail.level = s.trail.level

/-- A restart, if one is due. -/
def RestartedIfDue (s t : Solver) : Prop := s.restartDue = true ∧ Restarted s t ∨ s.restartDue = false ∧ t = s

/-- A reduction, if one is due. -/
def ReducedIfDue (s t : Solver) : Prop := s.reductionDue = true ∧ Reduced s t ∨ s.reductionDue = false ∧ t = s

/-- What a round does that goes on. -/
inductive Moved (s t : Solver) : Prop
  /-- A clause is learned. -/
  | learned (clauses : s.clauses.Gains t.clauses) (pace : t.counters.pace = { s.counters.pace with
      conflicts := s.counters.conflicts + 1
      freshConflicts := min (s.counters.freshConflicts + 1) maxCount })
  /-- A level is opened. -/
  | decided {u v w : Solver} (config : u.config = s.config ∧ v.config = s.config) (propagated : Even s u)
      (restarted : RestartedIfDue u v) (reduced : ReducedIfDue v w) (pace : t.counters.pace = w.counters.pace)
      (level : t.trail.level = w.trail.level + 1) (clauses : w.clauses.Reordered t.clauses)

/-- What a round comes to that goes on. -/
structure Went (F : List Clause) (s t : Solver) : Prop where
  moved : Moved s t
  sound : Sound F t
  steady : Steady s t

variable {F : List Clause} {s t u v w : Solver}

namespace Even

theorem trans (h : Even s t) (h' : Even t u) : Even s u :=
  ⟨h'.pace.trans h.pace, h'.level.trans h.level, h.clauses.trans h'.clauses⟩

theorem restartDue (h : Even s t) (hc : t.config = s.config) : t.restartDue = s.restartDue := by
  have hlimit : t.counters.restartLimit = s.counters.restartLimit := congrArg Pace.restartLimit h.pace
  have hfresh : t.counters.freshConflicts = s.counters.freshConflicts := congrArg Pace.freshConflicts h.pace
  rw [Solver.restartDue, Solver.restartDue, hc, hlimit, hfresh]

end Even

theorem Spread.even (h : Spread s t) (hp : t.counters.pace = s.counters.pace) : Even s t :=
  ⟨hp, by rw [Trail.level, h.starts, Trail.level], h.clauses⟩

theorem Redrawn.even (h : Redrawn s t) : Even s t := ⟨h.pace, by rw [h.trail], h.clauses.reordered⟩

theorem Restarted.counts (h : Restarted s t) : t.counters.conflicts = s.counters.conflicts ∧
    t.counters.freshConflicts = 0 ∧ t.counters.reductions = s.counters.reductions ∧
      t.counters.reductionLimit = s.counters.reductionLimit :=
  ⟨congrArg Pace.conflicts h.pace, congrArg Pace.freshConflicts h.pace, congrArg Pace.reductions h.pace,
    congrArg Pace.reductionLimit h.pace⟩

theorem Reduced.counts (h : Reduced s t) : t.counters.conflicts = s.counters.conflicts ∧
    t.counters.reductions = s.counters.reductions + 1 ∧ t.counters.reductionLimit = s.counters.reductionLimit +
      (s.config.reductionFirst.value + (s.counters.reductions + 1) * s.config.reductionIncrement.value) :=
  ⟨congrArg Pace.conflicts h.pace, congrArg Pace.reductions h.pace, congrArg Pace.reductionLimit h.pace⟩

/-- A restart does not change what reductions depend on. -/
theorem RestartedIfDue.counts (h : RestartedIfDue s t) : t.counters.conflicts = s.counters.conflicts ∧
    t.counters.reductions = s.counters.reductions ∧ t.counters.reductionLimit = s.counters.reductionLimit := by
  rcases h with ⟨-, h⟩ | ⟨-, rfl⟩
  · obtain ⟨hc, -, hr, hl⟩ := h.counts
    exact ⟨hc, hr, hl⟩
  · exact ⟨rfl, rfl, rfl⟩

/-- A restart keeps the clauses. -/
theorem RestartedIfDue.clauses (h : RestartedIfDue s t) : t.clauses = s.clauses := by
  rcases h with ⟨-, h⟩ | ⟨-, rfl⟩
  · exact h.clauses
  · rfl

/-! ## The parts of a round -/

theorem restart_moved (h : Agrees s.atoms s.trail) :
    Solver.Yields Solver.restart s (fun _ t => Restarted s t) fun _ _ => False := by
  have hlevel : (s.backjumped 0).trail.level = 0 := by rw [Solver.backjumped, Trail.level_cut, Nat.min_zero]
  simp only [Solver.restart, Solver.yields_bind, Solver.yields_backjump h, Solver.yields_onCounters, Solver.yields_get,
    yields_scheduleRestart]
  exact ⟨rfl, hlevel, rfl⟩

theorem reduce_moved (h : s.clauses.Keyed) :
    Solver.Yields Solver.reduce s (fun _ t => Reduced s t) fun _ _ => False := by
  obtain ⟨count, hr⟩ := reduceByFraction_eq h s.config.reductionFraction.value
  simp only [Solver.reduce, Solver.yields_bind, Solver.yields_get, Solver.Yields.of_eq hr]
  exact Solver.yields_onCounters.mpr ⟨rfl, rfl⟩

/-- The literals that the solver chooses are those of open atoms. -/
theorem chooses_chooseLiteral : Chooses Solver.chooseLiteral := by
  intro F s t l h hh hs hr
  have hne : s.status ≠ .unsatisfiable := by simp [hs]
  obtain ⟨⟨halike, hopen⟩, hpace⟩ :=
    ((chooseLiteral_spec h hh hne).and (Solver.leaves_chooseLiteral.pace.yields s)).of_ok hr
  exact ⟨⟨halike, hpace⟩, hopen⟩

variable {choose : SolverM (Option Literal)}

/-- A decision opens a level. -/
theorem decideBy_moved (hc : Chooses choose) (h : Quiet F s w) (hs : s.status = .solving) (time : Nat) :
    Solver.Yields (Solver.decideBy choose time) w (fun r t => r = none → Sound F t ∧ Steady s t ∧
      t.counters.pace = w.counters.pace ∧ t.trail.level = w.trail.level + 1 ∧ w.clauses.Reordered t.clauses)
      fun _ _ => True := by
  refine Solver.yields_bind.mpr (Solver.yields_iff.mpr ⟨fun r x hx => ?_, fun _ _ _ => trivial⟩)
  cases r with
  | none =>
    simp only [Solver.finish, Solver.yields_bind, Solver.yields_onCounters, Solver.yields_get, Solver.yields_pure]
    exact fun h => by cases h
  | some l =>
    obtain ⟨hx, hne, hlt, hval⟩ := hc F w x l h.sound h.exhausted (h.steady.status.trans hs) hx
    have hq := h.alike hx.toAlike
    rw [Solver.yields_bind, Solver.yields_decide hq.sound.agrees.aligned hval hlt]
    refine Solver.yields_pure.mpr fun _ => ⟨hq.sound.decide hval hlt hne hq.exhausted,
      hq.steady.trans (x.steady_decided l), hx.pace, ?_, hx.clauses.reordered⟩
    show (x.trail.openLevel.push l).level = w.trail.level + 1
    rw [hx.trail]
    exact Trail.level_openLevel w.trail

/-- What is left of a round after a restart, if one was due. -/
theorem goOnBy_moved (hc : Chooses choose) (hu : Quiet F s u) (hv : Quiet F s v) (hs : s.status = .solving)
    (he : Even s u) (hrestart : RestartedIfDue u v) (time : Nat) :
    Solver.Yields (Solver.goOnBy choose time) v (fun r x => r = none → Went F s x) fun _ _ => True := by
  have hdecide : ∀ {w}, Quiet F s w → ReducedIfDue v w →
      Solver.Yields (Solver.decideBy choose time) w (fun r x => r = none → Went F s x) fun _ _ => True := by
    intro w hw hreduce
    refine (decideBy_moved hc hw hs time).imp (fun r x hx hr => ?_) fun _ _ _ => trivial
    obtain ⟨hsound, hsteady, hpace, hlevel, hclauses⟩ := hx hr
    exact ⟨.decided ⟨hu.steady.config, hv.steady.config⟩ he hrestart hreduce hpace hlevel hclauses, hsound, hsteady⟩
  simp only [Solver.goOnBy, Solver.yields_bind, Solver.yields_get]
  split
  · rename_i hdue
    refine Solver.yields_bind.mpr
      (((reduce_spec hv).and (reduce_moved hv.sound.keyed)).imp (fun _ w hw => ?_) fun _ _ hf => hf.1.elim)
    exact hdecide hw.1 (Or.inl ⟨hdue, hw.2⟩)
  · rename_i hdue
    exact hdecide hv (Or.inr ⟨by simpa using hdue, rfl⟩)

theorem advanceBy_moved (hc : Chooses choose) (h : Quiet F s t)
    (hs : s.status = .solving) (he : Even s t) (time : Nat) :
    Solver.Yields (Solver.advanceBy choose time) t (fun r x => r = none → Went F s x) fun _ _ => True := by
  simp only [Solver.advanceBy, Solver.yields_bind, Solver.yields_onCounters]
  have h0 := h.alike (Alike.other t { t.counters with time } t.random t.interrupt)
  refine (yields_terminationDue.and (Solver.leaves_terminationDue.pace.yields _)).imp (fun due u hu => ?_)
    fun _ _ hf => hf.1.elim
  obtain ⟨hu, hpace⟩ := hu
  have h1 := h0.alike hu
  have he1 : Even s u := he.trans ⟨hpace, by rw [hu.trail], hu.clauses.reordered⟩
  cases due with
  | true =>
    simp only [if_true, Solver.yields_bind, Solver.yields_backjump h1.sound.agrees]
    exact Solver.yields_pure.mpr fun h => by cases h
  | false =>
    simp only [Bool.false_eq_true, if_false, Solver.yields_bind, Solver.yields_get]
    split
    · rename_i hdue
      refine Solver.yields_bind.mpr (((restart_spec h1).and (restart_moved h1.sound.agrees)).imp (fun _ v hv => ?_)
        fun _ _ hf => hf.1.elim)
      exact goOnBy_moved hc h1 hv.1 hs he1 (Or.inl ⟨hdue, hv.2⟩) time
    · rename_i hdue
      exact goOnBy_moved hc h1 h1 hs he1 (Or.inr ⟨by simpa using hdue, rfl⟩) time

/-- A round that goes on learns a clause or opens a level, however the literal is chosen. -/
theorem stepBy_moved (hc : Chooses choose) (h : Sound F s) (hs : s.status = .solving) (time : Nat) :
    Solver.Yields (Solver.stepBy choose time) s (fun r t => r = none → Went F s t) fun _ _ => True := by
  simp only [Solver.stepBy, Solver.yields_bind, Solver.yields_onCounters]
  have hst : Redrawn s { s with counters := { s.counters with iterations := s.counters.iterations + 1 } } :=
    ⟨Alike.other s _ s.random s.interrupt, rfl⟩
  refine ((consequences_spec (hst.sound h)).and (Solver.leaves_consequences.yields _)).imp (fun r u hu => ?_)
    fun _ _ _ => trivial
  obtain ⟨hu, hpace⟩ := hu
  cases r with
  | fundamentalConflict =>
    simp only [Solver.finish, Solver.yields_bind, Solver.yields_onCounters, Solver.yields_get, Solver.yields_pure]
    exact fun h => by cases h
  | exhausted =>
    obtain ⟨hu, hspread, hh⟩ := hu
    have heven : Even s u := hst.even.trans (hspread.even hpace)
    exact advanceBy_moved hc ⟨hu, hst.steady.trans hspread.steady, hh⟩ hs heven time
  | learned lesson =>
    obtain ⟨⟨c, hc⟩, hsteady, hgains⟩ := hu
    refine Solver.yields_bind.mpr ((apply_spec hc).ok_imp fun _ t ht => Solver.yields_pure.mpr fun _ => ?_)
    refine ⟨.learned (hgains.reorder hst.clauses.reordered ht.clauses.reordered) ?_, ht.sound,
      (hst.steady.trans hsteady).trans ht.steady⟩
    rw [ht.counters]
    exact congrArg (fun pace : Pace => { pace with
      conflicts := pace.conflicts + 1
      freshConflicts := min (pace.freshConflicts + 1) maxCount }) hpace

end ClauseLearning
