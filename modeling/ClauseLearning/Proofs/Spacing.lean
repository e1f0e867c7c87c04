import ClauseLearning.Proofs.Decision.Completeness
import ClauseLearning.Proofs.Termination.Frame

/-!
# The spacing of reductions

The limit for the next reduction does not depend on the number of conflicts at the last one: after `k` reductions it is
`reductionPoint k`, whatever was called before (`Config.Fits`). Each part of a round keeps this, and only a reduction
moves the limit on (`keeps_step`), so that it holds of any solve, stopped or resumed (`replay_fits`). The round in which
a reduction is due may come behind that point, as a conflict may follow another one at once. Then the next reduction
comes as much too early (`reductions_follow_points`), and it can do so without a conflict in between
(`reductions_without_conflict`).
-/

namespace ClauseLearning

/-- The number of conflicts from which on a reduction is due, after so many reductions. -/
def Config.reductionPoint (c : Config) : Nat → Nat
  | 0 => c.reductionFirst.value
  | n + 1 => c.reductionPoint n + (c.reductionFirst.value + (n + 1) * c.reductionIncrement.value)

theorem Config.reductionFirst_le_reductionPoint (c : Config) (n : Nat) :
    c.reductionFirst.value ≤ c.reductionPoint n := by
  induction n with
  | zero => exact Nat.le_refl _
  | succ n ih => exact Nat.le_trans ih (Nat.le_add_right _ _)

/-- The limit is the one after so many reductions. -/
def Config.Fits (c : Config) (plan : Nat × Nat) : Prop := plan.2 = c.reductionPoint plan.1

/-- The limit is not set yet, or it is the one after so many reductions. -/
def Config.FitsOnceSet (c : Config) (plan : Nat × Nat) : Prop := plan = (0, 0) ∨ c.Fits plan

variable {α : Type} {config : Config} {s : Solver}

namespace Solver

/-! ## The limit for reductions -/

theorem leaves_reachReduction (time : Nat) : Leaves plan (reachReduction time) := by
  refine leaves_bind (fun _ => rfl) fun _ => leaves_bind leaves_consequences.plan fun r => ?_
  cases r with
  | fundamentalConflict => exact leaves_pure _
  | learned lesson => exact leaves_pure _
  | exhausted =>
    refine leaves_bind (fun _ => rfl) fun _ => leaves_bind leaves_terminationDue.pace.plan fun due => ?_
    refine leaves_ite (leaves_pure _) (leaves_bind leaves_get fun s => leaves_ite ?_ (leaves_pure _))
    exact leaves_bind leaves_restart.plan fun _ => leaves_pure _

/-- The solver is between decisions, and the number of reductions and the limit for the next one are related. -/
def Paced (config : Config) (P : Nat × Nat → Prop) (s : Solver) : Prop := Prepared config none s ∧ P s.plan

theorem keeps_of_leaves {P : Nat × Nat → Prop} {m : SolverM α} (hm : AlwaysKeeps (Prepared config none) m)
    (hl : Leaves plan m) : AlwaysKeeps (Paced config P) m := fun s h =>
  ((hm s h.1).and (hl.yields s)).imp (fun _ _ ht => ⟨ht.1, ht.2 ▸ h.2⟩) fun _ _ ht => ⟨ht.1, ht.2 ▸ h.2⟩

/-- A reduction counts, and raises the limit by the interval that follows. -/
theorem yields_reduce_plan (s : Solver) : Yields reduce s
    (fun _ t => t.counters.conflicts = s.counters.conflicts ∧
      t.plan = (s.counters.reductions + 1, s.counters.reductionLimit +
        (s.config.reductionFirst.value + (s.counters.reductions + 1) * s.config.reductionIncrement.value)))
    fun _ t => t.plan = s.plan := by
  have hleaves : LeavesPace (reduceByFraction s.config.reductionFraction.value) :=
    leaves_bind leaves_get fun _ => leaves_bind (fun _ => rfl) fun _ => leaves_ofExcept _ _
  simp only [reduce, yields_bind, yields_get]
  refine (hleaves.yields s).imp (fun _ t ht => ?_) fun _ t ht => ?_
  · obtain ⟨hc, -, hr, hl⟩ := Counters.counts_eq ht
    rw [yields_onCounters, plan, hc, hr, hl]
    exact ⟨rfl, rfl⟩
  · obtain ⟨-, -, hr, hl⟩ := Counters.counts_eq ht
    exact Prod.ext hr hl

/-! ## Rounds keep it -/

theorem keeps_reduce : AlwaysKeeps (Paced config config.Fits) reduce := by
  intro s h
  refine (((keptByWork_prepared config).reduce s h.1).and (yields_reduce_plan s)).imp (fun _ t ht => ⟨ht.1, ?_⟩)
    fun _ t ht => ⟨ht.1, ht.2 ▸ h.2⟩
  have hlimit : s.counters.reductionLimit = config.reductionPoint s.counters.reductions := h.2
  rw [Config.Fits, ht.2.2, hlimit, h.1.config_eq]
  rfl

theorem keeps_advance (time : Nat) : AlwaysKeeps (Paced config config.Fits) (advance time) := by
  have hwork := keptByWork_prepared config
  have hdecide : AlwaysKeeps (Paced config config.Fits) (decideBy chooseLiteral time) :=
    keeps_of_leaves (@keeps_chooseLiteral_bind config time _ (fun _ => rfl) rfl) (leaves_decideBy time).pace.plan
  have hreduce : AlwaysKeeps (Paced config config.Fits) (goOnBy chooseLiteral time) :=
    leads_get fun _ _ => leads_ite (keeps_bind keeps_reduce fun _ => hdecide) hdecide
  rw [show advance time = advanceBy chooseLiteral time from rfl]
  refine keeps_bind (keeps_of_leaves (hwork.onCounters fun _ => rfl) fun _ => rfl) fun _ =>
    keeps_bind (keeps_of_leaves hwork.terminationDue leaves_terminationDue.pace.plan) fun due => leads_ite ?_ ?_
  · exact keeps_bind (keeps_of_leaves (hwork.backjump 0) (leaves_backjump 0).pace.plan) fun _ => keeps_pure _
  · exact leads_get fun _ _ =>
      leads_ite (keeps_bind (keeps_of_leaves hwork.restart leaves_restart.plan) fun _ => hreduce) hreduce

theorem keeps_step (time : Nat) : AlwaysKeeps (Paced config config.Fits) (step time) := by
  have hlearning := keptByLearning_prepared config
  have hwork := hlearning.before
  have hconsequences : AlwaysKeeps (Prepared config none) consequences := fun s h =>
    (hlearning.consequences h).imp (fun r _ ht => by cases r <;> exact ht) fun _ _ ht => ht
  refine keeps_bind (keeps_of_leaves (hwork.onCounters fun _ => rfl) fun _ => rfl) fun _ =>
    keeps_bind (keeps_of_leaves hconsequences leaves_consequences.plan) fun r => ?_
  cases r with
  | fundamentalConflict =>
    exact keeps_bind (keeps_of_leaves (hwork.finish time) (leaves_finish time).pace.plan) fun _ => keeps_pure _
  | exhausted => exact keeps_advance time
  | learned lesson =>
    exact keeps_bind (keeps_of_leaves (hlearning.apply lesson) (leaves_apply lesson).plan) fun _ => keeps_pure _

theorem keeps_run (clock : Nat → Nat) (rounds i : Nat) :
    AlwaysKeeps (Paced config config.Fits) (run clock rounds i) := by
  induction rounds generalizing i with
  | zero => exact keeps_pure none
  | succ rounds ih =>
    refine keeps_bind (keeps_step _) fun r => ?_
    cases r with
    | some report => exact keeps_pure _
    | none => exact ih (i + 1)

/-! ## Solves keep it -/

/-- The limit is set if it is not yet. -/
theorem leads_initReductionLimit : Leads (Paced config config.FitsOnceSet) (Paced config config.Fits)
    (fun _ t => Paced config config.FitsOnceSet t) (do
      if (← get).counters.reductionLimit = 0 then initReductionLimit
      return (none : Option Report)) := by
  intro s h
  simp only [yields_bind, yields_get]
  split
  · rename_i h0
    simp only [initReductionLimit, yields_bind, yields_get, yields_onCounters, yields_pure]
    refine ⟨(keptByWork_prepared config).other h.1 rfl rfl rfl rfl rfl rfl, ?_⟩
    show s.config.reductionFirst.value = config.reductionPoint s.counters.reductions
    rw [h.1.config_eq]
    rcases h.2 with hplan | hplan
    · rw [show s.counters.reductions = 0 from congrArg Prod.fst hplan]
      rfl
    · -- the limit is zero only if the one before the first reduction is
      have hpoint : s.counters.reductionLimit = config.reductionPoint s.counters.reductions := hplan
      have hfirst := config.reductionFirst_le_reductionPoint s.counters.reductions
      omega
  · rename_i h0
    exact ⟨h.1, h.2.resolve_left fun hplan => h0 (congrArg Prod.snd hplan)⟩

/-- The first solve sets the limit. -/
theorem start_fits (h : Paced config config.FitsOnceSet s) : Yields start s
    (fun r t => Paced config config.FitsOnceSet t ∧ (r = none → Paced config config.Fits t))
    fun _ t => Paced config config.FitsOnceSet t := by
  have hwork := keptByWork_prepared config
  have hbegin : Leads (Paced config config.FitsOnceSet) (Paced config config.Fits)
      (fun _ t => Paced config config.FitsOnceSet t)
      (do
        modify fun s => { s with status := .solving }
        if (← get).counters.restartLimit == 0 then initRestartLimit
        if (← get).counters.reductionLimit = 0 then initReductionLimit
        return (none : Option Report)) := by
    refine leads_bind (keeps_of_leaves (fun _ h => hwork.other h rfl rfl rfl rfl rfl rfl) fun _ => rfl) fun _ =>
      leads_get fun _ _ => leads_ite (leads_bind ?_ fun _ => leads_initReductionLimit) leads_initReductionLimit
    exact keeps_of_leaves (leads_get fun _ _ => hwork.scheduleRestart _)
      (leaves_bind leaves_get fun _ => (leaves_scheduleRestart _).plan)
  simp only [start, yields_bind, yields_get]
  cases s.status with
  | satisfiable | unsatisfiable => exact ⟨h, fun hr => by cases hr⟩
  | configuration | input | solving =>
    exact (hbegin s h).imp (fun _ t ht => ⟨⟨ht.1, Or.inr ht.2⟩, fun _ => ht⟩) fun _ _ ht => ht

theorem solve_fits (h : Paced config config.FitsOnceSet s) (clock : Nat → Nat) (rounds : Nat) :
    Yields (solve clock rounds) s
      (fun r t => Paced config config.FitsOnceSet t ∧ (r = none → Paced config config.Fits t))
      fun _ t => Paced config config.FitsOnceSet t := by
  rw [solve, yields_bind]
  refine (start_fits h).imp (fun r t ht => ?_) fun _ _ ht => ht
  cases r with
  | some report => exact ⟨ht.1, fun hr => by cases hr⟩
  | none =>
    exact (keeps_run clock rounds 0 t (ht.2 rfl)).imp (fun _ u hu => ⟨⟨hu.1, Or.inr hu.2⟩, fun _ => hu⟩)
      fun _ u hu => ⟨hu.1, Or.inr hu.2⟩

end Solver

theorem Session.make_fits {m : Session} (h : Solver.Paced config config.FitsOnceSet m.solver) (call : Call) :
    Solver.Paced config config.FitsOnceSet (m.make call).solver := by
  have hprepared : Prepared config none (m.make call).solver := by
    obtain ⟨operations, hreach⟩ := Solver.reaches_make m call
    exact hreach ▸ Solver.holds_performEach (Solver.keptByLearning_prepared config)
      (Solver.keptByAdditions_prepared config)
      h.1 operations
  have hleft : ∀ {β : Type} {o : SolverM β}, Solver.LeavesPace o → (m.make call).solver = Solver.after o m.solver →
      Solver.Paced config config.FitsOnceSet (m.make call).solver := fun hl heq =>
    ⟨hprepared, by rw [heq, hl.plan]; exact h.2⟩
  cases call with
  | freshAtom => exact hleft Solver.leaves_freshAtom.pace rfl
  | ensureAtoms count => exact hleft (Solver.leaves_ensureAtoms count).pace rfl
  | addClause c => exact hleft (Solver.leaves_addClause c) rfl
  | readDimacs lines => exact hleft (Dimacs.leaves_read lines) rfl
  | askToStop interrupt => exact ⟨hprepared, h.2⟩
  | reseed random => exact ⟨hprepared, h.2⟩
  | solve clock rounds =>
    exact (Solver.solve_fits h clock rounds).imp (fun _ _ ht => ht.1) (fun _ _ ht => ht) |>.holds_after

theorem replay_fits (config : Config) (calls : List Call) :
    Solver.Paced config config.FitsOnceSet (replay config calls).solver := by
  have hall : ∀ m : Session, Solver.Paced config config.FitsOnceSet m.solver →
      Solver.Paced config config.FitsOnceSet (m.makeAll calls).solver := by
    induction calls with
    | nil => exact fun _ h => h
    | cons call calls ih => exact fun m h => ih (m.make call) (Session.make_fits h call)
  exact hall (.ofConfig config) ⟨prepared_ofConfig config, Or.inl rfl⟩

/-! ## Main result -/

/-- Calls on a new solver lead to a state of a solve in which the clause store is reduced if this is due. -/
def AtReduction (config : Config) (s : Solver) : Prop :=
  ∃ calls clock rounds time r, Solver.solve clock rounds (replay config calls).solver = .ok none r ∧
    Solver.reachReduction time r = .ok true s

theorem AtReduction.fits (h : AtReduction config s) : Solver.Paced config config.Fits s := by
  obtain ⟨calls, clock, rounds, time, r, hr, hs⟩ := h
  have hround := ((Solver.solve_fits (replay_fits config calls) clock rounds).of_ok hr).2 rfl
  have hprepared := ((Solver.keptByLearning_prepared config).yields_reachReduction hround.1 time).of_ok hs rfl
  have hplan := ((Solver.leaves_reachReduction time).yields r).of_ok hs
  exact ⟨hprepared, hplan ▸ hround.2⟩

/-- The clause store is reduced for the `k`-th time. -/
def ReducedAt (config : Config) (k : Nat) (s : Solver) : Prop :=
  AtReduction config s ∧ s.reductionDue = true ∧ s.counters.reductions + 1 = k

/-- In every solve, after any calls: a reduction is due exactly if there were at least as many conflicts as the number
of reductions says, and it is counted. So the next one follows after the interval that belongs to it, less the number of
conflicts by which the reduction came late. -/
theorem reductions_follow_points (config : Config) :
    (∀ s, AtReduction config s →
      (s.reductionDue = true ↔ config.reductionPoint s.counters.reductions ≤ s.counters.conflicts) ∧
      ∀ t, Solver.reduce s = .ok () t →
        t.counters.conflicts = s.counters.conflicts ∧ t.counters.reductions = s.counters.reductions + 1) ∧
    ∀ k s t, ReducedAt config (k + 1) s → ReducedAt config (k + 2) t → config.reductionPoint k ≤ s.counters.conflicts ∧
      s.counters.conflicts + (config.reductionFirst.value + (k + 1) * config.reductionIncrement.value) ≤
        t.counters.conflicts + (s.counters.conflicts - config.reductionPoint k) := by
  have hdue : ∀ {s}, AtReduction config s →
      (s.reductionDue = true ↔ config.reductionPoint s.counters.reductions ≤ s.counters.conflicts) := by
    intro s h
    have hlimit : s.counters.reductionLimit = config.reductionPoint s.counters.reductions := h.fits.2
    rw [Solver.reductionDue, decide_eq_true_iff, hlimit]
  refine ⟨fun s h => ⟨hdue h, fun t ht => ?_⟩, fun k s t hs ht => ?_⟩
  · obtain ⟨hconflicts, hplan⟩ := (Solver.yields_reduce_plan s).of_ok ht
    exact ⟨hconflicts, congrArg Prod.fst hplan⟩
  · obtain ⟨hs, hsdue, hk⟩ := hs
    obtain ⟨ht, htdue, hk'⟩ := ht
    have hpoint := (hdue hs).mp hsdue
    have hnext := (hdue ht).mp htdue
    rw [Nat.add_right_cancel hk] at hpoint
    rw [Nat.add_right_cancel hk', Config.reductionPoint] at hnext
    omega

/-- A reduction is due at the first conflict, and after each conflict from then on. -/
def shortIntervals : Config := ((default : Config).force (.reductionFirst 1)).force (.reductionIncrement 0)

/-- Calls that add three atoms, the clauses `2 ¬3` and `¬2 ¬3`, and two clauses that make the first atom
true if the third one is false. -/
def fourClauses : List Call :=
  [.ensureAtoms 3, .addClause [⟨1, true⟩, ⟨2, true⟩, ⟨3, true⟩], .addClause [⟨2, false⟩, ⟨3, false⟩],
    .addClause [⟨1, true⟩, ⟨2, false⟩, ⟨3, true⟩], .addClause [⟨2, true⟩, ⟨3, false⟩]]

/-- The solver after so many rounds of a solve of these clauses. -/
def shortSolve (rounds : Nat) : Solver :=
  Solver.after (Solver.solve (fun _ => 0) rounds) (replay shortIntervals fourClauses).solver

/-- What the round that follows comes to before a reduction. -/
def shortRound (rounds : Nat) : Solver := Solver.after (Solver.reachReduction 0) (shortSolve rounds)

/-- Two conflicts follow one another before the fifth round, which comes to a reduction, as the sixth one does. -/
theorem shortRounds : ∀ n ∈ [4, 5],
    (Solver.answer (Solver.solve (fun _ => 0) n) (replay shortIntervals fourClauses).solver).toOption = some none ∧
      (Solver.answer (Solver.reachReduction 0) (shortSolve n)).toOption = some true ∧
      (shortRound n).reductionDue = true ∧ (shortRound n).counters.reductions = n - 4 ∧
      (shortRound n).counters.conflicts = 2 := by
  have h1 : Clause.normalise [⟨1, true⟩, ⟨2, true⟩, ⟨3, true⟩] = [⟨1, true⟩, ⟨2, true⟩, ⟨3, true⟩] :=
    Clause.Ordered.normalise (by decide)
  have h2 : Clause.normalise [⟨2, false⟩, ⟨3, false⟩] = [⟨2, false⟩, ⟨3, false⟩] := Clause.Ordered.normalise (by decide)
  have h3 : Clause.normalise [⟨1, true⟩, ⟨2, false⟩, ⟨3, true⟩] = [⟨1, true⟩, ⟨2, false⟩, ⟨3, true⟩] :=
    Clause.Ordered.normalise (by decide)
  have h4 : Clause.normalise [⟨2, true⟩, ⟨3, false⟩] = [⟨2, true⟩, ⟨3, false⟩] := Clause.Ordered.normalise (by decide)
  simp only [shortRound, shortSolve, fourClauses, replay, Session.makeAll, List.foldl, Session.make, Solver.addClause,
    Solver.defect, h1, h2, h3, h4]
  decide +kernel

theorem reducedAt_shortRounds :
    ReducedAt shortIntervals 1 (shortRound 4) ∧ ReducedAt shortIntervals 2 (shortRound 5) := by
  have hall : ∀ n ∈ [4, 5], ReducedAt shortIntervals (n - 4 + 1) (shortRound n) := by
    intro n hn
    obtain ⟨hsolve, hreach, hdue, hcount, -⟩ := shortRounds n hn
    exact ⟨⟨fourClauses, _, _, _, _, Solver.eq_ok_of_answer hsolve, Solver.eq_ok_of_answer hreach⟩,
      hdue, by rw [hcount]⟩
  exact ⟨hall 4 (by decide), hall 5 (by decide)⟩

theorem conflicts_shortRounds : (shortRound 4).counters.conflicts = 2 ∧ (shortRound 5).counters.conflicts = 2 :=
  ⟨(shortRounds 4 (by decide)).2.2.2.2, (shortRounds 5 (by decide)).2.2.2.2⟩

/-- The first reduction comes a conflict late, and the second one as much too early. -/
theorem reductions_follow_points_late :
    ReducedAt shortIntervals 1 (shortRound 4) ∧ ReducedAt shortIntervals 2 (shortRound 5) ∧
      shortIntervals.reductionPoint 0 + 1 = (shortRound 4).counters.conflicts ∧
      (shortRound 4).counters.conflicts +
        (shortIntervals.reductionFirst.value + 1 * shortIntervals.reductionIncrement.value) ≤
        (shortRound 5).counters.conflicts + ((shortRound 4).counters.conflicts - shortIntervals.reductionPoint 0) := by
  obtain ⟨h1, h2⟩ := reducedAt_shortRounds
  have hspaced := ((reductions_follow_points shortIntervals).2 0 _ _ h1 h2).2
  rw [Nat.zero_add] at hspaced
  refine ⟨h1, h2, ?_, hspaced⟩
  rw [conflicts_shortRounds.1]
  decide

/-- Two rounds in a row of one solve reduce the clause store for the first and the second time, without a conflict in
between, where there should be at least one. -/
theorem reductions_without_conflict :
    ReducedAt shortIntervals 1 (shortRound 4) ∧ ReducedAt shortIntervals 2 (shortRound 5) ∧
    ¬(shortRound 4).counters.conflicts +
      (shortIntervals.reductionFirst.value + 1 * shortIntervals.reductionIncrement.value) ≤
        (shortRound 5).counters.conflicts := by
  refine ⟨reducedAt_shortRounds.1, reducedAt_shortRounds.2, ?_⟩
  have hinterval : shortIntervals.reductionFirst.value + 1 * shortIntervals.reductionIncrement.value = 1 := rfl
  obtain ⟨h4, h5⟩ := conflicts_shortRounds
  omega

end ClauseLearning
