import Mathlib.Order.OrderIsoNat
import ClauseLearning.Proofs.Termination.Rank

/-!
# The search ends

Each round of a search that goes on lowers the rank (`NextRound.rank_lt`), whatever activities come out before it and
whichever literal is chosen, as long as no restart is due before there was a conflict since the last one
(`AwaitsConflicts`). So after finitely many rounds a solve returns, and no sequence of rounds goes on forever
(`solve_returns`). Restarts await conflicts if each limit for them is at least one (`awaitsConflicts_of_limits`).
-/

namespace ClauseLearning

/-- The operation gives an answer or an error. -/
def Solver.Returns (m : SolverM (Option Report)) (s : Solver) : Prop :=
  (∃ report t, m s = .ok (some report) t) ∨ ∃ e t, m s = .error e t

/-- Some round leads from the first state to the second and goes on, with any activities and any choice of a literal. -/
def NextRound (s t : Solver) : Prop :=
  ∃ choose time s', Chooses choose ∧ Redrawn s s' ∧ Solver.stepBy choose time s' = .ok none t

/-- The states between the rounds of a solve that follows calls on a new solver. -/
inductive Reached (config : Config) (calls : List Call) : Solver → Prop
  | start {s : Solver} (h : Solver.start (replay config calls).solver = .ok none s) : Reached config calls s
  | round {s t : Solver} (h : Reached config calls s) (hr : NextRound s t) : Reached config calls t

/-- A restart is due only after a conflict since the last one. -/
def AwaitsConflicts (config : Config) (calls : List Call) : Prop :=
  ∀ s, Reached config calls s → s.restartDue = true → s.counters.freshConflicts ≠ 0

/-- The limit for restarts after so many of them, with the place in the Luby sequence. -/
def Config.limitAfter (c : Config) : Nat → Float × Luby
  | 0 => c.schedule (Float.ofNat c.restartFirst.value) {}
  | n + 1 => c.schedule ((c.limitAfter n).1 * c.restartMultiplier.value) (c.limitAfter n).2

variable {config : Config} {calls : List Call} {F : List Clause} {s t : Solver}

/-! ## Rounds -/

theorem Redrawn.refl (s : Solver) : Redrawn s s := ⟨Alike.refl s, rfl⟩

theorem Redrawn.restartDue (h : Redrawn s t) : t.restartDue = s.restartDue := h.even.restartDue h.config

/-- Activities and random choices do not matter for the rank. -/
theorem Redrawn.rank_eq (h : Redrawn s t) : t.rank = s.rank := by
  obtain ⟨hc, hf, hr, hl⟩ := Counters.counts_eq h.pace
  simp only [Solver.rank, h.clauses.reordered.missing_eq, h.atoms.size_eq, h.trail, hc, hf, hr, hl]

theorem Solver.nextRound_of_step {time : Nat} (h : Solver.step time s = .ok none t) : NextRound s t :=
  ⟨Solver.chooseLiteral, time, s, chooses_chooseLiteral, Redrawn.refl s, (Solver.stepBy_chooseLiteral time).symm ▸ h⟩

namespace NextRound

theorem went (h : NextRound s t) (hs : Sound F s) (hst : s.status = .solving) : ∃ s', Redrawn s s' ∧ Went F s' t := by
  obtain ⟨choose, time, s', hc, hr, ht⟩ := h
  exact ⟨s', hr, (stepBy_moved hc (hr.sound hs) (hr.status.trans hst) time).of_ok ht rfl⟩

/-- A round that goes on lowers the rank. -/
theorem rank_lt (h : NextRound s t) (hs : Sound F s) (hst : s.status = .solving)
    (hinc : 1 ≤ s.config.reductionIncrement.value)
    (hfresh : s.restartDue = true → s.counters.freshConflicts ≠ 0) : t.rank < s.rank := by
  obtain ⟨s', hr, hw⟩ := h.went hs hst
  rw [← hr.rank_eq]
  refine hw.moved.rank_lt hw.sound hw.steady (hr.config ▸ hinc) fun hdue => ?_
  rw [(Counters.counts_eq hr.pace).2.1]
  exact hfresh (hr.restartDue ▸ hdue)

end NextRound

namespace Reached

/-- Between rounds the solver is sound, and the formula is not settled. -/
theorem sound (h : Reached config calls s) : ∃ F, Sound F s ∧ s.config = config ∧ s.status = .solving := by
  induction h with
  | start h =>
    have hfaithful := faithful_replay config calls
    obtain ⟨hs, hconfig, -, hstatus⟩ := (start_spec hfaithful.sound).of_ok h
    exact ⟨_, hs, hconfig.trans hfaithful.config, hstatus⟩
  | round h hr ih =>
    obtain ⟨F, hs, hconfig, hstatus⟩ := ih
    obtain ⟨s', hr, hw⟩ := hr.went hs hstatus
    have hsteady := hr.steady.trans hw.steady
    exact ⟨F, hw.sound, hsteady.config.trans hconfig, hsteady.status.trans hstatus⟩

/-- The rank gets lower from each state to the next. -/
theorem rank_lt (h : Reached config calls s) (hr : NextRound s t) (hinc : 1 ≤ config.reductionIncrement.value)
    (hfresh : AwaitsConflicts config calls) : t.rank < s.rank := by
  obtain ⟨F, hs, hconfig, hstatus⟩ := h.sound
  exact hr.rank_lt hs hstatus (hconfig ▸ hinc) (hfresh s h)

/-- From each state on, some number of rounds comes to an answer or an error. -/
theorem run_returns (h : Reached config calls s) (hinc : 1 ≤ config.reductionIncrement.value)
    (hfresh : AwaitsConflicts config calls) (clock : Nat → Nat) (i : Nat) :
    ∃ rounds, Solver.Returns (Solver.run clock rounds i) s := by
  induction hn : s.rank using WellFoundedLT.induction generalizing s i with
  | ind n ih =>
    cases hstep : Solver.step (clock i) s with
    | error e t => exact ⟨1, Or.inr ⟨e, t, by rw [Solver.run]; simp only [bind, EStateM.bind, hstep]⟩⟩
    | ok r t =>
      cases r with
      | some report =>
        exact ⟨1, Or.inl ⟨report, t, by rw [Solver.run, Solver.bind_of_ok hstep]; rfl⟩⟩
      | none =>
        have hr := Solver.nextRound_of_step hstep
        obtain ⟨rounds, hret⟩ := ih t.rank (hn ▸ h.rank_lt hr hinc hfresh) (h.round hr) (i + 1) rfl
        refine ⟨rounds + 1, ?_⟩
        rw [Solver.Returns, Solver.run, Solver.bind_of_ok hstep]
        exact hret

end Reached

/-! ## Limits for restarts -/

/-- The limit for restarts is that after some number of them. -/
def Scheduled (config : Config) (pace : Pace) : Prop := ∃ n, (pace.restartLimit, pace.luby) = config.limitAfter n

/-- A restart moves the limit on by one. -/
theorem Restarted.scheduled (h : Restarted s t) (hs : Scheduled s.config s.counters.pace) :
    Scheduled s.config t.counters.pace := by
  obtain ⟨n, hn⟩ := hs
  have hlimit : s.counters.restartLimit = (s.config.limitAfter n).1 := congrArg Prod.fst hn
  have hluby : s.counters.luby = (s.config.limitAfter n).2 := congrArg Prod.snd hn
  refine ⟨n + 1, ?_⟩
  rw [h.pace, Config.limitAfter, ← hlimit, ← hluby]

theorem Moved.scheduled (h : Moved s t) (hs : Scheduled s.config s.counters.pace) :
    Scheduled s.config t.counters.pace := by
  cases h with
  | learned _ hpace =>
    rw [hpace]
    exact hs
  | @decided u v w hconfig hu hrestart hreduce hpace _ _ =>
    have huS : Scheduled s.config u.counters.pace := by
      rw [hu.pace]
      exact hs
    have hvS : Scheduled s.config v.counters.pace := by
      rcases hrestart with ⟨-, hr⟩ | ⟨-, rfl⟩
      · rw [← hconfig.1] at huS ⊢
        exact hr.scheduled huS
      · exact huS
    rw [hpace]
    rcases hreduce with ⟨-, hr⟩ | ⟨-, rfl⟩
    · rw [hr.pace]
      exact hvS
    · exact hvS

/-- The first solve begins with the first limit. -/
theorem start_scheduled (hpace : s.counters.pace = ({} : Counters).pace) :
    Solver.Yields Solver.start s (fun r t => r = none → Scheduled s.config t.counters.pace) fun _ _ => True := by
  have hlimit : s.counters.restartLimit = 0 := congrArg Pace.restartLimit hpace
  have hluby : s.counters.luby = {} := congrArg Pace.luby hpace
  have hbegin : Solver.Yields (do
      modify fun s => { s with status := .solving }
      if (← get).counters.restartLimit == 0 then Solver.initRestartLimit
      if (← get).counters.reductionLimit = 0 then Solver.initReductionLimit
      return none) s (fun (r : Option Report) t => r = none → Scheduled s.config t.counters.pace) fun _ _ => True := by
    have hzero : ((0 : Float) == 0) = true := by decide +kernel
    simp only [Solver.yields_bind, Solver.yields_modify, Solver.yields_get, hlimit, hzero, if_true,
      Solver.initRestartLimit, yields_scheduleRestart, Solver.initReductionLimit, hluby]
    split
    · exact fun _ => ⟨0, rfl⟩
    · exact fun _ => ⟨0, rfl⟩
  simp only [Solver.start, Solver.yields_bind, Solver.yields_get]
  cases hs : s.status with
  | satisfiable => exact fun h => by cases h
  | unsatisfiable => exact fun h => by cases h
  | configuration => exact hbegin
  | input => exact hbegin
  | solving => exact hbegin

/-- In the first solve the limit for restarts is always that after some number of them. -/
theorem Reached.scheduled (h : Reached config calls s) (hcalls : ∀ clock rounds, Call.solve clock rounds ∉ calls) :
    Scheduled config s.counters.pace := by
  induction h with
  | start h => exact (faithful_replay config calls).config ▸ (start_scheduled (pace_replay hcalls)).of_ok h rfl
  | @round s t h hr ih =>
    obtain ⟨F, hs, hconfig, hstatus⟩ := h.sound
    obtain ⟨s', hr, hw⟩ := hr.went hs hstatus
    have hconfig' : s'.config = config := hr.config.trans hconfig
    rw [← hr.pace, ← hconfig'] at ih
    rw [← hconfig']
    exact hw.moved.scheduled ih

/-- A limit that is at least one is not reached without conflicts. -/
theorem not_le_zero_of_one_le {x : Float} (h : 1 ≤ x) : ¬x ≤ Float.ofNat 0 := by
  intro h0
  have h : (1 : Float).toModel.unpack.le x.toModel.unpack = true := of_decide_eq_true h
  have h0 : x.toModel.unpack.le (Float.ofNat 0).toModel.unpack = true := of_decide_eq_true h0
  rw [show (1 : Float).toModel.unpack = .finite .positive 4503599627370496 (-52) (by decide) by rfl] at h
  rw [show (Float.ofNat 0).toModel.unpack = .zero .positive by rfl] at h0
  cases hx : x.toModel.unpack with
  | notANumber => cases hx ▸ h
  | zero sign => cases sign <;> cases hx ▸ h
  | infinity sign =>
    cases sign with
    | positive => cases hx ▸ h0
    | negative => cases hx ▸ h
  | finite sign m e hm =>
    cases sign with
    | positive => cases hx ▸ h0
    | negative => cases hx ▸ h

/-- With a limit that is at least one, a restart awaits a conflict. -/
theorem Solver.freshConflicts_ne_zero (h : 1 ≤ s.counters.restartLimit) (hdue : s.restartDue = true) :
    s.counters.freshConflicts ≠ 0 := by
  intro h0
  simp only [Solver.restartDue, h0, Bool.and_eq_true, decide_eq_true_eq] at hdue
  exact not_le_zero_of_one_le h hdue.2

/-- If each limit for restarts is at least one, restarts await conflicts. -/
theorem awaitsConflicts_of_limits (hcalls : ∀ clock rounds, Call.solve clock rounds ∉ calls)
    (hlimits : ∀ n, 1 ≤ (config.limitAfter n).1) : AwaitsConflicts config calls := by
  intro s h hdue
  obtain ⟨n, hn⟩ := h.scheduled hcalls
  have hlimit : s.counters.restartLimit = (config.limitAfter n).1 := congrArg Prod.fst hn
  exact Solver.freshConflicts_ne_zero (hlimit ▸ hlimits n) hdue

/-! ## Termination -/

/-- If the intervals between reductions grow, and a restart is due only after a conflict since the last one, as it is if
each limit for restarts is at least one, then a solve returns after finitely many rounds. Whatever activities and random
choices come out in each round, the rounds do not go on forever. -/
theorem solve_returns (config : Config) (calls : List Call) (hinc : 1 ≤ config.reductionIncrement.value) :
    ((∀ clock rounds, Call.solve clock rounds ∉ calls) → (∀ n, 1 ≤ (config.limitAfter n).1) →
      AwaitsConflicts config calls) ∧
    (AwaitsConflicts config calls →
      (∀ clock, ∃ rounds, Solver.Returns (Solver.solve clock rounds) (replay config calls).solver) ∧
      ∀ states : Nat → Solver, Solver.start (replay config calls).solver = .ok none (states 0) →
        ¬∀ i, NextRound (states i) (states (i + 1))) := by
  refine ⟨awaitsConflicts_of_limits, fun hfresh => ⟨fun clock => ?_, fun states hstart hnext => ?_⟩⟩
  · obtain ⟨r, s, hs, -⟩ := (start_spec (faithful_replay config calls).sound).exists_ok
    cases r with
    | some report => exact ⟨0, Or.inl ⟨report, s, by rw [Solver.solve, Solver.bind_of_ok hs]; rfl⟩⟩
    | none =>
      obtain ⟨rounds, hret⟩ := (Reached.start hs).run_returns hinc hfresh clock 0
      refine ⟨rounds, ?_⟩
      rw [Solver.Returns, Solver.solve, Solver.bind_of_ok hs]
      exact hret
  · have hreached : ∀ i, Reached config calls (states i) := by
      intro i
      induction i with
      | zero => exact .start hstart
      | succ i ih => exact ih.round (hnext i)
    refine not_strictAnti_of_wellFoundedLT (fun i => (states i).rank) (strictAnti_nat_of_succ_lt fun i => ?_)
    exact (hreached i).rank_lt (hnext i) hinc hfresh

/-- The default parameters, but all intervals between restarts are of the same length. -/
def evenRestarts : Config :=
  { (default : Config) with restartMultiplier := (default : Config).restartMultiplier.force 1 }

theorem limitAfter_evenRestarts (n : Nat) : (evenRestarts.limitAfter n).1 = Float.ofNat 100 := by
  induction n with
  | zero => rfl
  | succ n ih =>
    have hone : Float.ofNat 100 * 1 = Float.ofNat 100 := by decide +kernel
    show (evenRestarts.limitAfter n).1 * 1 = Float.ofNat 100
    rw [ih, hone]

/-- A solve of two clauses begins, and returns. -/
theorem solve_returns_twoClauses : (∃ s, Solver.start (replay evenRestarts twoClauses).solver = .ok none s) ∧
    (∀ clock, ∃ rounds, Solver.Returns (Solver.solve clock rounds) (replay evenRestarts twoClauses).solver) := by
  have hlimits : ∀ n, 1 ≤ (evenRestarts.limitAfter n).1 := fun n => by rw [limitAfter_evenRestarts]; decide +kernel
  have hcalls : ∀ clock rounds, Call.solve clock rounds ∉ twoClauses := by simp [twoClauses]
  obtain ⟨hawaits, hreturns⟩ := solve_returns evenRestarts twoClauses (by decide)
  refine ⟨Solver.exists_ok_of_answer ?_, (hreturns (hawaits hcalls hlimits)).1⟩
  obtain ⟨h1, h2⟩ := normalise_twoClauses
  simp only [twoClauses, replay, Session.makeAll, List.foldl, Session.make, Solver.addClause, Solver.defect, h1, h2]
  decide +kernel

end ClauseLearning
