import ClauseLearning.Proofs.Soundness.Search
import ClauseLearning.Proofs.Termination.Frame

/-!
# A solve retains the clauses of the formula

No clause of the formula is ever removed: each stays at its key through a solve, up to the order of its literals
(`solve_retains`). Propagation is what changes the order; all else that a solve does leaves these clauses alone
(`leavesGiven_advance`, `leavesGiven_start`).
-/

namespace ClauseLearning

namespace ClauseStore

variable {s s' s'' : ClauseStore}

/-- The clauses of the formula are found at the same keys, with the same literals. -/
structure Retains (s s' : ClauseStore) : Prop where
  kept : ∀ {key : ClauseKey} {d : Array Literal}, key.isGiven = true → s.find key = some d →
    ∃ d', s'.find key = some d' ∧ d'.Perm d

theorem Retains.trans (h : s.Retains s') (h' : s'.Retains s'') : s.Retains s'' where
  kept hk hd := by
    obtain ⟨d', hd', hp⟩ := h.kept hk hd
    obtain ⟨d'', hd'', hp'⟩ := h'.kept hk hd'
    exact ⟨d'', hd'', hp'.trans hp⟩

theorem Reordered.retains (h : s.Reordered s') : s.Retains s' := ⟨fun _ hd => h.kept hd⟩

theorem find_of_givenPart (h : s'.givenPart = s.givenPart) {key : ClauseKey} (hk : key.isGiven = true) :
    s'.find key = s.find key := by
  obtain ⟨hunits, hbinaries, hlong⟩ := GivenPart.mk.inj h
  cases key with
  | givenUnit l => rw [find_givenUnit, find_givenUnit, hunits]
  | givenBinary i => rw [find_givenBinary, find_givenBinary, hbinaries]
  | given i => rw [find_given, find_given, hlong]
  | _ => cases hk

theorem Retains.of_givenPart (h : s'.givenPart = s.givenPart) : s.Retains s' :=
  ⟨fun hk hd => ⟨_, (find_of_givenPart h hk).trans hd, .rfl⟩⟩

theorem Retains.refl (s : ClauseStore) : s.Retains s := .of_givenPart rfl

end ClauseStore

namespace Solver

variable {α : Type} {s t : Solver} {F : List Clause}

/-- Whatever an operation comes to that leaves the clauses of the formula alone, they are retained. -/
theorem LeavesGiven.retains {m : SolverM α} (h : LeavesGiven m) {c : ClauseStore} (hc : c.Retains s.clauses) :
    Yields m s (fun _ t => c.Retains t.clauses) fun _ t => c.Retains t.clauses :=
  (h.yields s).imp (fun _ _ ht => hc.trans (.of_givenPart ht)) fun _ _ ht => hc.trans (.of_givenPart ht)

/-! ## What leaves the clauses of the formula alone -/

theorem leavesGiven_reduce : LeavesGiven reduce :=
  leaves_bind leaves_get fun _ => leaves_bind (leaves_bind leaves_get fun _ =>
    leaves_bind (fun s => s.clauses.givenPart_removeSlots _) fun _ =>
      leaves_ofExcept _ _) fun _ _ => rfl

theorem leavesGiven_advance (time : Nat) : LeavesGiven (advance time) := by
  have hdecide : LeavesGiven (decideBy chooseLiteral time) := (leaves_decideBy time).given
  have hreduce : LeavesGiven (goOnBy chooseLiteral time) :=
    leaves_bind leaves_get fun _ => leaves_ite (leaves_bind leavesGiven_reduce fun _ => hdecide) hdecide
  rw [show advance time = advanceBy chooseLiteral time from rfl]
  refine leaves_bind (fun _ => rfl) fun _ => leaves_bind leaves_terminationDue.given fun due => leaves_ite ?_ ?_
  · exact leaves_bind (leaves_backjump 0).given fun _ => leaves_pure _
  · exact leaves_bind leaves_get fun s => leaves_ite (leaves_bind leaves_restart.given fun _ => hreduce) hreduce

theorem leavesGiven_start : LeavesGiven start := by
  have hreduction : LeavesGiven (do
      if (← get).counters.reductionLimit = 0 then initReductionLimit
      return (none : Option Report)) := by
    refine leaves_bind leaves_get fun _ => leaves_ite (leaves_bind ?_ fun _ => leaves_pure _) (leaves_pure _)
    exact leaves_bind leaves_get fun _ _ => rfl
  refine leaves_bind leaves_get fun s => ?_
  have hbegin : LeavesGiven (do
      modify fun s => { s with status := .solving }
      if (← get).counters.restartLimit == 0 then initRestartLimit
      if (← get).counters.reductionLimit = 0 then initReductionLimit
      return (none : Option Report)) := by
    refine leaves_bind (fun _ => rfl) fun _ => leaves_bind leaves_get fun _ => leaves_ite ?_ hreduction
    refine leaves_bind ?_ fun _ => hreduction
    exact leaves_bind leaves_get fun _ => (leaves_scheduleRestart _).given
  cases s.status with
  | satisfiable => exact leaves_bind leaves_get fun _ => leaves_pure _
  | unsatisfiable => exact leaves_bind leaves_get fun _ => leaves_pure _
  | _ => exact hbegin

/-! ## Rounds -/

/-- Propagation reorders literals, and the analysis of a conflict stores a learned clause. -/
theorem consequences_retains (h : Sound F s) : s.clauses.Retains (after consequences s).clauses := by
  refine Yields.holds_after (P := fun t => s.clauses.Retains t.clauses) ?_
  rw [consequences, yields_bind]
  refine (propagate_spec h).ok_imp fun r t hrt => ?_
  have hretains := hrt.2.1.clauses.retains
  cases r with
  | none => exact yields_pure.mpr hretains
  | some key =>
    refine LeavesGiven.retains (leaves_bind leaves_get fun s => leaves_ite ?_ ?_) hretains
    · exact leaves_bind (leaves_analyse key).given fun _ => leaves_pure _
    · exact leaves_bind (fun _ => rfl) fun _ => leaves_pure _

theorem step_retains (h : Sound F s) (time : Nat) : s.clauses.Retains (after (step time) s).clauses := by
  refine Yields.holds_after (P := fun t => s.clauses.Retains t.clauses) ?_
  rw [step, yields_bind, yields_onCounters, yields_bind]
  have hretains := consequences_retains ((Alike.other s { s.counters with iterations := s.counters.iterations + 1 }
    s.random s.interrupt).sound h)
  refine (yields_after consequences _).imp (fun r t ht => ?_) fun _ t ht => ht ▸ hretains
  refine LeavesGiven.retains ?_ (ht ▸ hretains)
  cases r with
  | fundamentalConflict => exact leaves_bind (leaves_finish time).given fun _ => leaves_pure _
  | exhausted => exact leavesGiven_advance time
  | learned lesson => exact leaves_bind (leaves_apply lesson).given fun _ => leaves_pure _

/-- By the rounds, which keep the invariant. -/
theorem run_retains (h : Sound F s) (hs : s.status = .solving) (clock : Nat → Nat) (rounds i : Nat) :
    s.clauses.Retains (after (run clock rounds i) s).clauses := by
  induction rounds generalizing s i with
  | zero => exact .refl _
  | succ rounds ih =>
    have hretains := step_retains h (clock i)
    rw [run, after_bind]
    have hstep := step_spec h hs (clock i)
    unfold Yields at hstep
    unfold after at hretains
    cases hr : step (clock i) s with
    | error e t => rwa [hr] at hretains
    | ok r t =>
      rw [hr] at hretains hstep
      cases r with
      | some report => exact hretains
      | none => exact hretains.trans (ih hstep.1 (hstep.2.status.trans hs) (i + 1))

theorem solve_retains (h : Sound F s) (clock : Nat → Nat) (rounds : Nat) :
    s.clauses.Retains (after (solve clock rounds) s).clauses := by
  have hstart := leavesGiven_start s
  rw [solve, after_bind]
  obtain ⟨r, t, hr, hbegun⟩ := (start_spec h).exists_ok
  simp only [after, hr] at hstart ⊢
  cases r with
  | some report => exact .of_givenPart hstart
  | none => exact (ClauseStore.Retains.of_givenPart hstart).trans (run_retains hbegun.1 hbegun.2.2.2 clock rounds 0)

end Solver

end ClauseLearning
