import ClauseLearning.Proofs.Soundness.History

/-!
# What building a formula keeps

All calls that add to the formula come down to new atoms and to additions: what these two keep, of the clauses that were
given and of the solver, is kept by every such call, the reading of a text among them (`Session.keeps_of_builds`).
-/

namespace ClauseLearning

/-- What holds of the log and of the solver is kept by new atoms and by additions. -/
structure KeptByBuilding (P : Log → Solver → Prop) : Prop where
  freshAtom : ∀ {log s}, P log s → P log (Solver.after Solver.freshAtom s)
  addClause : ∀ {log s} (c : Clause), P log s →
    P (log ++ [(c, Solver.answer (Solver.addClause c) s)]) (Solver.after (Solver.addClause c) s)

variable {P : Log → Solver → Prop} {log : Log} {s : Solver} {m : Session} {call : Call}

namespace KeptByBuilding

theorem addAtoms (hP : KeptByBuilding P) (h : P log s) (n : Nat) : P log (Solver.after (Solver.addAtoms n) s) := by
  induction n generalizing s with
  | zero => exact h
  | succ n ih =>
    have hfirst := hP.freshAtom h
    rw [Solver.addAtoms, Solver.after_bind]
    unfold Solver.after at hfirst
    cases hr : Solver.freshAtom s with
    | ok a t => rw [hr] at hfirst; exact ih hfirst
    | error e t => rw [hr] at hfirst; exact hfirst

theorem ensureAtoms (hP : KeptByBuilding P) (h : P log s) (count : Nat) :
    P log (Solver.after (Solver.ensureAtoms count) s) := by
  rw [Solver.ensureAtoms, Solver.after_bind]
  exact hP.addAtoms h _

theorem perform (hP : KeptByBuilding P) (h : P log s) (action : Dimacs.Action) :
    P (log ++ action.log s) (Solver.after action.perform s) := by
  cases action with
  | ensureAtoms count =>
    rw [Dimacs.Action.log, List.append_nil]
    exact hP.ensureAtoms h count
  | addClause c =>
    rw [Dimacs.after_perform_addClause]
    exact hP.addClause c h
  | fail e =>
    rw [Dimacs.Action.log, List.append_nil]
    exact h

/-- By the actions, up to the first that fails. -/
theorem performAll (hP : KeptByBuilding P) (h : P log s) (actions : List Dimacs.Action) :
    P (log ++ Dimacs.logAll actions s) (Solver.after (Dimacs.performAll actions) s) := by
  induction actions generalizing log s with
  | nil =>
    rw [Dimacs.logAll, List.append_nil]
    exact h
  | cons action actions ih =>
    have hfirst := hP.perform h action
    rw [Dimacs.performAll, Solver.after_bind, Dimacs.logAll]
    unfold Solver.after at hfirst
    cases hr : action.perform s with
    | ok a t =>
      rw [hr] at hfirst
      rw [← List.append_assoc]
      exact ih hfirst
    | error e t =>
      rw [hr] at hfirst
      rwa [List.append_nil]

end KeptByBuilding

/-- What new atoms and additions keep is kept by every call that adds to the formula. -/
theorem Session.keeps_of_builds (hP : KeptByBuilding P) (hb : call.builds = true) (h : P m.log m.solver) :
    P (m.make call).log (m.make call).solver := by
  cases call with
  | freshAtom => exact hP.freshAtom h
  | ensureAtoms count => exact hP.ensureAtoms h count
  | addClause c => exact hP.addClause c h
  | readDimacs lines =>
    rw [Session.make, Dimacs.after_read]
    exact hP.performAll h _
  | askToStop interrupt => cases hb
  | reseed random => cases hb
  | solve clock rounds => cases hb

end ClauseLearning
