import ClauseLearning.Proofs.History
import ClauseLearning.Proofs.Soundness.Formula
import ClauseLearning.Proofs.Soundness.Search

/-!
# The invariant along a history

A session is faithful if its solver is sound for the clauses that were accepted (`Session.Faithful`). A new one is,
every call keeps it (`Session.Faithful.make`), and so is every session that calls lead to (`faithful_replay`). As long
as nothing is added after a model was found, the model is complete (`complete_replay`).
-/

namespace ClauseLearning

variable {F : List Clause} {s t : Solver} {m : Session} {config : Config}

/-- The clause holds a literal of one of the first atoms together with its negation. -/
def Clause.HasTwinsBelow (c : Clause) (n : Nat) : Prop := ∃ l ∈ c, -l ∈ c ∧ l.atom < n

theorem Clause.HasTwinsBelow.mono {c : Clause} {n n' : Nat} (h : c.HasTwinsBelow n) (hn : n ≤ n') :
    c.HasTwinsBelow n' := by
  obtain ⟨l, hl, hneg, hlt⟩ := h
  exact ⟨l, hl, hneg, Nat.lt_of_lt_of_le hlt hn⟩

/-! ## Clauses that are logged -/

/-- The solver is built up by the clauses of a log: those that were accepted are part of the formula, and the
tautologies are of known atoms. -/
structure Logged (F : List Clause) (s : Solver) (log : Log) (t : Solver) : Prop where
  built : Built (F ++ log.accepted) s t
  twins : ∀ c ∈ log.tautologies, c.HasTwinsBelow t.atoms.size
  idle : log.accepted = [] → t.atoms.size = s.atoms.size → Unmoved s t

theorem Grown.logged (h : Grown F s t) : Logged F s [] t := by
  refine ⟨?_, fun c hc => (by cases hc), fun _ => h.idle⟩
  rw [show Log.accepted [] = [] from rfl, List.append_nil]
  exact h.toBuilt

theorem Logged.trans {log log' : Log} {u : Solver} (h : Logged F s log t) (h' : Logged (F ++ log.accepted) t log' u) :
    Logged F s (log ++ log') u := by
  refine ⟨?_, fun c hc => ?_, fun hlog hu => ?_⟩
  · rw [Log.accepted_append, ← List.append_assoc]
    exact h.built.trans h'.built
  · rw [Log.tautologies_append] at hc
    rcases List.mem_append.mp hc with hc | hc
    · exact (h.twins c hc).mono h'.built.size
    · exact h'.twins c hc
  · rw [Log.accepted_append, List.append_eq_nil_iff] at hlog
    have ht : t.atoms.size = s.atoms.size := Nat.le_antisymm (hu ▸ h'.built.size) h.built.size
    exact (h.idle hlog.1 ht).trans (h'.idle hlog.2 (hu.trans ht.symm))

theorem addClause_logged (h : Sound F s) (c : Clause) :
    Logged F s [(c, Solver.answer (Solver.addClause c) s)] (Solver.after (Solver.addClause c) s) := by
  refine (addClause_spec h c).run (P := fun r t => Logged F s [(c, r)] t) 
    (fun r t ht => ⟨ht, fun d hd => ?_, fun hlog => ?_⟩) ?_
  · cases hd
  · cases hlog
  · rintro e t ⟨ht, htwins⟩
    refine ⟨?_, fun d hd => ?_, fun _ => ht.idle⟩
    · rw [show Log.accepted [(c, .error e)] = [] from rfl, List.append_nil]
      exact ht.toBuilt
    · cases e with
      | clause cause =>
        cases cause with
        | tautology =>
          rw [show d = c from List.mem_singleton.mp hd]
          exact htwins rfl
        | _ => cases hd
      | _ => cases hd

namespace Dimacs

/-- To pass over an error does not change the state. -/
theorem after_perform_addClause (c : Clause) (s : Solver) :
    Solver.after (Action.perform (.addClause c)) s = Solver.after (Solver.addClause c) s := by
  refine Solver.after_of_yields (Solver.yields_tryCatch.mpr (Solver.yields_discard.mpr ?_))
  refine (Solver.yields_after (Solver.addClause c) s).imp (fun _ _ ht => ht) fun e t ht => ?_
  split
  · exact ht
  · exact ht

theorem perform_logged (h : Sound F s) (action : Action) :
    Logged F s (action.log s) (Solver.after action.perform s) := by
  cases action with
  | ensureAtoms count =>
    exact ((ensureAtoms_spec h count).run (P := fun _ t => Grown F s t) (fun _ _ ht => ht.1) fun _ _ ht => ht).logged
  | addClause c =>
    rw [after_perform_addClause]
    exact addClause_logged h c
  | fail e => exact (Grown.refl h).logged

theorem performAll_logged (h : Sound F s) (actions : List Action) :
    Logged F s (logAll actions s) (Solver.after (performAll actions) s) := by
  induction actions generalizing F s with
  | nil => exact (Grown.refl h).logged
  | cons action actions ih =>
    have hfirst := perform_logged h action
    rw [performAll, Solver.after_bind, logAll]
    unfold Solver.after at hfirst
    cases hr : action.perform s with
    | ok a t =>
      rw [hr] at hfirst
      exact hfirst.trans (ih hfirst.built.sound)
    | error e t =>
      rw [hr] at hfirst
      simpa using hfirst

/-- The state after a text is read is that after its script. -/
theorem after_read (lines : List Line) (s : Solver) :
    Solver.after (read lines) s = Solver.after (performAll (script lines).1) s := by
  refine Solver.after_of_yields ?_
  rw [read_eq, Solver.yields_bind]
  exact (Solver.yields_after _ s).imp (fun _ _ ht => ht) fun _ _ ht => ht

end Dimacs

/-! ## Sessions -/

theorem Complete.unmoved (h : Complete s) (ht : Unmoved s t) : Complete t where
  valued := by
    rw [ht.atoms.size_eq, ht.atoms.valueOf_eq]
    exact h.valued
  exhausted := by
    rw [ht.trail]
    exact h.exhausted

namespace Session

/-- The solver is sound for the clauses that were accepted, the tautologies are of known atoms, and a model is
claimed only after a verdict. -/
structure Faithful (config : Config) (m : Session) : Prop where
  sound : Sound m.log.accepted m.solver
  config : m.solver.config = config
  twins : ∀ c ∈ m.log.tautologies, c.HasTwinsBelow m.solver.atoms.size
  claimed : m.solver.status = .satisfiable → .ok (some .satisfiable) ∈ m.verdicts

variable {call : Call}

/-- A call that adds to the formula keeps a session faithful. -/
theorem Faithful.logged (h : m.Faithful config) {log : Log} (ht : Logged m.log.accepted m.solver log t) :
    Faithful config { m with solver := t, log := m.log ++ log } where
  sound := by
    have := ht.built.sound
    rwa [← Log.accepted_append] at this
  config := ht.built.config.trans h.config
  twins c hc := by
    rw [Log.tautologies_append] at hc
    rcases List.mem_append.mp hc with hc | hc
    · exact (h.twins c hc).mono ht.built.size
    · exact ht.twins c hc
  claimed hs := h.claimed (ht.built.settled hs)

/-- The wish to stop and the source of random choices are no part of the invariant. -/
theorem Faithful.other (h : m.Faithful config) (random : Generator) (interrupt : Option Interrupt) :
    Faithful config { m with solver := { m.solver with random, interrupt } } where
  sound := (Alike.other m.solver _ random interrupt).sound h.sound
  config := h.config
  twins := h.twins
  claimed := h.claimed

theorem Faithful.solve (h : m.Faithful config) (clock : Nat → Nat) (rounds : Nat) :
    (m.make (.solve clock rounds)).Faithful config := by
  have hsolve : Sound m.log.accepted (m.make (.solve clock rounds)).solver ∧
      (m.make (.solve clock rounds)).solver.config = m.solver.config ∧
      (m.make (.solve clock rounds)).solver.atoms.size = m.solver.atoms.size ∧
      ((m.make (.solve clock rounds)).solver.status = .satisfiable →
        .ok (some .satisfiable) ∈ (m.make (.solve clock rounds)).verdicts) := by
    refine (solve_spec h.sound clock rounds).run (P := fun r t => Sound m.log.accepted t ∧ t.config = m.solver.config ∧
      t.atoms.size = m.solver.atoms.size ∧
        (t.status = .satisfiable → .ok (some .satisfiable) ∈ m.verdicts ++ [r])) ?_ ?_
    · refine fun r t ht => ⟨ht.sound, ht.config, ht.size, fun hs => ?_⟩
      rw [(ht.complete hs).1]
      exact List.mem_append_right _ (List.mem_singleton_self _)
    · refine fun e t ht => ⟨ht.sound, ht.config, ht.size, fun hs => ?_⟩
      cases hs.symm.trans ht.status
  obtain ⟨hsound, hconfig, hsize, hclaimed⟩ := hsolve
  refine ⟨hsound, hconfig.trans h.config, fun c hc => ?_, hclaimed⟩
  rw [hsize]
  exact h.twins c hc

/-- What a call that adds to the formula logs. -/
theorem Faithful.builds (h : m.Faithful config) (hb : call.builds = true) :
    ∃ log, (m.make call).log = m.log ++ log ∧ Logged m.log.accepted m.solver log (m.make call).solver := by
  cases call with
  | freshAtom =>
    refine ⟨[], (List.append_nil _).symm, Grown.logged ?_⟩
    exact (freshAtom_spec h.sound).run (P := fun _ t => Grown _ _ t) (fun _ _ ht => ht.1) fun _ _ ht => ht
  | ensureAtoms count =>
    refine ⟨[], (List.append_nil _).symm, Grown.logged ?_⟩
    exact (ensureAtoms_spec h.sound count).run (P := fun _ t => Grown _ _ t) (fun _ _ ht => ht.1) fun _ _ ht => ht
  | addClause c => exact ⟨_, rfl, addClause_logged h.sound c⟩
  | readDimacs lines =>
    refine ⟨_, rfl, ?_⟩
    rw [Session.make, Dimacs.after_read]
    exact Dimacs.performAll_logged h.sound _
  | askToStop interrupt => cases hb
  | reseed random => cases hb
  | solve clock rounds => cases hb

theorem verdicts_make (m : Session) (hb : call.builds = true) : (m.make call).verdicts = m.verdicts := by
  cases call with
  | askToStop interrupt => cases hb
  | reseed random => cases hb
  | solve clock rounds => cases hb
  | _ => rfl

theorem Faithful.make (h : m.Faithful config) (call : Call) : (m.make call).Faithful config := by
  cases hb : call.builds with
  | true =>
    obtain ⟨log, hlog, hl⟩ := h.builds hb
    have heq : m.make call = { m with solver := (m.make call).solver, log := m.log ++ log } := by
      rw [← hlog, ← verdicts_make m hb]
    rw [heq]
    exact h.logged hl
  | false =>
    cases call with
    | askToStop interrupt => exact h.other m.solver.random interrupt
    | reseed random => exact h.other random m.solver.interrupt
    | solve clock rounds => exact h.solve clock rounds
    | _ => cases hb

theorem Faithful.makeAll (h : m.Faithful config) (calls : List Call) : (m.makeAll calls).Faithful config := by
  induction calls generalizing m with
  | nil => exact h
  | cons call calls ih => exact ih (h.make call)

/-- A call that adds nothing moves nothing, unless it is a solve. -/
theorem Faithful.unmoved (h : m.Faithful config) (hb : call.builds = true) (hn : m.AddsNothing call) :
    Unmoved m.solver (m.make call).solver := by
  obtain ⟨log, hlog, hl⟩ := h.builds hb
  have hpos : 0 < m.solver.atoms.size := AtomTable.lt_size_of_valueOf h.sound.agrees.top
  have hle := hl.built.size
  have hcount := hn.1
  have haccepted := hn.2
  rw [hlog, Log.accepted_append, List.append_right_eq_self] at haccepted
  refine hl.idle haccepted ?_
  simp only [Solver.atomCount] at hcount
  omega

/-- Nothing is added to a formula of which a model was found, so that the model stays complete. -/
theorem Faithful.complete_make (h : m.Faithful config) (call : Call)
    (hm : m.solver.status = .satisfiable → Complete m.solver)
    (hb : call.builds = true → .ok (some .satisfiable) ∈ m.verdicts → m.AddsNothing call)
    (hs : (m.make call).solver.status = .satisfiable) : Complete (m.make call).solver := by
  cases hbuilds : call.builds with
  | true =>
    obtain ⟨_, _, hl⟩ := h.builds hbuilds
    have hsat := hl.built.settled hs
    exact (hm hsat).unmoved (h.unmoved hbuilds (hb hbuilds (h.claimed hsat)))
  | false =>
    cases call with
    | askToStop interrupt => exact ⟨(hm hs).valued, (hm hs).exhausted⟩
    | reseed random => exact ⟨(hm hs).valued, (hm hs).exhausted⟩
    | solve clock rounds =>
      have hsolve := (solve_spec h.sound clock rounds).run
        (P := fun _ t => t.status = .satisfiable → t = m.solver ∨ Complete t) (fun _ t ht hs => (ht.complete hs).2)
        fun e t ht hs => by cases hs.symm.trans ht.status
      rcases hsolve hs with heq | hc
      · rw [Session.make, heq] at hs ⊢
        exact hm hs
      · exact hc
    | _ => cases hbuilds

theorem Faithful.complete_makeAll (h : m.Faithful config) (hm : m.solver.status = .satisfiable → Complete m.solver)
    {calls : List Call} (hc : Settles m calls) (hs : (m.makeAll calls).solver.status = .satisfiable) :
    Complete (m.makeAll calls).solver := by
  induction calls generalizing m with
  | nil => exact hm hs
  | cons call calls ih => exact ih (h.make call) (h.complete_make call hm fun _ => hc.1) hc.2 hs

end Session

theorem faithful_ofConfig (config : Config) : (Session.ofConfig config).Faithful config :=
  ⟨sound_ofConfig config, rfl, fun c hc => (by cases hc), fun hs => (by cases hs)⟩

/-- A new solver is faithful after any calls. -/
theorem faithful_replay (config : Config) (calls : List Call) : (replay config calls).Faithful config :=
  (faithful_ofConfig config).makeAll calls

/-- If nothing is added after a model was found, the model is complete. -/
theorem complete_replay {calls : List Call} (hc : Settles (.ofConfig config) calls)
    (hs : (replay config calls).solver.status = .satisfiable) : Complete (replay config calls).solver :=
  (faithful_ofConfig config).complete_makeAll (fun hs => (by cases hs)) hc hs

end ClauseLearning
