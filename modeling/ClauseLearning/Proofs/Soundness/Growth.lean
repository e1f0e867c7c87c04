import ClauseLearning.Proofs.Building
import ClauseLearning.Proofs.Formula.Atoms
import ClauseLearning.Proofs.Soundness.Verdicts

/-!
# Formulas that grow after a verdict

A formula that was found to be satisfiable is settled: a solve answers at once (`solve_of_satisfiable`), and no addition
takes the verdict back unless it refutes the formula. So the verdict bears out only as long as no atom is new
(`KeepsAtoms`): then the valuation stays complete, and a clause that is added is true in it or refutes the formula
(`model_of_solve_grown`). With a new atom it does not, as the atom has no value (`stale_of_freshAtom`), and clauses of
new atoms need not be true (`stale_verdict`).
-/

namespace ClauseLearning

variable {F : List Clause} {s t : Solver} {c : Clause} {m : Session} {call : Call} {config : Config}

/-- No atom is added after the formula was found to be satisfiable. -/
def KeepsAtoms : Session → List Call → Prop
  | _, [] => True
  | m, call :: calls =>
    (.ok (some .satisfiable) ∈ m.verdicts → (m.make call).solver.atomCount = m.solver.atomCount) ∧
      KeepsAtoms (m.make call) calls

/-! ## What is added to a model -/

/-- A known literal has a value where all atoms have. -/
theorem Complete.reduced_eq_nil (hc : Complete s) (hk : ∀ l ∈ c, s.Knows l) : s.reduced c.normalise = [] := by
  refine List.eq_nil_iff_forall_not_mem.mpr fun l hl => ?_
  obtain ⟨hl, hv⟩ := Solver.mem_reduced.mp hl
  obtain ⟨hge, hle⟩ := hk l (Clause.mem_normalise.mp hl)
  refine hc.valued l.atom ?_ hv
  rw [Solver.atomCount] at hle
  omega

/-- An addition to a complete valuation stores nothing. -/
theorem Complete.addClause (hc : Complete s) (hs : Sound F s) (c : Clause) :
    Complete (Solver.after (Solver.addClause c) s) := by
  unfold Solver.after
  cases hr : Solver.addClause c s with
  | error e t =>
    rcases refuses_of_addClause hs.toConsistent hr with ⟨-, rfl⟩ | ⟨-, -, rfl⟩
    · exact hc
    · exact ⟨hc.valued, hc.exhausted⟩
  | ok r t =>
    obtain ⟨haccepts, hadds⟩ := adds_of_addClause hs.toConsistent hr
    have hnil := hc.reduced_eq_nil haccepts.known
    cases hadds with
    | satisfied _ _ => exact ⟨hc.valued, hc.exhausted⟩
    | unsatisfiable _ => exact ⟨hc.valued, hc.exhausted⟩
    | unit hunit =>
      rw [hnil] at hunit
      cases hunit
    | longer hlen _ =>
      rw [hnil] at hlen
      simp at hlen

/-- As long as there are `n` atoms, a claimed model is complete. -/
def Modelled (n : Nat) (log : Log) (s : Solver) : Prop :=
  Sound log.accepted s ∧ n ≤ s.atoms.size ∧ (s.atoms.size = n → s.status = .satisfiable → Complete s)

theorem keptByBuilding_modelled (n : Nat) : KeptByBuilding (Modelled n) where
  freshAtom {log s} h := by
    obtain ⟨hs, hn, hc⟩ := h
    have hgrown : Grown log.accepted s (Solver.after Solver.freshAtom s) :=
      (freshAtom_spec hs).run (P := fun _ t => Grown log.accepted s t) (fun _ _ ht => ht.1) fun _ _ ht => ht
    refine ⟨hgrown.sound, Nat.le_trans hn hgrown.size, fun hsize hsat => ?_⟩
    have hsame : s.atoms.size = n := Nat.le_antisymm (hsize ▸ hgrown.size) hn
    exact (hc hsame (hgrown.settled hsat)).unmoved (hgrown.idle (hsize.trans hsame.symm))
  addClause {log s} c h := by
    obtain ⟨hs, hn, hc⟩ := h
    have hbuilt := (addClause_logged hs c).built
    refine ⟨by rw [Log.accepted_append]; exact hbuilt.sound, Nat.le_trans hn hbuilt.size, fun hsize hsat => ?_⟩
    have hsame : s.atoms.size = n := Nat.le_antisymm (hsize ▸ hbuilt.size) hn
    exact (hc hsame (hbuilt.settled hsat)).addClause hs c

namespace Session

/-- A call that adds no atom keeps a claimed model complete. -/
theorem Faithful.complete_builds (h : m.Faithful config) (hb : call.builds = true)
    (hm : m.solver.status = .satisfiable → Complete m.solver)
    (hn : .ok (some .satisfiable) ∈ m.verdicts → (m.make call).solver.atomCount = m.solver.atomCount)
    (hs : (m.make call).solver.status = .satisfiable) : Complete (m.make call).solver := by
  obtain ⟨log, -, hl⟩ := h.builds hb
  have hsat := hl.built.settled hs
  have hcount := hn (h.claimed hsat)
  have hpos : 0 < m.solver.atoms.size := AtomTable.lt_size_of_valueOf h.sound.agrees.top
  have hkept := keeps_of_builds (keptByBuilding_modelled m.solver.atoms.size) hb ⟨h.sound, Nat.le_refl _, fun _ => hm⟩
  refine hkept.2.2 ?_ hs
  have hle := hkept.2.1
  simp only [Solver.atomCount] at hcount
  omega

theorem Faithful.complete_makeAll_grown (h : m.Faithful config)
    (hm : m.solver.status = .satisfiable → Complete m.solver)
    {calls : List Call} (hc : KeepsAtoms m calls) (hs : (m.makeAll calls).solver.status = .satisfiable) :
    Complete (m.makeAll calls).solver := by
  induction calls generalizing m with
  | nil => exact hm hs
  | cons call calls ih =>
    refine ih (h.make call) (fun hmade => ?_) hc.2 hs
    cases hb : call.builds with
    | true => exact h.complete_builds hb hm hc.1 hmade
    | false => exact h.complete_make call hm (fun hb' => by rw [hb] at hb'; cases hb') hmade

end Session

/-! ## The verdict -/

/-- If a solve answers that there is a model, and no atom was added after such an answer before, then all
atoms have values, and each clause that was accepted and each tautology that was passed over is true, whether
it was added before or after. -/
theorem model_of_solve_grown (config : Config) (calls : List Call) (clock : Nat → Nat) (rounds : Nat)
    (hc : KeepsAtoms (.ofConfig config) calls)
    (h : Solver.answer (Solver.solve clock rounds) (replay config calls).solver = .ok (some .satisfiable)) :
    let clauses := (replay config calls).log.accepted ++ (replay config calls).log.tautologies
    let t := Solver.after (Solver.solve clock rounds) (replay config calls).solver
    (∀ x, 1 ≤ x → x ≤ t.atomCount → t.atoms.valueOf x = some (t.assignment x)) ∧
      (∀ c ∈ clauses, c.satisfied t.atoms.valuation = true) ∧ t.modelSatisfies clauses = true := by
  intro clauses t
  have hfaithful := faithful_replay config calls
  have hmade : (replay config calls).make (.solve clock rounds) |>.Faithful config := hfaithful.make _
  have hstatus : t.status = .satisfiable := by
    refine (solve_spec hfaithful.sound clock rounds).run
      (P := fun r t => r = .ok (some .satisfiable) → t.status = .satisfiable)
      (fun r t ht hr => ?_) (fun e t _ hr => ?_) h
    · exact Status.eq_satisfiable (ht.answer _ (by injection hr))
    · cases hr
  have hcomplete : Complete t := by
    refine hfaithful.complete_make (.solve clock rounds) (fun hs => ?_) (fun hb => by cases hb) hstatus
    exact (faithful_ofConfig config).complete_makeAll_grown (fun hs => by cases hs) hc hs
  have hsatisfied : ∀ c ∈ clauses, c.satisfied t.atoms.valuation = true := by
    intro c hm
    rcases List.mem_append.mp hm with hm | hm
    · exact hmade.sound.satisfied hcomplete (fun hu => by cases hstatus.symm.trans hu) hm
    · exact hcomplete.satisfied (hmade.twins c hm)
  refine ⟨fun x hx hle => hcomplete.valueOf_eq ?_, hsatisfied, ?_⟩
  · rw [Solver.atomCount] at hle
    omega
  · rw [Solver.modelSatisfies, hstatus, List.all_eq_true.mpr hsatisfied]
    rfl

/-- After a verdict without a decision, a clause of atoms that were there before is added. -/
theorem model_of_solve_grown_unit :
    let m := replay default [.ensureAtoms 2, .addClause [⟨1, true⟩], .addClause [⟨2, true⟩], .solve (fun _ => 0) 5,
      .addClause [⟨1, false⟩, ⟨2, true⟩]]
    (Solver.after (Solver.solve (fun _ => 0) 5) m.solver).modelSatisfies
        (m.log.accepted ++ m.log.tautologies) = true := by
  have h1 : Clause.normalise [⟨1, true⟩] = [⟨1, true⟩] := Clause.Ordered.normalise (by decide)
  have h2 : Clause.normalise [⟨2, true⟩] = [⟨2, true⟩] := Clause.Ordered.normalise (by decide)
  have h3 : Clause.normalise [⟨1, false⟩, ⟨2, true⟩] = [⟨1, false⟩, ⟨2, true⟩] := Clause.Ordered.normalise (by decide)
  refine (model_of_solve_grown default _ (fun _ => 0) 5 ?_ (eq_ok_of_toOption ?_)).2.2
  · refine ⟨fun hv => absurd hv (by simp [Session.ofConfig]),
      fun hv => absurd hv (by simp [Session.ofConfig, Session.make]),
      fun hv => absurd hv (by simp [Session.ofConfig, Session.make]), fun _ => ?_, fun _ => ?_, trivial⟩ <;>
    · simp only [Session.ofConfig, Session.make, Solver.addClause, Solver.defect, h1, h2, h3]
      decide +kernel
  · simp only [replay, Session.makeAll, List.foldl, Session.make, Solver.addClause, Solver.defect, h1, h2, h3]
    decide +kernel

/-! ## Verdicts that go stale -/

/-- A formula that was found to be satisfiable is answered at once. -/
theorem solve_of_satisfiable (hs : s.status = .satisfiable) (clock : Nat → Nat) (rounds : Nat) :
    Solver.solve clock rounds s = .ok (some .satisfiable) s := by
  apply Solver.eq_of_yields
  simp only [Solver.solve, Solver.start, Solver.yields_bind, Solver.yields_get, hs, Solver.report, Solver.yields_pure]
  rfl

/-- To a formula that was found to be satisfiable an atom may be added, and the next solve gives the same answer
although the atom has no value. -/
theorem stale_of_freshAtom (h : Sound F s) (hs : s.status = .satisfiable) {a : Nat} (hr : Solver.freshAtom s = .ok a t)
    (clock : Nat → Nat) (rounds : Nat) :
    Solver.solve clock rounds t = .ok (some .satisfiable) t ∧ 1 ≤ a ∧ a ≤ t.atomCount ∧ t.atoms.valueOf a = none := by
  obtain ⟨-, drawn, -, rfl, rfl⟩ := (Solver.freshAtom_ok_iff h.agrees.aligned).mp hr
  have hpos : 0 < s.atoms.size := AtomTable.lt_size_of_valueOf h.agrees.top
  refine ⟨solve_of_satisfiable ?_ clock rounds, hpos, ?_, ?_⟩
  · simp [Solver.grown, Solver.begun, hs]
  · rw [Solver.atomCount, Solver.size_grown]
    omega
  · rw [Solver.valueOf_grown]
    show s.atoms.valuation[s.atoms.valuation.size]?.join = none
    rw [Array.getElem?_eq_none (Nat.le_refl _)]
    rfl

/-- A formula of one unit clause has a model. After two more atoms and a clause of them, the answer is still that there
is a model, in which the new atoms have no value and the new clause is not true. -/
theorem stale_verdict :
    let before := replay default [.ensureAtoms 1, .addClause [⟨1, true⟩], .solve (fun _ => 0) 5]
    let m := before.makeAll [.ensureAtoms 3, .addClause [⟨2, true⟩, ⟨3, true⟩]]
    let t := Solver.after (Solver.solve (fun _ => 0) 5) m.solver
    before.verdicts.map (·.toOption) = [some (some .satisfiable)] ∧
      (Solver.answer (Solver.solve (fun _ => 0) 5) m.solver).toOption = some (some .satisfiable) ∧
      m.log.accepted = [[⟨1, true⟩], [⟨2, true⟩, ⟨3, true⟩]] ∧
      t.atoms.valueOf 2 = none ∧ t.atoms.valueOf 3 = none ∧ t.modelSatisfies m.log.accepted = false := by
  have h1 : Clause.normalise [⟨1, true⟩] = [⟨1, true⟩] := Clause.Ordered.normalise (by decide)
  have h2 : Clause.normalise [⟨2, true⟩, ⟨3, true⟩] = [⟨2, true⟩, ⟨3, true⟩] := Clause.Ordered.normalise (by decide)
  simp only [replay, Session.makeAll, List.foldl, Session.make, Solver.addClause, Solver.defect, h1, h2]
  decide +kernel

end ClauseLearning
