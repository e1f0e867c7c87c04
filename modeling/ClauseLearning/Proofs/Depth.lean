import ClauseLearning.Proofs.InStep
import ClauseLearning.Proofs.Soundness.Moments

/-!
# How deep the trail gets

Atoms are added up to the largest one and no further, which every operation keeps (`Capped`), the stages of a round
among them (`keeps_stage`). In a solve each level has a literal of its own, and the literals are of distinct atoms. So
at no moment of a history there are more levels than atoms, or more atoms than the largest one tells
(`level_le_maxAtom`): both are counted in 32 bits.
-/

namespace ClauseLearning

variable {s t : Solver} {P : Solver → Prop}

/-- The parts are in step, and no atom is beyond the largest one. -/
structure Capped (s : Solver) : Prop extends InStep s where
  size : s.atoms.size ≤ maxAtom + 1

theorem capped_ofConfig (config : Config) : Capped (.ofConfig config) :=
  ⟨inStep_ofConfig config, Nat.le_add_left 1 maxAtom⟩

/-- What adds no atom keeps the cap. -/
theorem Capped.same (h : Capped s) (ht : InStep t) (hsize : t.atoms.size = s.atoms.size) : Capped t :=
  ⟨ht, Nat.le_trans (Nat.le_of_eq hsize) h.size⟩

namespace Solver

/-! ## Operations keep the cap -/

theorem keptByChanges_capped : KeptByChanges Capped fun _ s => Capped s where
  tracks h := h.tracks
  other h hg ha hw hc ht hn := h.same (keptByChanges_inStep.other h.toInStep hg ha hw hc ht hn) (by rw [ha])
  bumpedAtom x h :=
    h.same (keptByChanges_inStep.bumpedAtom x h.toInStep) (AtomTable.sameValues_bumpRelative _ x).size_eq
  decayedAtoms h :=
    h.same (keptByChanges_inStep.decayedAtoms h.toInStep) (AtomTable.sameValues_decayActivity _).size_eq
  popped h := h.same (keptByChanges_inStep.popped h.toInStep) (AtomTable.sameValues_popUnvalued _ _).size_eq
  assigned {s l} reason h ho :=
    h.same (keptByChanges_inStep.assigned reason h.toInStep ho) (s.steady_assigned l reason).size
  openLevel h := h.same (keptByChanges_inStep.openLevel h.toInStep) rfl
  backjumped {s} level h := h.same (keptByChanges_inStep.backjumped level h.toInStep) (s.steady_backjumped level).size
  propagated h hlt := h.same (keptByChanges_inStep.propagated h.toInStep hlt) rfl
  watches h hw := h.same (keptByChanges_inStep.watches h.toInStep hw) rfl
  inspected h hc hv := h.same (keptByChanges_inStep.inspected h.toInStep hc hv) rfl
  bumped key h := h.same (keptByChanges_inStep.bumped key h.toInStep) rfl
  decayed h := h.same (keptByChanges_inStep.decayed h.toInStep) rfl
  reduced count h := h.same (keptByChanges_inStep.reduced count h.toInStep) rfl
  unreduced count h he := h.same (keptByChanges_inStep.unreduced count h.toInStep he) rfl
  failed h _ := h

theorem keptByLearning_capped : KeptByLearning Capped Capped fun _ s => Capped s where
  before := keptByChanges_capped.toKeptByWork
  after := keptByChanges_capped.toKeptByWork
  stored h hi := h.same (keptByLearning_inStep.stored h.toInStep hi) rfl
  refused h hc hi := h.same (keptByLearning_inStep.refused h.toInStep hc hi) rfl
  noted h hn := h.same (keptByLearning_inStep.noted h.toInStep hn) rfl
  advanced := keptByChanges_capped.advance fun h => h

theorem keptByAdditions_capped : KeptByAdditions Capped where
  work := keptByChanges_capped.toKeptByWork
  grown {s} previous h hroom hd := by
    refine ⟨keptByAdditions_inStep.grown previous h.toInStep hroom hd, ?_⟩
    rw [AtomTable.size_grow]
    exact Nat.succ_le_succ hroom
  inserted c h := h.same (keptByAdditions_inStep.inserted c h.toInStep) rfl

/-! ## The stages of a round -/

/-- What the parts of a solve keep is kept up to any stage of a round. -/
theorem keeps_stage (hL : KeptByLearning P P fun _ s => P s) (stage : Stage) : AlwaysKeeps P stage.run := by
  have hwork := hL.before
  have hbegin : AlwaysKeeps P (onCounters fun c => { c with iterations := c.iterations + 1 }) :=
    hwork.onCounters fun _ => rfl
  have hconsequences : AlwaysKeeps P consequences := fun s h =>
    (hL.consequences h).imp (fun r _ ht => by cases r <;> exact ht) fun _ _ ht => ht
  cases stage with
  | between => exact keeps_pure ()
  | propagated count => exact keeps_bind hbegin fun _ => keeps_discard (hwork.propagateMany count)
  | concluded => exact keeps_bind hbegin fun _ => keeps_discard hconsequences
  | scheduled time =>
    have hreduce : AlwaysKeeps P (do if (← get).reductionDue then reduce) :=
      leads_get fun _ _ => leads_ite hwork.reduce (keeps_pure ())
    refine keeps_bind hbegin fun _ => keeps_bind hconsequences fun r => leads_ite ?_ (keeps_pure ())
    refine keeps_bind (hwork.onCounters fun _ => rfl) fun _ => keeps_bind hwork.terminationDue fun due => ?_
    refine leads_ite (hwork.backjump 0) (leads_get fun _ _ => leads_ite ?_ hreduce)
    exact keeps_bind hwork.restart fun _ => hreduce

end Solver

/-! ## Main result -/

/-- At every moment of a history there are at most as many levels as atoms, and no atom beyond the largest one. -/
theorem level_le_maxAtom (config : Config) (calls : List Call) (stage : Stage) :
    let s := Solver.after stage.run (replay config calls).solver
    s.trail.level ≤ s.atomCount ∧ s.atomCount ≤ maxAtom := by
  intro s
  obtain ⟨operations, hreached⟩ := Solver.reaches_replay config calls
  have hcapped : Capped s := by
    refine (Solver.keeps_stage Solver.keptByLearning_capped stage).holds_after ?_
    rw [← hreached]
    exact Solver.holds_performEach Solver.keptByLearning_capped Solver.keptByAdditions_capped (capped_ofConfig config)
      operations
  have hconsistent := consistent_stage (faithful_replay config calls).sound stage
  have hlevel : s.trail.level ≤ s.trail.literals.size := hconsistent.agrees.layered.level_le
  have hliterals : s.trail.literals.size < s.atoms.size := hconsistent.agrees.size_lt
  have hsize := hcapped.size
  unfold Solver.atomCount
  omega

end ClauseLearning
