import ClauseLearning.Proofs.Building
import ClauseLearning.Proofs.Changes

/-!
# Trail, atom table and watch lists in step

The operations that a caller has at hand (`Operation`) may come in any order, with any arguments, and may fail half-way.
A decision may be made while literals wait for propagation, or fail after its level was opened. Whatever comes of it,
the trail lists what the atom table makes true, at the level of its position, and there are watch lists for each atom
(`InStep`). Each kind of change keeps this (`keptByChanges_inStep`), and what all of them keep is kept by each operation
(`keeps_perform`). So it holds after any operations (`inStep_performEach`), and `trail_and_atoms_agree` says what this
comes to. The calls of a history come to such operations, too (`reaches_replay`).
-/

namespace ClauseLearning

variable {s t : Solver}

/-- The trail lists what the atom table makes true, and there are watch lists for both literals of each atom. -/
structure InStep (s : Solver) : Prop where
  tracks : Tracks s.atoms s.trail
  top_level : s.atoms.levelOf topAtom = some 0
  lists : s.watches.lists.size = 2 * s.atoms.size

theorem inStep_ofConfig (config : Config) : InStep (.ofConfig config) := ⟨tracks_ofConfig config, rfl, rfl⟩

namespace InStep

/-- Other parts of the solver do not matter, and neither does what is on the watch lists. -/
theorem congr (h : InStep s) (ha : t.atoms = s.atoms) (ht : t.trail = s.trail)
    (hw : t.watches.lists.size = s.watches.lists.size) : InStep t :=
  ⟨by rw [ha, ht]; exact h.tracks, by rw [ha]; exact h.top_level, by rw [hw, ha]; exact h.lists⟩

/-- Neither do the activities of atoms. -/
theorem sameValues {atoms : AtomTable} (h : InStep s) (hs : s.atoms.SameValues atoms) : InStep { s with atoms } :=
  ⟨h.tracks.of_sameValues hs, by rw [hs.levelOf_eq]; exact h.top_level, by rw [hs.size_eq]; exact h.lists⟩

/-- A literal whose atom is known and has no value. -/
theorem open_of_isOpen {l : Literal} (h : InStep s) (ho : s.atoms.isOpen l = .ok true) :
    l.atom ≠ topAtom ∧ l.atom < s.atoms.size ∧ s.atoms.valueOf l.atom = none := by
  obtain ⟨hlt, hnone⟩ := AtomTable.isOpen_iff.mp ho
  refine ⟨fun heq => ?_, hlt, hnone⟩
  rw [heq, h.tracks.top] at hnone
  cases hnone

theorem assigned {l : Literal} (h : InStep s) (ho : s.atoms.isOpen l = .ok true) (reason : Option ClauseKey) :
    InStep (s.assigned l reason) := by
  obtain ⟨hl, hk, hv⟩ := h.open_of_isOpen ho
  refine ⟨h.tracks.assign hl hk hv reason, ?_, ?_⟩
  · rw [Solver.assigned, AtomTable.levelOf_value (by rw [h.tracks.aligned.levels]; exact hk), if_neg hl.symm]
    exact h.top_level
  · rw [Solver.assigned, AtomTable.size_value]
    exact h.lists

theorem backjumped (h : InStep s) (level : Nat) : InStep (s.backjumped level) := by
  refine ⟨h.tracks.backjump level, ?_, ?_⟩
  · rw [Solver.backjumped, AtomTable.levelOf_dropAll, if_neg, h.top_level]
    cases hs : s.trail.starts[level]? with
    | none => simp [Trail.above_of_none hs]
    | some start =>
      rw [Tracks.mem_undone hs]
      rintro ⟨i, l, -, hi, heq⟩
      exact h.tracks.ne_top hi heq
  · rw [Solver.backjumped, AtomTable.size_dropAll]
    exact h.lists

theorem grow (h : InStep s) (previous : Bool) :
    InStep { s with atoms := s.atoms.grow previous, watches := s.watches.ensure s.atoms.size } := by
  refine ⟨h.tracks.grow previous, ?_, ?_⟩
  · rw [AtomTable.levelOf_grow]
    exact h.top_level
  · rw [AtomTable.size_grow]
    have := h.lists
    simp only [Watches.ensure, Array.size_append, Array.size_replicate]
    omega

end InStep

/-! ## Operations keep the parts in step -/

namespace Solver

theorem keptByChanges_inStep : KeptByChanges InStep fun _ s => InStep s where
  tracks h := h.tracks
  other h _ ha hw _ ht _ := h.congr ha ht (by rw [hw])
  bumpedAtom x h := h.sameValues (AtomTable.sameValues_bumpRelative _ x)
  decayedAtoms h := h.sameValues (AtomTable.sameValues_decayActivity _)
  popped h := h.sameValues (AtomTable.sameValues_popUnvalued _ _)
  assigned reason h ho := h.assigned ho reason
  openLevel h := ⟨h.tracks.openLevel, h.top_level, h.lists⟩
  backjumped level h := h.backjumped level
  propagated h hlt := ⟨h.tracks.propagated (Array.getElem?_eq_getElem hlt), h.top_level, h.lists⟩
  watches h hw := h.congr rfl rfl hw
  inspected h _ _ := h.congr rfl rfl rfl
  bumped _ h := h.congr rfl rfl rfl
  decayed h := h.congr rfl rfl rfl
  reduced _ h := h.congr rfl rfl rfl
  unreduced _ h _ := h.congr rfl rfl rfl
  failed h _ := h

theorem keptByLearning_inStep : KeptByLearning InStep InStep fun _ s => InStep s where
  before := keptByChanges_inStep.toKeptByWork
  after := keptByChanges_inStep.toKeptByWork
  stored h _ := h.congr rfl rfl rfl
  refused h _ _ := h.congr rfl rfl rfl
  noted h _ := h.congr rfl rfl rfl
  advanced := keptByChanges_inStep.advance fun h => h

theorem keptByAdditions_inStep : KeptByAdditions InStep where
  work := keptByChanges_inStep.toKeptByWork
  grown previous h _ _ := h.grow previous
  inserted _ h := h.congr rfl rfl rfl

/-! ## All operations -/

/-- An operation that a caller has at hand, or a change of what is asked of the caller in a solve. -/
inductive Operation
  /-- Adds an atom. -/
  | freshAtom
  /-- Adds a clause. -/
  | addClause (c : Clause)
  /-- Makes a literal true at the current level. -/
  | assign (l : Literal) (reason : Option ClauseKey)
  /-- Opens a level with a literal. -/
  | decide (l : Literal)
  /-- Propagates what waits for propagation. -/
  | propagate
  /-- Undoes the levels above the given one. -/
  | backjump (level : Nat)
  /-- Learns a clause from the one with a key, which may be any clause or none. -/
  | analyse (key : ClauseKey)
  /-- Undoes all decisions. -/
  | restart
  /-- Reduces the clause store. -/
  | reduce
  /-- Solves in at most so many rounds, with the time that a clock shows at each. -/
  | solve (clock : Nat → Nat) (rounds : Nat)
  /-- Makes the solver ask whether to stop, or not to ask. -/
  | askToStop (interrupt : Option Interrupt)
  /-- Replaces the source of random choices, which may come out in any way. -/
  | reseed (random : Generator)

/-- Performs an operation. -/
def Operation.perform : Operation → SolverM Unit
  | .freshAtom => discard Solver.freshAtom
  | .addClause c => discard (Solver.addClause c)
  | .assign l reason => Solver.assign l reason
  | .decide l => Solver.decide l
  | .propagate => discard Solver.propagate
  | .backjump level => Solver.backjump level
  | .analyse key => discard (Solver.analyse key)
  | .restart => Solver.restart
  | .reduce => Solver.reduce
  | .solve clock rounds => discard (Solver.solve clock rounds)
  | .askToStop interrupt => modify fun s => { s with interrupt }
  | .reseed random => modify fun s => { s with random }

/-- The solver after operations, each performed whether or not those before it failed. -/
def performEach (s : Solver) (operations : List Operation) : Solver :=
  operations.foldl (fun s operation => after operation.perform s) s

/-- What the parts of all operations keep is kept by each operation. -/
theorem keeps_perform {P : Solver → Prop} (hL : KeptByLearning P P fun _ s => P s) (hA : KeptByAdditions P)
    (operation : Operation) : AlwaysKeeps P operation.perform := by
  cases operation with
  | freshAtom => exact keeps_discard hA.freshAtom
  | addClause c => exact keeps_discard (hA.addClause c)
  | assign l reason => exact hA.work.assign l reason
  | decide l => exact hA.work.decide l
  | propagate => exact keeps_discard hA.work.propagate
  | backjump level => exact hA.work.backjump level
  | analyse key => exact keeps_discard (hL.analyse key)
  | restart => exact hA.work.restart
  | reduce => exact hA.work.reduce
  | solve clock rounds => exact keeps_discard (hL.solve clock rounds)
  | askToStop interrupt => exact keeps_modify fun _ h => hA.work.other h rfl rfl rfl rfl rfl rfl
  | reseed random => exact keeps_modify fun _ h => hA.work.other h rfl rfl rfl rfl rfl rfl

/-- And by any operations, whether or not they fail. -/
theorem holds_performEach {P : Solver → Prop} (hL : KeptByLearning P P fun _ s => P s)
    (hA : KeptByAdditions P) (h : P s) (operations : List Operation) : P (s.performEach operations) := by
  induction operations generalizing s with
  | nil => exact h
  | cons operation operations ih => exact ih ((keeps_perform hL hA operation).holds_after h)

/-- Operations lead from one solver to the other. -/
def Reaches (s t : Solver) : Prop := ∃ operations, s.performEach operations = t

theorem Reaches.refl (s : Solver) : Reaches s s := ⟨[], rfl⟩

theorem Reaches.trans {u : Solver} (h : Reaches s t) (h' : Reaches t u) : Reaches s u := by
  obtain ⟨operations, rfl⟩ := h
  obtain ⟨more, rfl⟩ := h'
  exact ⟨operations ++ more, List.foldl_append⟩

theorem reaches_after_perform (operation : Operation) (s : Solver) : Reaches s (after operation.perform s) :=
  ⟨[operation], rfl⟩

/-- New atoms and clauses are added by operations. -/
theorem keptByBuilding_reaches (s : Solver) : KeptByBuilding fun _ t => Reaches s t where
  freshAtom {_ t} h := h.trans (after_discard freshAtom t ▸ reaches_after_perform .freshAtom t)
  addClause {_ t} c h := h.trans (after_discard (addClause c) t ▸ reaches_after_perform (.addClause c) t)

theorem reaches_make (m : Session) (call : Call) : Reaches m.solver (m.make call).solver := by
  cases hb : call.builds with
  | true => exact Session.keeps_of_builds (keptByBuilding_reaches m.solver) hb (.refl m.solver)
  | false =>
    cases call with
    | freshAtom | ensureAtoms | addClause | readDimacs => cases hb
    | askToStop interrupt => exact reaches_after_perform (.askToStop interrupt) m.solver
    | reseed random => exact reaches_after_perform (.reseed random) m.solver
    | solve clock rounds =>
      rw [Session.make, ← after_discard]
      exact reaches_after_perform (.solve clock rounds) m.solver

/-- What a history leads to is led to by operations. -/
theorem reaches_replay (config : Config) (calls : List Call) :
    Reaches (.ofConfig config) (replay config calls).solver := by
  have hall : ∀ m : Session, Reaches m.solver (m.makeAll calls).solver := by
    induction calls with
    | nil => exact fun m => .refl m.solver
    | cons call calls ih => exact fun m => (reaches_make m call).trans (ih (m.make call))
  exact hall (.ofConfig config)

end Solver

namespace InStep

theorem nodup_atoms (h : InStep s) : (s.trail.literals.toList.map (·.atom)).Nodup := h.tracks.nodup_atoms

end InStep

/-- A decision on an atom that is not known fails and leaves a level without literals. -/
example :
    let s := (Solver.ofConfig default).performEach [.decide ⟨7, true⟩]
    s.trail.level = 1 ∧ s.trail.literals = #[] ∧ s.trail.starts = #[0] := by decide +kernel

end ClauseLearning
