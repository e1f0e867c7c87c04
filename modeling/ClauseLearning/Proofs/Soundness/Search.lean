import ClauseLearning.Proofs.Soundness.Analysis
import ClauseLearning.Proofs.Soundness.Decision
import ClauseLearning.Solver.Search

/-!
# The search keeps the invariant

Restarts and reductions keep it (`restart_spec`, `Sound.reduce`), and so does each round of the search (`step_spec`),
which goes on, or ends with an answer that the state bears out (`Answered`). From the round follows the run
(`run_spec`), and from the run what a solve comes to (`solve_spec`).
-/

namespace ClauseLearning

variable {F : List Clause} {s t u : Solver} {lesson : Lesson}

/-! ## Reductions -/

/-- A reduction by a fraction is one by a number, and succeeds. -/
theorem reduceByFraction_eq (h : s.clauses.Keyed) (fraction : Float) : ∃ count, Solver.reduceByFraction fraction s =
    .ok (s.clauses.leastActive s.atoms.reasonOf count).length
      { s with clauses := (s.clauses.reduceBy s.atoms.reasonOf count).2 } := by
  refine ⟨(Float.ofNat (s.clauses.unlocked s.atoms.reasonOf).length * fraction).toUInt64.toNat, Solver.eq_of_yields ?_⟩
  simp only [Solver.reduceByFraction, ClauseStore.reduceByFraction, Solver.yields_bind, Solver.yields_get,
    Solver.yields_onClauses, h.reduceBy_eq, Solver.yields_ofExcept_ok]

/-- A reduction does not remove the antecedent of a literal on the trail. -/
theorem Consistent.find_reduceBy {key : ClauseKey} {c : Array Literal} {i : Nat} {l : Literal} (h : Consistent F s)
    (hr : s.atoms.reasonOf l.atom = some key) (hc : s.clauses.find key = some c) (hforce : Forces s.trail c i l)
    (count : Nat) : (s.clauses.reduceBy s.atoms.reasonOf count).2.find key = some c := by
  rcases (h.keyed.reduceBy s.atoms.reasonOf count).2 key with he | ⟨-, ⟨_, _, hk⟩, hunlocked⟩
  · exact he.trans hc
  · have h3 : 3 ≤ c.size := by
      have := (h.proper hc).fits
      rwa [hk] at this
    rcases hforce.watched h3 with h0 | h1
    · exact absurd hr (hunlocked c hc 0 l (by omega) h0)
    · exact absurd hr (hunlocked c hc 1 l (by omega) h1)

/-- A reduction keeps the invariant, as it removes neither antecedents nor clauses of the formula. -/
theorem Sound.reduce (h : Sound F s) (count : Nat) :
    Sound F { s with clauses := (s.clauses.reduceBy s.atoms.reasonOf count).2 } := by
  obtain ⟨hl, hf⟩ := h.keyed.reduceBy s.atoms.reasonOf count
  have hkeep : ∀ {i l key c}, s.atoms.reasonOf l.atom = some key → s.clauses.find key = some c →
      Forces s.trail c i l → (s.clauses.reduceBy s.atoms.reasonOf count).2.find key = some c :=
    fun hr hc hforce => h.find_reduceBy hr hc hforce count
  generalize (s.clauses.reduceBy s.atoms.reasonOf count).2 = store at hl hf hkeep
  have hback : ∀ {k c}, store.find k = some c → s.clauses.find k = some c := by
    intro k c hc
    rcases hf k with he | ⟨he, -⟩
    · rwa [he] at hc
    · rw [he] at hc
      cases hc
  have hlong : ∀ k, store.find k = s.clauses.find k ∨
      store.find k = none ∧ ∀ c, s.clauses.find k = some c → 3 ≤ c.size := fun k =>
    (hf k).imp_right fun ⟨he, ⟨_, _, hk⟩, _⟩ => ⟨he, fun c hc => by
      have := (h.proper hc).fits
      rwa [hk] at this⟩
  refine ⟨⟨h.agrees, hl.keyed, fun hc => h.proper (hback hc), h.watched.reduce hl hlong, fun {i l} hi => ?_,
    fun hc => h.entailed (hback hc), fun d hd => ?_, h.refuted, h.clean⟩, fun hc => h.guarded (hback hc)⟩
  · rcases h.justified hi with hdec | ⟨key, c, hr, hc, hforce⟩
    · exact Or.inl hdec
    · exact Or.inr ⟨key, c, hr, hkeep hr hc hforce, hforce⟩
  · rcases h.covered d hd with ht | ⟨key, e, hk, he, hsub⟩ | hs
    · exact Or.inl ht
    · rcases hf key with he' | ⟨-, ⟨_, _, hg⟩, -⟩
      · exact Or.inr (Or.inl ⟨key, e, hk, he'.trans he, hsub⟩)
      · rw [hg] at hk
        cases hk
    · exact Or.inr (Or.inr hs)

/-! ## Before a decision -/

/-- The solver is sound, and nothing waits for propagation. -/
structure Quiet (F : List Clause) (s t : Solver) : Prop where
  sound : Sound F t
  steady : Steady s t
  exhausted : t.trail.head = t.trail.literals.size

theorem Quiet.alike (h : Quiet F s t) (hu : Alike t u) : Quiet F s u :=
  ⟨hu.sound h.sound, h.steady.trans hu.steady, by rw [hu.trail]; exact h.exhausted⟩

theorem Quiet.backjump (h : Quiet F s t) (level : Nat) : Quiet F s (t.backjumped level) :=
  ⟨h.sound.backjump level, h.steady.trans (t.steady_backjumped level), h.sound.exhausted_backjump h.exhausted level⟩

/-- The limit for restarts and the place in the Luby sequence after it, where the geometric
policy gives the given limit. -/
def Config.schedule (c : Config) (geometric : Float) (luby : Luby) : Float × Luby :=
  match c.restartPolicy.value with
  | .geometric => (geometric, luby)
  | .luby =>
    let (element, luby) := luby.next.getD (1, luby)
    (Float.ofNat c.lubyUnit.value * Float.ofNat element, luby)

theorem yields_scheduleRestart (geometric : Float) {ok : Unit → Solver → Prop} {err : Error → Solver → Prop} :
    Solver.Yields (Solver.scheduleRestart geometric) s ok err ↔ ok () { s with counters := { s.counters with
      restartLimit := (s.config.schedule geometric s.counters.luby).1
      luby := (s.config.schedule geometric s.counters.luby).2 } } := by
  simp only [Solver.scheduleRestart, Solver.yields_bind, Solver.yields_get, Config.schedule]
  cases s.config.restartPolicy.value with
  | geometric => exact Iff.rfl
  | luby => exact Iff.rfl

theorem scheduleRestart_spec (geometric : Float) :
    Solver.Yields (Solver.scheduleRestart geometric) s (fun _ t => Alike s t) fun _ _ => False :=
  (yields_scheduleRestart geometric).mpr (Alike.other s _ _ _)

theorem restart_spec (h : Quiet F s t) :
    Solver.Yields Solver.restart t (fun _ u => Quiet F s u) fun _ _ => False := by
  simp only [Solver.restart, Solver.yields_bind, Solver.yields_backjump h.sound.agrees, Solver.yields_onCounters,
    Solver.yields_get]
  exact (scheduleRestart_spec _).ok_imp fun _ u hu => ((h.backjump 0).alike (Alike.other _ _ _ _)).alike hu

theorem reduce_spec (h : Quiet F s t) :
    Solver.Yields Solver.reduce t (fun _ u => Quiet F s u) fun _ _ => False := by
  obtain ⟨count, hr⟩ := reduceByFraction_eq h.sound.keyed t.config.reductionFraction.value
  simp only [Solver.reduce, Solver.yields_bind, Solver.yields_get, Solver.Yields.of_eq hr]
  refine Solver.yields_onCounters.mpr (Quiet.alike ⟨h.sound.reduce count, ?_, h.exhausted⟩ (Alike.other _ _ _ _))
  exact ⟨h.steady.config, h.steady.status, h.steady.size⟩

theorem yields_terminationDue :
    Solver.Yields Solver.terminationDue s (fun _ t => Alike s t) fun _ _ => False := by
  simp only [Solver.terminationDue, Solver.yields_bind, Solver.yields_get]
  split
  · exact Alike.refl s
  · split
    · exact Alike.refl s
    · simp only [Solver.askInterrupt, Solver.yields_bind, Solver.yields_get]
      cases s.interrupt with
      | none => exact Alike.refl s
      | some i => exact Alike.other s _ _ _

/-! ## Rounds -/

/-- The answer is borne out by the state. -/
def Answered (t : Solver) : Report → Prop
  | .unknown => t.status = .solving
  | .satisfiable => t.status = .satisfiable ∧ Complete t
  | .unsatisfiable => t.status = .unsatisfiable

/-- What some rounds of the search come to: either it goes on, or there is an answer. -/
def Searched (F : List Clause) (s : Solver) : Option Report → Solver → Prop
  | none, t => Sound F t ∧ Steady s t
  | some report, t => Sound F t ∧ t.config = s.config ∧ t.atoms.size = s.atoms.size ∧ Answered t report

theorem Searched.trans {r : Option Report} (h : Searched F t r u) (hs : Steady s t) : Searched F s r u := by
  cases r with
  | none => exact ⟨h.1, hs.trans h.2⟩
  | some report =>
    obtain ⟨h1, h2, h3, h4⟩ := h
    exact ⟨h1, h2.trans hs.config, h3.trans hs.size, h4⟩

/-- The end of a search, at the given time, changes a counter only. -/
theorem Answered.alike {report : Report} (h : Answered t report) (counters : Counters) :
    Answered { t with counters } report := by
  cases report with
  | unknown => exact h
  | satisfiable => exact ⟨h.1, h.2.valued, h.2.exhausted⟩
  | unsatisfiable => exact h

theorem finish_spec {err : Error → Solver → Prop} (h : Sound F t) (hconfig : t.config = s.config)
    (hsize : t.atoms.size = s.atoms.size) (time : Nat) (ha : Answered t t.report) :
    Solver.Yields (do return some (← Solver.finish time)) t (Searched F s) err := by
  simp only [Solver.finish, Solver.yields_bind, Solver.yields_onCounters, Solver.yields_get, Solver.yields_pure]
  exact ⟨(Alike.other t _ _ _).sound h, hconfig, hsize, ha.alike _⟩

/-- Where nothing is due any more, the search decides on a literal or ends. -/
theorem decideNext_spec (h : Quiet F s t) (hs : s.status = .solving) (time : Nat) :
    Solver.Yields (do
      match ← Solver.chooseLiteral with
      | some l =>
        Solver.decide l
        return none
      | none => return some (← Solver.finish time)) t (Searched F s) (Failed F s) := by
  have hts : t.status ≠ .unsatisfiable := by rw [h.steady.status, hs]; simp
  rw [Solver.yields_bind]
  refine (chooseLiteral_spec h.sound h.exhausted hts).imp (fun r u hu => ?_) fun e u hu => hu.trans h.steady
  cases r with
  | some l =>
    obtain ⟨hu, hne, hlt, hval⟩ := hu
    have hq := h.alike hu
    rw [Solver.yields_bind, Solver.yields_decide hq.sound.agrees.aligned hval hlt]
    exact Solver.yields_pure.mpr ⟨hq.sound.decide hval hlt hne hq.exhausted, hq.steady.trans (u.steady_decided l)⟩
  | none =>
    obtain ⟨hu, hcomplete, hsat, hconfig, hsize⟩ := hu
    refine finish_spec hu (hconfig.trans h.steady.config) (hsize.trans h.steady.size) time ?_
    rw [Solver.report, hsat]
    exact ⟨hsat, hcomplete⟩

theorem advance_spec (h : Quiet F s t) (hs : s.status = .solving) (time : Nat) :
    Solver.Yields (Solver.advance time) t (Searched F s) (Failed F s) := by
  simp only [Solver.advance, Solver.yields_bind, Solver.yields_onCounters]
  have h0 := h.alike (Alike.other t { t.counters with time } t.random t.interrupt)
  refine yields_terminationDue.ok_imp fun due u hu => ?_
  have h1 := h0.alike hu
  cases due with
  | true =>
    have hj := h1.backjump 0
    simp only [if_true, Solver.yields_bind, Solver.yields_backjump h1.sound.agrees]
    exact Solver.yields_pure.mpr ⟨hj.sound, hj.steady.config, hj.steady.size, hj.steady.status.trans hs⟩
  | false =>
    -- a restart and a reduction, made or not, leave a quiet solver
    have hreduce : ∀ {v}, Quiet F s v → Solver.Yields (do
        if (← get).reductionDue then Solver.reduce
        match ← Solver.chooseLiteral with
        | some l =>
          Solver.decide l
          return none
        | none => return some (← Solver.finish time)) v (Searched F s) (Failed F s) := by
      intro v hv
      simp only [Solver.yields_bind, Solver.yields_get]
      split
      · exact Solver.yields_bind.mpr ((reduce_spec hv).ok_imp fun _ w hw => decideNext_spec hw hs time)
      · exact decideNext_spec hv hs time
    simp only [Bool.false_eq_true, if_false, Solver.yields_bind, Solver.yields_get]
    split
    · exact Solver.yields_bind.mpr ((restart_spec h1).ok_imp fun _ v hv => hreduce hv)
    · exact hreduce h1

/-- What the assignment of a learned literal comes to: a conflict is counted. -/
structure Applied (F : List Clause) (s t : Solver) : Prop where
  sound : Sound F t
  steady : Steady s t
  clauses : s.clauses.SameClauses t.clauses
  counters : t.counters = { s.counters with
    conflicts := s.counters.conflicts + 1
    freshConflicts := min (s.counters.freshConflicts + 1) maxCount }

/-- After the literal that was learned is assigned, the search goes on. -/
theorem apply_spec {c : Array Literal} (h : Pending F s lesson c) :
    Solver.Yields (Solver.apply lesson) s (fun _ t => Applied F s t) fun _ _ => False := by
  have hmem : lesson.literal ∈ c := Array.mem_of_getElem? h.first
  have hopen := Solver.isOpen_of_valueOf h.unvalued ((h.proper h.find).known _ hmem).2
  have hassigned := h.assign
  have hsteady := s.steady_assigned lesson.literal (some lesson.key)
  -- what follows the assignment changes activities and counters
  have hafter : ∀ {t}, Sound F t → Steady s t → t.clauses = s.clauses → t.counters = s.counters → Solver.Yields (do
      Solver.noteConflict
      Solver.onAtoms AtomM.decayActivity
      Solver.onClauses fun clauses => ((), clauses.decayActivity)) t (fun _ u => Applied F s u) fun _ _ => False := by
    intro t ht hst hclauses hcounters
    simp only [Solver.noteConflict, Solver.yields_bind, Solver.yields_onCounters, Solver.yields_onAtoms,
      AtomM.decayActivity_eq ht.agrees.aligned, Solver.yields_onClauses]
    have halike : Alike t { t with
        counters := { t.counters with
          conflicts := t.counters.conflicts + 1
          freshConflicts := min (t.counters.freshConflicts + 1) maxCount }
        atoms := t.atoms.decayActivity
        clauses := t.clauses.decayActivity } :=
      ⟨rfl, rfl, rfl, rfl, AtomTable.sameValues_decayActivity _, ClauseStore.sameClauses_decayActivity _, id⟩
    exact ⟨halike.sound ht, hst.trans halike.steady, hclauses ▸ halike.clauses, by rw [hcounters]⟩
  cases lesson with
  | unit l =>
    rw [Solver.apply, Solver.yields_bind]
    exact (Solver.yields_assign h.agrees.aligned hopen).mpr (hafter hassigned hsteady rfl rfl)
  | asserting key l =>
    rw [Solver.apply, Solver.yields_bind]
    exact (Solver.yields_assign h.agrees.aligned hopen).mpr (hafter hassigned hsteady rfl rfl)

/-- A round goes on, or ends with an answer that the state bears out; it fails for no other cause than those of
`Failed`. -/
theorem step_spec (h : Sound F s) (hs : s.status = .solving) (time : Nat) :
    Solver.Yields (Solver.step time) s (Searched F s) (Failed F s) := by
  simp only [Solver.step, Solver.yields_bind, Solver.yields_onCounters]
  obtain ⟨t, ht⟩ :
      ∃ t : Solver, t = { s with counters := { s.counters with iterations := s.counters.iterations + 1 } } :=
    ⟨_, rfl⟩
  have hst : Alike s t := by rw [ht]; exact Alike.other s _ _ _
  rw [← ht]
  refine (consequences_spec (hst.sound h)).imp (fun r u hu => ?_) fun e u hu => hu.trans hst.steady
  cases r with
  | exhausted =>
    obtain ⟨hu, hsu, hh⟩ := hu
    exact advance_spec ⟨hu, hst.steady.trans hsu.steady, hh⟩ hs time
  | learned lesson =>
    obtain ⟨⟨c, hc⟩, hsu, -⟩ := hu
    refine Solver.yields_bind.mpr ((apply_spec hc).ok_imp fun _ v hv => Solver.yields_pure.mpr ⟨hv.sound, ?_⟩)
    exact (hst.steady.trans hsu).trans hv.steady
  | fundamentalConflict =>
    obtain ⟨hu, hconfig, hsize, hunsat⟩ := hu
    refine finish_spec hu (hconfig.trans hst.config) (hsize.trans hst.steady.size) time ?_
    rw [Solver.report, hunsat]
    exact hunsat

/-- Any number of rounds come to what one round comes to. -/
theorem run_spec (h : Sound F s) (hs : s.status = .solving) (clock : Nat → Nat) (rounds i : Nat) :
    Solver.Yields (Solver.run clock rounds i) s (Searched F s) (Failed F s) := by
  induction rounds generalizing s i with
  | zero => exact Solver.yields_pure.mpr ⟨h, Steady.refl s⟩
  | succ rounds ih =>
    rw [Solver.run, Solver.yields_bind]
    refine (step_spec h hs (clock i)).imp (fun r t ht => ?_) fun e t ht => ht
    cases r with
    | some report => exact Solver.yields_pure.mpr ht
    | none =>
      obtain ⟨ht, hst⟩ := ht
      exact (ih ht (hst.status.trans hs) (i + 1)).imp (fun r u hu => hu.trans hst) fun e u hu => hu.trans hst

/-! ## Solves -/

/-- What a solve of at most so many rounds comes to: the answer, if there is one, is that of the status, and a model
that was not known before is complete. -/
structure Solved (F : List Clause) (s : Solver) (r : Option Report) (t : Solver) : Prop where
  sound : Sound F t
  config : t.config = s.config
  size : t.atoms.size = s.atoms.size
  answer : ∀ report, r = some report → t.report = report
  complete : t.status = .satisfiable → r = some .satisfiable ∧ (t = s ∨ Complete t)

/-- What a solve that fails comes to. -/
structure Stopped (F : List Clause) (s : Solver) (e : Error) (t : Solver) : Prop where
  sound : Sound F t
  config : t.config = s.config
  size : t.atoms.size = s.atoms.size
  status : t.status = .solving
  cause : e = .store .storageExhausted ∨ e = .breach .invalidProbability ∧ ¬s.config.Biased

theorem Answered.report_eq {report : Report} (h : Answered t report) : t.report = report := by
  cases report with
  | unknown => rw [Solver.report, show t.status = .solving from h]; rfl
  | satisfiable => rw [Solver.report, h.1]; rfl
  | unsatisfiable => rw [Solver.report, show t.status = .unsatisfiable from h]; rfl

theorem Answered.complete {report : Report} (h : Answered t report) (hs : t.status = .satisfiable) : Complete t := by
  cases report with
  | unknown => cases hs.symm.trans h
  | satisfiable => exact h.2
  | unsatisfiable => cases hs.symm.trans h

/-- How a solve begins: with rounds, unless the formula is settled. -/
def Begun (F : List Clause) (s : Solver) : Option Report → Solver → Prop
  | none, t => Sound F t ∧ t.config = s.config ∧ t.atoms.size = s.atoms.size ∧ t.status = .solving
  | some report, t => t = s ∧ report = s.report

theorem initReductionLimit_spec (h : Sound F t) (hc : t.config = s.config) (hn : t.atoms.size = s.atoms.size)
    (hs : t.status = .solving) :
    Solver.Yields (do
      if (← get).counters.reductionLimit = 0 then Solver.initReductionLimit
      return none) t (Begun F s) fun _ _ => False := by
  simp only [Solver.initReductionLimit, Solver.yields_bind, Solver.yields_get]
  split
  · exact ⟨(Alike.other t _ _ _).sound h, hc, hn, hs⟩
  · exact ⟨h, hc, hn, hs⟩

theorem start_spec (h : Sound F s) : Solver.Yields Solver.start s (Begun F s) fun _ _ => False := by
  have hbegin (hs : s.status ≠ .unsatisfiable) : Solver.Yields (do
      modify fun s => { s with status := .solving }
      if (← get).counters.restartLimit == 0 then Solver.initRestartLimit
      if (← get).counters.reductionLimit = 0 then Solver.initReductionLimit
      return none) s (Begun F s) fun _ _ => False := by
    have h0 : Sound F { s with status := .solving } := h.withStatus hs (by simp)
    simp only [Solver.yields_bind, Solver.yields_modify, Solver.yields_get]
    split
    · simp only [Solver.initRestartLimit, Solver.yields_bind, Solver.yields_get]
      refine (scheduleRestart_spec _).ok_imp fun _ t ht => ?_
      exact initReductionLimit_spec (ht.sound h0) ht.config ht.steady.size ht.status
    · exact initReductionLimit_spec h0 rfl rfl rfl
  simp only [Solver.start, Solver.yields_bind, Solver.yields_get]
  cases hs : s.status with
  | satisfiable => exact ⟨rfl, rfl⟩
  | unsatisfiable => exact ⟨rfl, rfl⟩
  | configuration => exact hbegin (by simp [hs])
  | input => exact hbegin (by simp [hs])
  | solving => exact hbegin (by simp [hs])

theorem solve_spec (h : Sound F s) (clock : Nat → Nat) (rounds : Nat) :
    Solver.Yields (Solver.solve clock rounds) s (Solved F s) (Stopped F s) := by
  rw [Solver.solve, Solver.yields_bind]
  refine (start_spec h).ok_imp fun r t ht => ?_
  cases r with
  | some report =>
    obtain ⟨rfl, rfl⟩ := ht
    refine Solver.yields_pure.mpr ⟨h, rfl, rfl, fun _ hr => Option.some.inj hr, fun hs => ⟨?_, Or.inl rfl⟩⟩
    exact congrArg (fun status => some status.report) hs
  | none =>
    obtain ⟨ht, hconfig, hsize, hstatus⟩ := ht
    refine (run_spec ht hstatus clock rounds 0).imp (fun r u hu => ?_) fun e u hu => ?_
    · cases r with
      | none =>
        obtain ⟨hu, hsteady⟩ := hu
        refine ⟨hu, hsteady.config.trans hconfig, hsteady.size.trans hsize, fun _ hr => (by cases hr), fun hs => ?_⟩
        cases hs.symm.trans (hsteady.status.trans hstatus)
      | some report =>
        obtain ⟨hu, huc, hus, ha⟩ := hu
        refine ⟨hu, huc.trans hconfig, hus.trans hsize, fun _ hr => ?_, fun hs => ⟨?_, Or.inr (ha.complete hs)⟩⟩
        · rw [← Option.some.inj hr]
          exact ha.report_eq
        · rw [← ha.report_eq, Solver.report, hs]
          rfl
    · refine ⟨hu.sound, hu.steady.config.trans hconfig, hu.steady.size.trans hsize, hu.steady.status.trans hstatus, ?_⟩
      rw [← hconfig]
      exact hu.cause

end ClauseLearning
