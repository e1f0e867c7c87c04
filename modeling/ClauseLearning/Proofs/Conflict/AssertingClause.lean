import ClauseLearning.Proofs.Rounds
import ClauseLearning.Proofs.Exhaustion

/-!
# The clause of a conflict

A round may come to a conflict at a level above zero (`AtConflict`), and then it goes on with the analysis of the
conflict (`Solver.step_of_reachConflict`). Resolution derives a clause that is false and of which the first literal only
is of the current level (`AssertingClause`). The solver goes back to the highest level of the other literals, and stores
the clause there with its first two literals watched (`LearnedClause`). The only cause for which it does not is that the
clause store has no key for the clause (`asserting_clause_learned`), and then there were as many conflicts as a slot has
tokens (`AtConflict.accounted`).
-/

namespace ClauseLearning

variable {config : Config} {F : List Clause} {s t u : Solver} {key : ClauseKey} {c : Array Literal} {first l : Literal}
  {rest : Clause} {lesson : Lesson} {level : Nat}

/-! ## Rounds that come to a conflict -/

namespace Solver

/-- A round up to the end of propagation. Gives the key of a false clause, if it comes to one. -/
def reachConflict : SolverM (Option ClauseKey) := do
  onCounters fun c => { c with iterations := c.iterations + 1 }
  propagate

/-- Above level zero, a round that comes to a conflict analyses it, and then assigns the literal that was learned. -/
theorem step_of_reachConflict (h : reachConflict s = .ok (some key) t) (hlevel : 0 < t.trail.level) (time : Nat) :
    step time s = (do
      apply (← analyse key)
      return none) t := by
  obtain ⟨_, s1, h1, h2⟩ := bind_ok_iff.mp h
  have hdec : t.trail.isDecided = true := by simpa [Trail.isDecided] using hlevel
  have hget : (get : SolverM Solver) t = .ok t t := rfl
  have hconsequences : consequences s1 = (do return Consequence.learned (← analyse key) : SolverM Consequence) t := by
    rw [consequences, bind_of_ok h2]
    simp only [bind_of_ok hget, hdec, if_true]
  rw [step, bind_of_ok h1]
  simp only [bind, EStateM.bind] at hconsequences ⊢
  rw [hconsequences]
  cases analyse key t <;> rfl

end Solver

/-- A round of a search has come to a conflict at a level above zero: the clause with the key is false. -/
def AtConflict (config : Config) (key : ClauseKey) (t : Solver) : Prop :=
  ∃ s, AtRound config s ∧ Solver.reachConflict s = .ok (some key) t ∧ 0 < t.trail.level

theorem reachConflict_spec (h : Sound F s) :
    Solver.Yields Solver.reachConflict s (fun r t => Sound F t ∧ Spread s t ∧ Propagated t r) fun _ _ => False := by
  simp only [Solver.reachConflict, Solver.yields_bind, Solver.yields_onCounters]
  have hs := Alike.other s { s.counters with iterations := s.counters.iterations + 1 } s.random s.interrupt
  refine (propagate_spec (hs.sound h)).ok_imp ?_
  rintro r t ⟨ht, hspread, hr⟩
  exact ⟨ht, ⟨hs.steady.trans hspread.steady, hspread.starts, hspread.literals, hspread.clauses⟩, hr⟩

theorem AtConflict.sound (h : AtConflict config key t) :
    ∃ F c, Sound F t ∧ 0 < t.trail.level ∧ Conflict t key c := by
  obtain ⟨s, hs, hr, hlevel⟩ := h
  obtain ⟨F, hs, -, -⟩ := hs.sound
  obtain ⟨ht, -, c, hc⟩ := (reachConflict_spec hs).of_ok hr
  exact ⟨F, c, ht, hlevel, hc⟩

/-- The conflicts account for the learned clauses, as the one the round came to is not analysed yet. -/
theorem AtConflict.accounted (h : AtConflict config key t) : Accounted 0 t := by
  obtain ⟨s, ⟨calls, clock, rounds, hsolve⟩, hr, -⟩ := h
  have hkept := Solver.keptByLearning_accounted
  have hreplay : Accounted 0 (replay config calls).solver :=
    (faithful_ofConfig config).accounted_makeAll (accounted_ofConfig config) calls
  have hs : Accounted 0 s := (hkept.solve clock rounds _ hreplay).of_ok hsolve
  have hreach : Solver.Keeps (Accounted 0) Spending Solver.reachConflict := by
    apply Solver.keeps_bind
    · exact hkept.before.onCounters fun _ => rfl
    · intro _
      exact hkept.before.propagate
  exact (hreach s hs).of_ok hr

/-- What propagation comes to at the start of a round, and that a decision is open then. -/
theorem AtConflict.of_answer (hs : AtRound config s)
    (hr : (Solver.answer Solver.reachConflict s).toOption = some (some key))
    (hlevel : 0 < (Solver.after Solver.reachConflict s).trail.level) :
    AtConflict config key (Solver.after Solver.reachConflict s) := by
  obtain ⟨t, ht⟩ := Solver.exists_ok_of_answer hr
  rw [Solver.after, ht] at hlevel ⊢
  exact ⟨s, hs, ht, hlevel⟩

/-! ## A conflict after two decisions -/

/-- Calls that add three atoms and the clauses `1 2 3` and `1 ¬2 3`. -/
def opposedClauses : List Call :=
  [.ensureAtoms 3, .addClause [⟨1, true⟩, ⟨2, true⟩, ⟨3, true⟩], .addClause [⟨1, true⟩, ⟨2, false⟩, ⟨3, true⟩]]

/-- The solver at the conflict to which the second of two decisions leads, `¬1` and `¬3`. -/
def opposed : Solver :=
  Solver.after Solver.reachConflict
    (Solver.after (Solver.solve (fun _ => 0) 2) (replay default opposedClauses).solver)

/-- The clauses are in order already. -/
theorem normalise_opposedClauses :
    Clause.normalise [⟨1, true⟩, ⟨2, true⟩, ⟨3, true⟩] = [⟨1, true⟩, ⟨2, true⟩, ⟨3, true⟩] ∧
      Clause.normalise [⟨1, true⟩, ⟨2, false⟩, ⟨3, true⟩] = [⟨1, true⟩, ⟨2, false⟩, ⟨3, true⟩] :=
  ⟨Clause.Ordered.normalise (by decide), Clause.Ordered.normalise (by decide)⟩

theorem atConflict_opposed : AtConflict default (.given 1) opposed := by
  obtain ⟨h1, h2⟩ := normalise_opposedClauses
  refine AtConflict.of_answer (AtRound.of_answer ?_) ?_ ?_ <;>
    simp only [opposedClauses, replay, Session.makeAll, List.foldl,
      Session.make, Solver.addClause, Solver.defect, h1, h2] <;>
    decide +kernel

/-- Propagation assigned `2` after `¬3`, nothing was learned before, and resolution derives the clause `3 1`. -/
theorem opposed_eq :
    opposed.trail.topLevel = [⟨3, false⟩, ⟨2, true⟩] ∧ opposed.counters.conflicts = 0 ∧
      (opposed.clauses.get (.given 0)).toOption.map (·.clause) = some [⟨2, true⟩, ⟨3, true⟩, ⟨1, true⟩] ∧
      (opposed.resolution.resolve (.given 1) opposed.clauses opposed.atoms opposed.trail).1.toOption =
        some [⟨3, true⟩, ⟨1, true⟩] := by
  obtain ⟨h1, h2⟩ := normalise_opposedClauses
  simp only [opposed, opposedClauses, replay, Session.makeAll,
    List.foldl, Session.make, Solver.addClause, Solver.defect, h1, h2]
  decide +kernel

theorem eq_of_resolve_opposed {buffer : Resolution}
    (h : opposed.resolution.resolve (.given 1) opposed.clauses opposed.atoms opposed.trail =
      (.ok (first :: rest), buffer)) : first = ⟨3, true⟩ ∧ rest = [⟨1, true⟩] := by
  obtain ⟨-, -, -, hresolve⟩ := opposed_eq
  rw [h] at hresolve
  exact List.cons.inj (Option.some.inj hresolve)

/-! ## The derived clause -/

/-- The clause is false, its first literal is the only one of the current level, none is of level
zero, and no atom occurs twice. -/
structure AssertingClause (s : Solver) (first : Literal) (rest : Clause) : Prop where
  falsified : ∀ l ∈ first :: rest, s.atoms.valuation.fails l = true
  level_first : s.atoms.levelOf first.atom = some s.trail.level
  level_rest : ∀ l ∈ rest, ∃ n, s.atoms.levelOf l.atom = some n ∧ 0 < n ∧ n < s.trail.level
  nodup : ((first :: rest).map (·.atom)).Nodup

/-- What the solver comes to from a conflict of which the clause was derived. -/
structure LearnedClause (s : Solver) (first : Literal) (rest : Clause) (lesson : Lesson) (t : Solver) : Prop where
  /-- A clause of one literal is learned as a literal, and any other one under a key. -/
  shape : rest = [] ∧ lesson = .unit first ∨ rest ≠ [] ∧ ∃ key, lesson = .asserting key first
  /-- The clause is stored. -/
  stored : ∃ c, t.clauses.get lesson.key = .ok c ∧ c.clause = first :: rest
  /-- The level is the highest one of the other literals at the conflict. -/
  level : t.trail.level = s.atoms.highestLevel rest
  /-- The first literal has no value. -/
  unvalued : t.atoms.valuation[first.atom]? = some none
  /-- The other literals are still false. -/
  falsified : ∀ l ∈ rest, t.atoms.valuation.fails l = true
  /-- The second literal is of the level gone back to. -/
  second : ∀ l, rest[0]? = some l → t.atoms.levelOf l.atom = some t.trail.level
  /-- Both literals of a clause of two are watched. -/
  binary : ∀ l, rest = [l] →
    ⟨l, lesson.key⟩ ∈ t.watches.binary first ∧ ⟨first, lesson.key⟩ ∈ t.watches.binary l
  /-- The first two literals of a longer clause are watched. -/
  long : ∀ k l more, rest = k :: l :: more → lesson.key ∈ t.watches.long first ∧ lesson.key ∈ t.watches.long k

theorem Derived.assertingClause (h : Derived F s first rest) (hs : Consistent F s) : AssertingClause s first rest where
  falsified l hl := by
    have hlists : s.trail.Lists (-l) := by
      rcases List.mem_cons.mp hl with rfl | hl
      · exact h.lists_first
      · exact h.lists_rest l hl
    exact (hs.agrees.fails_iff (h.known hs l hl).1).mpr hlists
  level_first := h.level_first
  level_rest l hl := by
    obtain ⟨n, hn, hlt⟩ := h.level_rest l hl
    exact ⟨n + 1, hn, Nat.succ_pos n, hlt⟩
  nodup := h.nodup

/-- The level after a clause is learned. -/
theorem Asserts.level_eq (h : Asserts s first rest lesson t) (hd : Derived F s first rest) :
    t.trail.level = s.atoms.highestLevel rest := by
  rw [h.trail, Trail.level_cut]
  have hle : s.atoms.highestLevel rest ≤ s.trail.level := by
    apply AtomTable.highestLevel_le_iff.mpr
    intro l hl
    obtain ⟨n, hn, hlt⟩ := hd.level_rest l hl
    rw [hn]
    exact Nat.le_of_lt hlt
  omega

theorem Asserts.learnedClause (h : Asserts s first rest lesson t) (hd : Derived F s first rest)
    (hp : ∃ d, Pending F t lesson d) : LearnedClause s first rest lesson t := by
  obtain ⟨d, hp⟩ := hp
  have hfind : t.clauses.find lesson.key = some (first :: rest).toArray := by rw [h.find, if_pos rfl]
  obtain rfl : d = (first :: rest).toArray := Option.some.inj (hp.find.symm.trans hfind)
  have hproper := hp.proper hfind
  have hlists : ∀ l ∈ rest, t.trail.Lists (-l) := by
    intro l hl
    refine hp.rest l (by simp [hl]) fun heq => ?_
    have hnodup := hd.nodup
    rw [List.map_cons, List.nodup_cons] at hnodup
    rw [h.literal_eq] at heq
    exact hnodup.1 (List.mem_map.mpr ⟨l, hl, by rw [heq]⟩)
  refine ⟨h.shape, ?_, h.level_eq hd, ?_, fun l hl => ?_, fun l hl => ?_, ?_, ?_⟩
  · obtain ⟨c, hc, hlits⟩ := ClauseStore.find_eq_some_iff.mp hfind
    exact ⟨c, hc, by rw [StoredClause.clause, hlits]⟩
  · have hlt := (hproper.known first (by simp)).2
    have hv := hp.unvalued
    rw [h.literal_eq, AtomTable.valueOf, Valuation.valueOf] at hv
    rw [Array.getElem?_eq_getElem (show first.atom < t.atoms.valuation.size from hlt)] at hv ⊢
    exact congrArg some (by simpa using hv)
  · exact (hp.agrees.fails_iff (hproper.known l (by simp [hl])).1).mpr (hlists l hl)
  · obtain ⟨i, hi⟩ := hlists l (List.mem_of_getElem? hl)
    have htop := hp.second (m := l) (by simpa using hl) hi
    obtain ⟨n, hn, hlev⟩ := hp.agrees.hasLevel hi
    rw [← hlev.unique htop]
    exact hn
  · rintro l rfl
    constructor
    · exact hp.watched.binary.mpr ⟨_, hfind, rfl, Or.inl ⟨rfl, rfl⟩⟩
    · exact hp.watched.binary.mpr ⟨_, hfind, rfl, Or.inr ⟨rfl, rfl⟩⟩
  · rintro k l more rfl
    have hsize : 3 ≤ (first :: k :: l :: more).toArray.size := by simp
    constructor
    · exact hp.watched.mem_long hfind hsize (Or.inl rfl)
    · exact hp.watched.mem_long hfind hsize (Or.inr rfl)

/-! ## Main result -/

/-- Where a round comes to a conflict above level zero, resolution derives an asserting clause. The analysis of the
conflict stores it and goes back to where it asserts its first literal, just if the clause store has a key for it.
Otherwise it fails for lack of a key, which needs as many conflicts as a slot has tokens. -/
theorem asserting_clause_learned (h : AtConflict config key t) :
    ∃ first rest buffer, t.resolution.resolve key t.clauses t.atoms t.trail = (.ok (first :: rest), buffer) ∧
      AssertingClause t first rest ∧
      (∀ lesson u, Solver.analyse key t = .ok lesson u → LearnedClause t first rest lesson u) ∧
      (∀ e u, Solver.analyse key t = .error e u → e = .store .storageExhausted) ∧
      ((∃ lesson u, Solver.analyse key t = .ok lesson u) ↔ ∃ k, t.clauses.freshKey (first :: rest) .learned = .ok k) ∧
      (t.counters.conflicts < ClauseKey.tokenCount → ∃ lesson u, Solver.analyse key t = .ok lesson u) := by
  obtain ⟨F, c, hs, hlevel, hc⟩ := h.sound
  obtain ⟨first, rest, buffer, hres, hd, hlearns⟩ := analyse_asserts hs hlevel hc
  obtain ⟨hok, herror⟩ := Solver.yields_iff.mp hlearns
  have hiff : (∃ lesson u, Solver.analyse key t = .ok lesson u) ↔
      ∃ k, t.clauses.freshKey (first :: rest) .learned = .ok k := by
    constructor
    · rintro ⟨lesson, u, hu⟩
      exact ⟨lesson.key, (hok lesson u hu).2.fresh⟩
    · rintro ⟨k, hk⟩
      cases hr : Solver.analyse key t with
      | ok lesson u => exact ⟨lesson, u, rfl⟩
      | error e u =>
        have hfresh := (herror e u hr).2.2
        rw [hk] at hfresh
        cases hfresh
  refine ⟨first, rest, buffer, hres, hd.assertingClause hs.toConsistent, fun lesson u hu => ?_, fun e u hu => ?_, hiff,
    fun hcount => hiff.mpr ?_⟩
  · obtain ⟨hlearned, hasserts⟩ := hok lesson u hu
    exact hasserts.learnedClause hd hlearned.pending
  · exact (herror e u hu).2.1
  · exact h.accounted.spent.exists_freshKey (List.cons_ne_nil _ _) hcount

/-- The clause `3 1` is derived from `1 ¬2 3` and the antecedent `1 2 3` of `2`, and stored as a
clause of two literals. -/
theorem asserting_clause_learned_opposed : AtConflict default (.given 1) opposed ∧
    AssertingClause opposed ⟨3, true⟩ [⟨1, true⟩] ∧ ∃ lesson u, Solver.analyse (.given 1) opposed = .ok lesson u ∧
      LearnedClause opposed ⟨3, true⟩ [⟨1, true⟩] lesson u := by
  obtain ⟨first, rest, buffer, hres, hclause, hok, -, -, hcount⟩ := asserting_clause_learned atConflict_opposed
  obtain ⟨rfl, rfl⟩ := eq_of_resolve_opposed hres
  obtain ⟨-, hconflicts, -⟩ := opposed_eq
  obtain ⟨lesson, u, hu⟩ := hcount (by rw [hconflicts]; decide)
  exact ⟨atConflict_opposed, hclause, lesson, u, hu, hok lesson u hu⟩

end ClauseLearning
