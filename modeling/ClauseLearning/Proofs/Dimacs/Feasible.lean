import ClauseLearning.Proofs.Building
import ClauseLearning.Proofs.Formula.Commutation

/-!
# Scripts that can be performed

A script can be performed if it does not stop with an error, asks for no more atoms than there can be, and adds
clauses of the atoms that there are by then (`Feasible`). If a script was performed it is feasible
(`feasible_of_performAll`), and a feasible one is performed unless no key is left for a clause (`performAll_spec`). It
may as well ask for all atoms first and then add the clauses, in order: the solver is the same in the end, and the
clauses are answered in the same way (`Normal`).
-/

namespace ClauseLearning

variable {F : List Clause} {s t u : Solver} {c : Clause} {n : Nat}

/-- No decision is open, and atoms can be added up to the largest one. -/
structure Ready (s : Solver) : Prop where
  sound : ∃ F, Sound F s
  bias : IsProbability s.config.polarityBias.value
  undecided : s.trail.isDecided = false
  room : s.atomCount ≤ maxAtom

theorem ready_ofConfig {config : Config} (h : IsProbability config.polarityBias.value) : Ready (.ofConfig config) :=
  ⟨⟨[], sound_ofConfig config⟩, h, rfl, Nat.zero_le _⟩

/-! ## The number of clauses -/

/-- What is stored is at most one clause of the formula more. -/
theorem ClauseStore.givenCount_place (store : ClauseStore) (key : ClauseKey) (d : Clause) :
    (store.place key d).givenCount ≤ store.givenCount + 1 := by
  have hinsert : ∀ l, (store.givenUnits.insert l).size ≤ store.givenUnits.size + 1 := fun l =>
    Std.TreeSet.size_insert_le
  cases key with
  | givenUnit l =>
    have := hinsert l
    simp only [place, givenCount]
    omega
  | givenBinary slot =>
    simp only [place, givenCount, Array.size_push]
    omega
  | given slot =>
    simp only [place, givenCount, Array.size_push]
    omega
  | _ =>
    simp only [place, givenCount]
    omega

/-! ## One action -/

namespace Dimacs

theorem ensureAtoms_ready (h : Ready s) (hr : Solver.ensureAtoms n s = .ok () t) :
    Ready t ∧ t.atomCount = max s.atomCount n ∧ t.clauses = s.clauses := by
  obtain ⟨F, hs⟩ := h.sound
  obtain ⟨hgrown, hcount⟩ := (ensureAtoms_spec hs n).of_ok hr
  have hn := (exists_ensureAtoms_iff hs h.bias h.room).mp ⟨t, hr⟩
  obtain ⟨htrail, hclauses⟩ := Solver.addAtoms_leaves hs.agrees.aligned hr
  refine ⟨⟨⟨F, hgrown.sound⟩, ?_, ?_, ?_⟩, hcount, hclauses⟩
  · rw [hgrown.config]
    exact h.bias
  · rw [htrail]
    exact h.undecided
  · rw [hcount]
    exact Nat.max_le.mpr ⟨h.room, hn⟩

/-- The answers to a clause after which a reader goes on. -/
inductive Passes : Except Error Addition → Prop
  | added (r : Addition) : Passes (.ok r)
  | tautology : Passes (.error (.clause .tautology))

theorem perform_of_added {r : Addition} (hr : Solver.addClause c s = .ok r u) :
    Action.perform (.addClause c) s = .ok () u := by
  apply Solver.eq_of_yields
  rw [Action.perform, Solver.yields_tryCatch, Solver.yields_discard, Solver.Yields, hr]

theorem perform_of_refused {e : Error} (hr : Solver.addClause c s = .error e u) :
    Action.perform (.addClause c) s = if e = .clause .tautology then .ok () u else .error e u := by
  apply Solver.eq_of_yields
  rw [Action.perform, Solver.yields_tryCatch, Solver.yields_discard, Solver.Yields, hr]
  dsimp only
  split
  · exact if_pos rfl
  · rename_i htautology
    exact if_neg htautology

/-- A reader goes on after these answers and no others. -/
theorem perform_addClause_ok_iff : Action.perform (.addClause c) s = .ok () t ↔
    Passes (Solver.answer (Solver.addClause c) s) ∧ t = Solver.after (Solver.addClause c) s := by
  unfold Solver.answer Solver.after
  cases hr : Solver.addClause c s with
  | ok r u =>
    rw [perform_of_added hr]
    constructor
    · rintro ⟨⟩
      exact ⟨.added r, rfl⟩
    · rintro ⟨-, rfl⟩
      rfl
  | error e u =>
    rw [perform_of_refused hr]
    split
    · rename_i htautology
      constructor
      · rintro ⟨⟩
        exact ⟨htautology ▸ .tautology, rfl⟩
      · rintro ⟨-, rfl⟩
        rfl
    · rename_i htautology
      constructor
      · rintro ⟨⟩
      · rintro ⟨⟨⟩, -⟩
        exact absurd rfl htautology

/-- What an addition by a reader comes to. -/
structure Added (s : Solver) (c : Clause) (t : Solver) : Prop where
  known : ∀ l ∈ c, s.Knows l
  ready : Ready t
  atomCount : t.atomCount = s.atomCount
  count : t.clauses.givenCount ≤ s.clauses.givenCount + 1

theorem added_of_adds {r : Addition} (h : Ready s) (hr : Solver.addClause c s = .ok r t) : Added s c t := by
  obtain ⟨F, hs⟩ := h.sound
  obtain ⟨haccepts, hadds⟩ := adds_of_addClause hs.toConsistent hr
  have hbuilt := (addClause_spec hs c).of_ok hr
  have hsize : t.atomCount = s.atomCount := by
    rw [show t = Solver.after (Solver.addClause c) s by rw [Solver.after, hr],
      Solver.atomCount, (addClause_undrawn hs c).2.1]
    rfl
  refine ⟨haccepts.known, ⟨⟨_, hbuilt.sound⟩, ?_, ?_, hsize ▸ h.room⟩, hsize, ?_⟩
  · rw [hbuilt.config]
    exact h.bias
  · cases hadds <;> exact h.undecided
  · cases hadds with
    | unit _ => exact s.clauses.givenCount_place _ _
    | longer _ _ => exact s.clauses.givenCount_place _ _
    | _ => exact Nat.le_succ _

theorem added_of_tautology (h : Ready s) (hr : Solver.addClause c s = .error (.clause .tautology) t) : Added s c t := by
  obtain ⟨F, hs⟩ := h.sound
  rcases refuses_of_addClause hs.toConsistent hr with ⟨hrefuses, rfl⟩ | ⟨he, -⟩
  · cases hrefuses with
    | tautology _ hknown _ _ => exact ⟨hknown, h, rfl, Nat.le_succ _⟩
  · cases he

/-- A reader adds a clause of known literals, unless there is no key for it, and no other clause. -/
theorem perform_addClause_spec (h : Ready s) (c : Clause) :
    Solver.Yields (Action.perform (.addClause c)) s (fun _ t => Added s c t) fun e _ => (∀ l ∈ c, s.Knows l) →
      e = .store .storageExhausted ∧ ClauseKey.slotCount ≤ s.clauses.givenCount := by
  rw [Action.perform, Solver.yields_tryCatch, Solver.yields_discard, Solver.yields_iff]
  refine ⟨fun r t hr => added_of_adds h hr, fun e t hr => ?_⟩
  split
  · exact Solver.yields_pure.mpr (added_of_tautology h hr)
  · rename_i htautology
    intro hknown
    obtain ⟨F, hs⟩ := h.sound
    rcases refuses_of_addClause hs.toConsistent hr with ⟨hrefuses, -⟩ | ⟨he, hcount, -⟩
    · cases hrefuses with
      | decided hdec => cases h.undecided.symm.trans hdec
      | unknown _ hc _ hl => exact absurd (hknown _ (by rw [hc]; simp)) hl
      | tautology _ _ _ _ => exact absurd rfl htautology
    · exact ⟨he, hcount⟩

/-! ## Scripts -/

/-- The clauses that actions add. -/
def clausesOf (actions : List Action) : List Clause := actions.filterMap fun
  | .addClause c => some c
  | .ensureAtoms _ | .fail _ => none

/-- The number of atoms after actions, from the number before. -/
def atomsAfter (n : Nat) : List Action → Nat
  | [] => n
  | .ensureAtoms count :: actions => atomsAfter (max n count) actions
  | .addClause _ :: actions | .fail _ :: actions => atomsAfter n actions

/-- From a number of atoms on, the actions do not fail for want of atoms, and there is none that only fails. -/
def Feasible (n : Nat) : List Action → Prop
  | [] => True
  | .ensureAtoms count :: actions => count ≤ maxAtom ∧ Feasible (max n count) actions
  | .addClause c :: actions => (∀ l ∈ c, 1 ≤ l.atom ∧ l.atom ≤ n) ∧ Feasible n actions
  | .fail _ :: _ => False

variable {actions more : List Action}

theorem clausesOf_append (actions more : List Action) :
    clausesOf (actions ++ more) = clausesOf actions ++ clausesOf more :=
  List.filterMap_append

theorem le_atomsAfter (n : Nat) (actions : List Action) : n ≤ atomsAfter n actions := by
  induction actions generalizing n with
  | nil => exact Nat.le_refl n
  | cons action actions ih =>
    cases action with
    | ensureAtoms count => exact Nat.le_trans (Nat.le_max_left n count) (ih _)
    | addClause c => exact ih n
    | fail e => exact ih n

theorem atomsAfter_append (n : Nat) (actions more : List Action) :
    atomsAfter n (actions ++ more) = atomsAfter (atomsAfter n actions) more := by
  induction actions generalizing n with
  | nil => rfl
  | cons action actions ih => cases action <;> exact ih _

theorem feasible_append : Feasible n (actions ++ more) ↔ Feasible n actions ∧ Feasible (atomsAfter n actions) more := by
  induction actions generalizing n with
  | nil => simp [Feasible, atomsAfter]
  | cons action actions ih => cases action <;> simp [Feasible, atomsAfter, ih, and_assoc]

/-- Feasible actions come to as many atoms as there can be at most. -/
theorem Feasible.atomsAfter_le (h : Feasible n actions) (hn : n ≤ maxAtom) : atomsAfter n actions ≤ maxAtom := by
  induction actions generalizing n with
  | nil => exact hn
  | cons action actions ih =>
    cases action with
    | ensureAtoms count => exact ih h.2 (Nat.max_le.mpr ⟨hn, h.1⟩)
    | addClause c => exact ih h.2 hn
    | fail e => exact h.elim

theorem atomsAfter_le {m : Nat} (h : ∀ count, .ensureAtoms count ∈ actions → count ≤ m) (hn : n ≤ m) :
    atomsAfter n actions ≤ m := by
  induction actions generalizing n with
  | nil => exact hn
  | cons action actions ih =>
    have hrest : ∀ count, .ensureAtoms count ∈ actions → count ≤ m :=
      fun count hmem => h count (List.mem_cons_of_mem _ hmem)
    cases action with
    | ensureAtoms count => exact ih hrest (Nat.max_le.mpr ⟨hn, h count List.mem_cons_self⟩)
    | addClause c => exact ih hrest hn
    | fail e => exact ih hrest hn

/-- The atoms of clauses that can be added are there in the end. -/
theorem Feasible.le_atomsAfter (h : Feasible n actions) (hc : c ∈ clausesOf actions) {l : Literal} (hl : l ∈ c) :
    l.atom ≤ atomsAfter n actions := by
  induction actions generalizing n with
  | nil => cases hc
  | cons action actions ih =>
    cases action with
    | ensureAtoms count => exact ih h.2 hc
    | addClause d =>
      rcases List.mem_cons.mp hc with rfl | hc
      · exact Nat.le_trans (h.1 l hl).2 (Dimacs.le_atomsAfter n actions)
      · exact ih h.2 hc
    | fail e => exact h.elim

theorem not_feasible_of_fail {e : Error} (he : Action.fail e ∈ actions) (n : Nat) : ¬Feasible n actions := by
  induction actions generalizing n with
  | nil => cases he
  | cons action actions ih =>
    rcases List.mem_cons.mp he with rfl | hmem
    · exact id
    · cases action with
      | ensureAtoms count => exact fun h => ih hmem _ h.2
      | addClause c => exact fun h => ih hmem _ h.2
      | fail e => exact id

/-- What is performed without an error is feasible. -/
theorem feasible_of_performAll (h : Ready s) (hr : performAll actions s = .ok () t) : Feasible s.atomCount actions := by
  induction actions generalizing s with
  | nil => trivial
  | cons action actions ih =>
    rw [performAll, Solver.bind_ok_iff] at hr
    obtain ⟨_, u, hfirst, hr⟩ := hr
    obtain ⟨F, hs⟩ := h.sound
    cases action with
    | ensureAtoms count =>
      obtain ⟨hu, hcount, -⟩ := ensureAtoms_ready h hfirst
      refine ⟨(exists_ensureAtoms_iff hs h.bias h.room).mp ⟨u, hfirst⟩, ?_⟩
      rw [← hcount]
      exact ih hu hr
    | addClause c =>
      have hadded := (perform_addClause_spec h c).of_ok hfirst
      refine ⟨hadded.known, ?_⟩
      rw [← hadded.atomCount]
      exact ih hadded.ready hr
    | fail e => cases hfirst

/-- The actions that add the clauses of actions. -/
def additions (actions : List Action) : List Action := (clausesOf actions).map .addClause

/-- The script may as well ask for all atoms first and then add the clauses. -/
structure Normal (s : Solver) (actions : List Action) (t : Solver) : Prop where
  split : ∃ u, Solver.ensureAtoms (atomsAfter s.atomCount actions) s = .ok () u ∧
    performAll (additions actions) u = .ok () t ∧ logAll (additions actions) u = logAll actions s
  atomCount : t.atomCount = atomsAfter s.atomCount actions

theorem Normal.nil (h : Ready s) : Normal s [] s := by
  obtain ⟨F, hs⟩ := h.sound
  refine ⟨⟨s, ?_, rfl, rfl⟩, rfl⟩
  rw [Solver.ensureAtoms_apply, atomsAfter, Nat.sub_self]
  rfl

theorem Normal.ensureAtoms {count : Nat} (h : Ready s) (hfirst : Solver.ensureAtoms count s = .ok () u)
    (hn : Normal u actions t) : Normal s (.ensureAtoms count :: actions) t := by
  obtain ⟨F, hs⟩ := h.sound
  obtain ⟨-, hcount, -⟩ := ensureAtoms_ready h hfirst
  have hafter : atomsAfter s.atomCount (.ensureAtoms count :: actions) = atomsAfter u.atomCount actions := by
    rw [atomsAfter, hcount]
  have hle : count ≤ atomsAfter u.atomCount actions := by
    refine Nat.le_trans ?_ (le_atomsAfter _ _)
    rw [hcount]
    exact Nat.le_max_right _ _
  constructor
  · rw [hafter, ensureAtoms_of_le hle hs hfirst, logAll,
      show Action.perform (.ensureAtoms count) s = .ok () u from hfirst]
    exact hn.split
  · rw [hafter]
    exact hn.atomCount

/-- The clause may wait until all atoms are there. -/
theorem Normal.addClause (h : Ready s) (hadded : Added s c u) (hfirst : Action.perform (.addClause c) s = .ok () u)
    (hf : Feasible s.atomCount actions) (hn : Normal u actions t) : Normal s (.addClause c :: actions) t := by
  obtain ⟨F, hs⟩ := h.sound
  obtain ⟨w, hw⟩ := (exists_ensureAtoms_iff hs h.bias h.room).mpr (hf.atomsAfter_le h.room)
  obtain ⟨hanswer, hafter⟩ := ensureAtoms_addClause hs hadded.known hw
  obtain ⟨hpasses, hu⟩ := perform_addClause_ok_iff.mp hfirst
  have hlater : Action.perform (.addClause c) w = .ok () (Solver.after (Solver.addClause c) w) :=
    perform_addClause_ok_iff.mpr ⟨hanswer ▸ hpasses, rfl⟩
  obtain ⟨⟨w', hw', ht, hlog⟩, hcount⟩ := hn
  rw [hadded.atomCount, hu, hafter] at hw'
  cases hw'
  refine ⟨⟨w, hw, ?_, ?_⟩, ?_⟩
  · exact (Solver.bind_of_ok hlater _).trans ht
  · show logAll (.addClause c :: additions actions) w = _
    rw [logAll, logAll, hlater, hfirst, Action.log, Action.log, hanswer]
    exact congrArg _ hlog
  · rw [hcount, hadded.atomCount]
    rfl

/-- A feasible script is performed, unless no key is left for one of its clauses. -/
theorem performAll_spec (h : Ready s) (hf : Feasible s.atomCount actions) :
    Solver.Yields (performAll actions) s (fun _ t => Normal s actions t) fun e _ =>
      e = .store .storageExhausted ∧ ClauseKey.slotCount < s.clauses.givenCount + (clausesOf actions).length := by
  induction actions generalizing s with
  | nil => exact Solver.yields_pure.mpr (Normal.nil h)
  | cons action actions ih =>
    obtain ⟨F, hs⟩ := h.sound
    rw [performAll, Solver.yields_bind]
    cases action with
    | ensureAtoms count =>
      obtain ⟨u, hu⟩ := (exists_ensureAtoms_iff hs h.bias h.room).mpr hf.1
      obtain ⟨hready, hcount, hclauses⟩ := ensureAtoms_ready h hu
      rw [Solver.Yields, show Action.perform (.ensureAtoms count) s = .ok () u from hu]
      refine (ih hready (hcount ▸ hf.2)).imp (fun _ t ht => ht.ensureAtoms h hu) fun e t he => ?_
      rwa [hclauses] at he
    | addClause c =>
      have hknown : ∀ l ∈ c, s.Knows l := hf.1
      have hperform := perform_addClause_spec h c
      rw [Solver.yields_iff] at hperform ⊢
      refine ⟨fun _ u hu => ?_, fun e u hu => ?_⟩
      · have hadded := hperform.1 () u hu
        refine (ih hadded.ready (hadded.atomCount ▸ hf.2)).imp (fun _ t ht => ht.addClause h hadded hu hf.2)
          fun e t he => ?_
        have hcount := hadded.count
        refine ⟨he.1, Nat.lt_of_lt_of_le he.2 ?_⟩
        show _ ≤ _ + ((clausesOf actions).length + 1)
        omega
      · obtain ⟨he, hfull⟩ := hperform.2 e u hu hknown
        refine ⟨he, Nat.lt_of_le_of_lt hfull ?_⟩
        show _ < _ + ((clausesOf actions).length + 1)
        omega
    | fail e => exact hf.elim

/-! ## What is logged -/

/-- The log of a script that was performed is of its clauses, and of no failure. -/
theorem log_of_performAll (hr : performAll actions s = .ok () t) :
    (logAll actions s).map Prod.fst = clausesOf actions ∧ ∀ entry ∈ logAll actions s, Passes entry.2 := by
  induction actions generalizing s with
  | nil => exact ⟨rfl, by simp [logAll]⟩
  | cons action actions ih =>
    rw [performAll, Solver.bind_ok_iff] at hr
    obtain ⟨_, u, hfirst, hr⟩ := hr
    obtain ⟨hclauses, hpasses⟩ := ih hr
    rw [logAll, hfirst]
    cases action with
    | ensureAtoms count => exact ⟨hclauses, hpasses⟩
    | addClause c =>
      refine ⟨congrArg (c :: ·) hclauses, fun entry hentry => ?_⟩
      rcases List.mem_cons.mp hentry with rfl | hentry
      · exact (perform_addClause_ok_iff.mp hfirst).1
      · exact hpasses entry hentry
    | fail e => cases hfirst

/-- A caller may add the clauses in place of a reader. -/
theorem makeAll_addClause {clauses : List Clause} (hr : performAll (clauses.map .addClause) s = .ok () t) (log : Log)
    (verdicts : List (Except Error (Option Report))) : Session.makeAll ⟨s, log, verdicts⟩ (clauses.map .addClause) =
      ⟨t, log ++ logAll (clauses.map .addClause) s, verdicts⟩ := by
  induction clauses generalizing s log with
  | nil =>
    cases hr
    exact congrArg (Session.mk t · verdicts) (List.append_nil log).symm
  | cons c clauses ih =>
    rw [List.map_cons, performAll, Solver.bind_ok_iff] at hr
    obtain ⟨_, u, hfirst, hr⟩ := hr
    obtain ⟨-, hu⟩ := perform_addClause_ok_iff.mp hfirst
    rw [List.map_cons, List.map_cons, logAll, hfirst, ← List.append_assoc]
    refine Eq.trans ?_ (ih hr _)
    rw [hu]
    rfl

/-- Reading a text is no different from a request for its atoms and additions of its clauses. -/
theorem Normal.replay {config : Config} {lines : List Line} (h : Normal (.ofConfig config) (script lines).1 t)
    (hr : performAll (script lines).1 (.ofConfig config) = .ok () t) : replay config [.readDimacs lines] =
      replay config (.ensureAtoms t.atomCount :: (clausesOf (script lines).1).map .addClause) := by
  obtain ⟨⟨u, hu, ht, hlog⟩, hcount⟩ := h
  have hread : Solver.after (read lines) (.ofConfig config) = t := by rw [after_read, Solver.after, hr]
  have hafter : Solver.after (Solver.ensureAtoms t.atomCount) (.ofConfig config) = u := by rw [Solver.after, hcount, hu]
  calc ClauseLearning.replay config [.readDimacs lines]
      = ⟨t, [] ++ logAll (script lines).1 (.ofConfig config), []⟩ := by rw [← hread]; rfl
    _ = Session.makeAll ⟨u, [], []⟩ ((clausesOf (script lines).1).map .addClause) := by
        rw [← hlog]
        exact (makeAll_addClause ht [] []).symm
    _ = _ := by rw [← hafter]; rfl

end Dimacs

end ClauseLearning
