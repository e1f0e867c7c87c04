import ClauseLearning.Proofs.Soundness.Formula

/-!
# What an addition comes to

The outcome of an addition is given as a function of the state (`addClause_eq`): a clause is refused, is true already,
or what is left of it is kept (`Solver.kept`). From this follows what an addition does where it gives a result (`Adds`,
`adds_of_addClause`), and where it gives an error: for the clauses that are refused (`Refuses`), and if there is no key
for another clause (`refuses_of_addClause`).
-/

namespace ClauseLearning

variable {F : List Clause} {s t : Solver} {c d : Clause} {l : Literal} {key : ClauseKey} {r : Addition}

/-! ## Refusals -/

/-- The literal is of an atom of the formula. -/
def Solver.Knows (s : Solver) (l : Literal) : Prop := 1 ≤ l.atom ∧ l.atom ≤ s.atomCount

instance (s : Solver) (l : Literal) : Decidable (s.Knows l) := inferInstanceAs (Decidable (_ ∧ _))

/-- Why a clause is refused: a decision is open, or a literal is of no atom of the formula, of which the first counts,
or the clause holds a literal and its negation. -/
inductive Refuses (s : Solver) (c : Clause) : Error → Prop
  | decided : s.trail.isDecided = true → Refuses s c (.store .decisionMade)
  | unknown {known rest : Clause} {l : Literal} : s.trail.isDecided = false → c = known ++ l :: rest →
      (∀ k ∈ known, s.Knows k) → ¬s.Knows l → Refuses s c (.clause (.unknownAtom l.toInt))
  | tautology {l : Literal} : s.trail.isDecided = false → (∀ k ∈ c, s.Knows k) → l ∈ c → -l ∈ c →
      Refuses s c (.clause .tautology)

theorem not_knows_iff : (l.atom == topAtom || s.atomCount < l.atom) = true ↔ ¬s.Knows l := by
  simp only [Solver.Knows, topAtom, Bool.or_eq_true, beq_iff_eq, decide_eq_true_eq]
  omega

theorem find_unknown_eq_none_iff : (c.find? fun l => l.atom == topAtom || s.atomCount < l.atom) = none ↔
    ∀ l ∈ c, s.Knows l := by
  rw [List.find?_eq_none]
  refine forall₂_congr fun l _ => ?_
  rw [not_knows_iff, not_not]

/-- A clause has a defect just if it is refused without an open decision. -/
theorem defect_eq_some_iff {cause : ClauseError} (hdec : s.trail.isDecided = false) :
    s.defect c = some cause ↔ Refuses s c (.clause cause) := by
  rw [Solver.defect]
  constructor
  · intro h
    split at h
    · rename_i l hl
      obtain ⟨hunknown, known, rest, hc, hknown⟩ := List.find?_eq_some_iff_append.mp hl
      cases h
      refine .unknown hdec hc (fun k hk => ?_) (not_knows_iff.mp hunknown)
      have hk := hknown k hk
      rwa [Bool.not_eq_true', ← Bool.not_eq_true, not_knows_iff, not_not] at hk
    · rename_i hnone
      split at h
      · obtain ⟨l, hl, hneg⟩ := Clause.hasTwins_normalise.mp ‹_›
        cases h
        exact .tautology hdec (find_unknown_eq_none_iff.mp hnone) hl hneg
      · cases h
  · intro h
    cases h with
    | @unknown known rest l _ hc hknown hl =>
      have hfind : (c.find? fun l => l.atom == topAtom || s.atomCount < l.atom) = some l := by
        refine List.find?_eq_some_iff_append.mpr ⟨not_knows_iff.mpr hl, _, _, hc, fun k hk => ?_⟩
        rw [Bool.not_eq_true', ← Bool.not_eq_true, not_knows_iff, not_not]
        exact hknown k hk
      rw [hfind]
    | tautology _ hknown hl hneg =>
      rw [find_unknown_eq_none_iff.mpr hknown]
      exact if_pos (Clause.hasTwins_normalise.mpr ⟨_, hl, hneg⟩)

/-- A clause without a defect is one of known literals without a literal and its negation. -/
theorem defect_eq_none_iff : s.defect c = none ↔ (∀ l ∈ c, s.Knows l) ∧ ∀ l ∈ c, -l ∉ c := by
  have htwins : c.normalise.hasTwins = false ↔ ∀ l ∈ c, -l ∉ c := by
    rw [← Bool.not_eq_true, Clause.hasTwins_normalise]
    simp only [not_exists, not_and]
  rw [← find_unknown_eq_none_iff, ← htwins, Solver.defect]
  cases c.find? fun l => l.atom == topAtom || s.atomCount < l.atom with
  | some l => simp
  | none => cases c.normalise.hasTwins <;> simp

/-! ## What is left of a clause -/

namespace Solver

/-- The solver with a clause stored. -/
def stored (s : Solver) (d : Clause) (key : ClauseKey) : Solver :=
  { s with clauses := s.clauses.place key d, watches := s.watches.watched d key }

/-- The solver once there is something to solve. -/
def begun (s : Solver) : Solver :=
  { s with status := if s.status = .configuration then .input else s.status }

/-- What it comes to that what is left of a clause is kept. -/
def kept (s : Solver) : Clause → EStateM.Result Error Solver Addition
  | [] => .ok .unsatisfiable { s with status := .unsatisfiable }
  | [l] => .ok (.added (.givenUnit l)) ((s.stored [l] (.givenUnit l)).assigned l (some (.givenUnit l)))
  | d => match s.clauses.freshKey d .given with
    | .ok key => .ok (.added key) (s.stored d key)
    | .error e => .error (.store e) s

theorem store_given_eq (hd : ∀ l ∈ d, s.watches.covers l = true) : store d .given s =
    match s.clauses.freshKey d .given with
    | .ok key => .ok key (s.stored d key)
    | .error e => .error (.store e) s := by
  have htake : s.clauses.takeFree d .given = s.clauses := if_neg fun h => by cases h.1
  apply eq_of_yields
  simp only [store, yields_bind, yields_onClauses, ClauseStore.insert, htake]
  cases hkey : s.clauses.freshKey d .given with
  | error e => exact yields_ofExcept_error.mpr rfl
  | ok key =>
    rw [yields_ofExcept_ok, yields_watch (s := { s with clauses := s.clauses.place key d }) hd, yields_pure]
    rfl

/-- What is left of a clause is kept. -/
theorem addReduced_eq (ha : s.atoms.Aligned) (hd : ∀ l ∈ d, s.watches.covers l = true)
    (ho : ∀ l ∈ d, s.atoms.isOpen l = .ok true) : addReduced d s = s.kept d := by
  match d with
  | [] => rfl
  | [l] =>
    have hopen : (s.stored [l] (.givenUnit l)).atoms.isOpen l = .ok true := ho l (List.mem_singleton_self l)
    apply eq_of_yields
    rw [addReduced, yields_bind, Yields, store_given_eq hd]
    exact yields_bind.mpr ((yields_assign (s := s.stored [l] (.givenUnit l)) ha hopen).mpr (yields_pure.mpr rfl))
  | k :: l :: rest =>
    apply eq_of_yields
    rw [addReduced, yields_bind, Yields, store_given_eq hd, kept]
    · cases s.clauses.freshKey (k :: l :: rest) .given with
      | ok key => exact yields_pure.mpr rfl
      | error e => rfl
    all_goals simp

/-- The outcome of an addition, as a function of the state. -/
def addition (s : Solver) (c : Clause) : EStateM.Result Error Solver Addition :=
  if s.trail.isDecided then .error (.store .decisionMade) s
  else match s.defect c with
    | some cause => .error (.clause cause) s
    | none =>
      if c.normalise.satisfied s.atoms.valuation then .ok .satisfied s.begun
      else s.begun.kept (s.reduced c.normalise)

end Solver

/-- What is left of a clause of known literals has literals without a value that may be watched. -/
theorem Consistent.reduced_open (h : Consistent F s) (hc : ∀ l ∈ c, s.Knows l) :
    ∀ l ∈ s.reduced c, s.watches.covers l = true ∧ s.atoms.isOpen l = .ok true := by
  intro l hl
  obtain ⟨hl, hnone⟩ := List.mem_filter.mp hl
  have hpos : topAtom < s.atoms.size := AtomTable.lt_size_of_valueOf h.agrees.top
  have hlt : l.atom < s.atoms.size := by
    have hle := (hc l hl).2
    simp only [topAtom, Solver.atomCount] at *
    omega
  exact ⟨h.watched.covers hlt, Solver.isOpen_of_valueOf (Option.isNone_iff_eq_none.mp hnone) hlt⟩

theorem addClause_eq (h : Consistent F s) (c : Clause) : Solver.addClause c s = s.addition c := by
  apply Solver.eq_of_yields
  unfold Solver.addition
  simp only [Solver.addClause, Solver.yields_bind, Solver.yields_get]
  cases hdec : s.trail.isDecided with
  | true => rfl
  | false =>
    simp only [Bool.false_eq_true, if_false, Solver.yields_bind, Solver.yields_get]
    cases hdefect : s.defect c with
    | some cause => rfl
    | none =>
      refine Solver.yields_bind.mpr (Solver.yields_modify.mpr ?_)
      show Solver.Yields _ s.begun _ _
      simp only [Solver.yields_bind, Solver.yields_get]
      have hval : s.begun.atoms.valuation = s.atoms.valuation := rfl
      rw [hval]
      cases hsat : c.normalise.satisfied s.atoms.valuation with
      | true => rfl
      | false =>
        have hopen := h.reduced_open fun l hl => (defect_eq_none_iff.mp hdefect).1 l (Clause.mem_normalise.mp hl)
        have hkept : Solver.addReduced (s.reduced c.normalise) s.begun = s.begun.kept (s.reduced c.normalise) :=
          Solver.addReduced_eq h.agrees.aligned (fun l hl => (hopen l hl).1) fun l hl => (hopen l hl).2
        show Solver.Yields (Solver.addReduced (s.reduced c.normalise)) s.begun _ _
        rw [Solver.Yields, hkept]
        cases s.begun.kept (s.reduced c.normalise) <;> rfl

/-! ## Errors -/

/-- There is a key for another clause of the formula as long as there are fewer of them than slots. -/
theorem ClauseStore.freshKey_given_error {store : ClauseStore} {e : StoreError} (hne : d ≠ [])
    (he : store.freshKey d .given = .error e) : e = .storageExhausted ∧ ClauseKey.slotCount ≤ store.givenCount := by
  have hslot : ∀ {make : Nat → ClauseKey} {slot : Nat}, slot ≤ store.givenCount → slotKey make slot = .error e →
      e = .storageExhausted ∧ ClauseKey.slotCount ≤ store.givenCount := by
    intro make slot hle hslot
    refine ⟨slotKey_error hslot, ?_⟩
    unfold slotKey at hslot
    split at hslot
    · cases hslot
    · omega
  match d with
  | [] => exact absurd rfl hne
  | [l] => cases he
  | [k, l] => exact hslot (by unfold givenCount; omega) he
  | k :: l :: m :: d => exact hslot (by unfold givenCount; omega) he

/-- A clause that is not refused is added, unless there is no key for it. -/
theorem refuses_of_addClause {e : Error} (h : Consistent F s) (he : Solver.addClause c s = .error e t) :
    Refuses s c e ∧ t = s ∨
      e = .store .storageExhausted ∧ ClauseKey.slotCount ≤ s.clauses.givenCount ∧ t = s.begun := by
  rw [addClause_eq h, Solver.addition] at he
  split at he
  · cases he
    exact Or.inl ⟨.decided ‹_›, rfl⟩
  · have hdec : s.trail.isDecided = false := by simpa using ‹¬s.trail.isDecided = true›
    split at he
    · cases he
      exact Or.inl ⟨(defect_eq_some_iff hdec).mp ‹_›, rfl⟩
    · split at he
      · cases he
      · right
        unfold Solver.kept at he
        split at he
        · cases he
        · cases he
        · split at he
          · cases he
          · rename_i hne _ _ e hkey
            obtain ⟨hstorage, hcount⟩ := ClauseStore.freshKey_given_error hne hkey
            cases he
            exact ⟨congrArg Error.store hstorage, hcount, rfl⟩

/-- A clause that is refused changes nothing. -/
theorem addClause_of_refuses {e : Error} (h : Consistent F s) (he : Refuses s c e) :
    Solver.addClause c s = .error e s := by
  rw [addClause_eq h, Solver.addition]
  cases he with
  | decided hdec => rw [if_pos hdec]
  | unknown hdec hc hknown hl =>
    rw [if_neg (by simp [hdec]), (defect_eq_some_iff hdec).mpr (.unknown hdec hc hknown hl)]
  | tautology hdec hknown hl hneg =>
    rw [if_neg (by simp [hdec]), (defect_eq_some_iff hdec).mpr (.tautology hdec hknown hl hneg)]

/-! ## Results -/

/-- What an addition does to the state: it depends on what is left of the clause once it is in order, without
repetitions and without the literals that are false. -/
inductive Adds (s : Solver) (c : Clause) : Addition → Solver → Prop
  | satisfied {l : Literal} : l ∈ c → s.atoms.valuation.holds l = true → Adds s c .satisfied s.begun
  | unsatisfiable : s.reduced c.normalise = [] → Adds s c .unsatisfiable { s.begun with status := .unsatisfiable }
  | unit {l : Literal} : s.reduced c.normalise = [l] →
      Adds s c (.added (.givenUnit l)) ((s.begun.stored [l] (.givenUnit l)).assigned l (some (.givenUnit l)))
  | longer {key : ClauseKey} : 2 ≤ (s.reduced c.normalise).length →
      s.clauses.freshKey (s.reduced c.normalise) .given = .ok key →
      Adds s c (.added key) (s.begun.stored (s.reduced c.normalise) key)

/-- A clause that is added is not refused. -/
structure Accepts (s : Solver) (c : Clause) : Prop where
  undecided : s.trail.isDecided = false
  known : ∀ l ∈ c, s.Knows l
  tautologyFree : ∀ l ∈ c, -l ∉ c

theorem adds_of_kept (hd : s.begun.kept (s.reduced c.normalise) = .ok r t) : Adds s c r t := by
  match hreduced : s.reduced c.normalise with
  | [] =>
    rw [hreduced] at hd
    cases hd
    exact .unsatisfiable hreduced
  | [l] =>
    rw [hreduced] at hd
    cases hd
    exact .unit hreduced
  | k :: l :: rest =>
    rw [hreduced, Solver.kept] at hd
    · split at hd
      · rename_i key hkey
        cases hd
        rw [← hreduced]
        exact .longer (by rw [hreduced]; simp) (by rw [hreduced]; exact hkey)
      · cases hd
    all_goals simp

theorem adds_of_addClause (h : Consistent F s) (hr : Solver.addClause c s = .ok r t) : Accepts s c ∧ Adds s c r t := by
  rw [addClause_eq h, Solver.addition] at hr
  split at hr
  · cases hr
  · split at hr
    · cases hr
    · rename_i hdec _ hdefect
      obtain ⟨hknown, htwins⟩ := defect_eq_none_iff.mp hdefect
      refine ⟨⟨by simpa using hdec, hknown, htwins⟩, ?_⟩
      split at hr
      · obtain ⟨l, hl, hholds⟩ := List.any_eq_true.mp ‹c.normalise.satisfied s.atoms.valuation = true›
        cases hr
        exact .satisfied (Clause.mem_normalise.mp hl) hholds
      · exact adds_of_kept hr

/-! ## What is stored -/

namespace Solver

theorem mem_reduced : l ∈ s.reduced c ↔ l ∈ c ∧ s.atoms.valueOf l.atom = none := by
  rw [reduced, List.mem_filter, Option.isNone_iff_eq_none]
  rfl

/-- What is left of a clause in order is in the strict order of its atoms, unless it holds a
literal and its negation. -/
theorem reduced_ordered (hc : ∀ l ∈ c, -l ∉ c) : (s.reduced c.normalise).Pairwise fun k l => k.atom < l.atom := by
  have htwins : c.normalise.hasTwins = false := by
    rw [← Bool.not_eq_true, Clause.hasTwins_normalise]
    rintro ⟨l, hl, hneg⟩
    exact hc l hl hneg
  exact ((Clause.ordered_normalise c).atoms htwins).sublist List.filter_sublist

end Solver

/-- What is left of a clause that is added is stored at a key of the formula, and what was stored before stays. -/
theorem Accepts.stored (h : Accepts s c) (hs : Sound F s) (hne : s.reduced c.normalise ≠ [])
    (hkey : s.clauses.freshKey (s.reduced c.normalise) .given = .ok key) :
    ∃ G, Stored G s.begun (s.reduced c.normalise) .given key (s.begun.stored (s.reduced c.normalise) key) := by
  have hbegun : Consistent F s.begun := hs.beginInput.sound.toConsistent
  have hknown : ∀ l ∈ c.normalise, s.Knows l := fun l hl => h.known l (Clause.mem_normalise.mp hl)
  have hlt : ∀ l ∈ s.reduced c.normalise, l.atom ≠ topAtom ∧ l.atom < s.atoms.size := by
    intro l hl
    have hpos : topAtom < s.atoms.size := AtomTable.lt_size_of_valueOf hs.agrees.top
    obtain ⟨hge, hle⟩ := hknown l (Solver.mem_reduced.mp hl).1
    simp only [topAtom, Solver.atomCount] at *
    omega
  have hnodup : ((s.reduced c.normalise).map (·.atom)).Nodup :=
    List.pairwise_map.mpr ((Solver.reduced_ordered h.tautologyFree).imp Nat.ne_of_lt)
  refine ⟨F ++ [s.reduced c.normalise], ?_⟩
  refine (store_spec hbegun hne hlt hnodup (fun _ hd => List.mem_append_left _ hd)
    (entails_of_mem (List.mem_append_right _ (List.mem_singleton_self _))) fun d hd => ?_).of_ok ?_
  · refine (List.mem_append.mp hd).imp_right fun hd => ⟨rfl, fun l hl => ?_⟩
    rwa [List.mem_singleton.mp hd]
  · have hstore := Solver.store_given_eq fun l hl => (hbegun.reduced_open hknown l hl).1
    rwa [show s.begun.clauses.freshKey (s.begun.reduced c.normalise) .given = .ok key from hkey] at hstore

end ClauseLearning
