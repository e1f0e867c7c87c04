import ClauseLearning.Proofs.Normalisation
import ClauseLearning.Proofs.Soundness.Analysis
import ClauseLearning.Proofs.Soundness.Decision
import ClauseLearning.Solver.Formula

/-!
# Building a formula keeps the invariant

New atoms keep it (`freshAtom_spec`, `ensureAtoms_spec`). A clause that is added becomes part of the formula, whether
it is true already, what is left of it is stored, or nothing is left of it (`addClause_spec`); a clause that is
refused leaves the formula as it was.
-/

namespace ClauseLearning

/-- What building a formula comes to: the solver is sound for the formula, and no model is
claimed that was not before. -/
structure Built (F : List Clause) (s t : Solver) : Prop where
  sound : Sound F t
  config : t.config = s.config
  size : s.atoms.size ≤ t.atoms.size
  settled : t.status = .satisfiable → s.status = .satisfiable

variable {F G : List Clause} {s t u : Solver} {c d : Clause} {k l : Literal}

theorem Built.refl (h : Sound F s) : Built F s s := ⟨h, rfl, Nat.le_refl _, id⟩

theorem Built.trans (h : Built F s t) (h' : Built G t u) : Built G s u :=
  ⟨h'.sound, h'.config.trans h.config, Nat.le_trans h.size h'.size, fun hs => h.settled (h'.settled hs)⟩

theorem Built.of_steady (h : Sound F t) (ht : Steady s t) : Built F s t :=
  ⟨h, ht.config, Nat.le_of_eq ht.size.symm, fun hs => ht.status.symm.trans hs⟩

/-- The solvers have the same trail and the same values. -/
structure Unmoved (s t : Solver) : Prop where
  trail : t.trail = s.trail
  atoms : s.atoms.SameValues t.atoms

theorem Unmoved.refl (s : Solver) : Unmoved s s := ⟨rfl, .refl _⟩

theorem Unmoved.trans (h : Unmoved s t) (h' : Unmoved t u) : Unmoved s u :=
  ⟨h'.trail.trans h.trail, h.atoms.trans h'.atoms⟩

theorem Alike.unmoved (h : Alike s t) : Unmoved s t := ⟨h.trail, h.atoms⟩

/-- Atoms may be new, but no clauses; without new atoms nothing moves. -/
structure Grown (F : List Clause) (s t : Solver) : Prop extends Built F s t where
  idle : t.atoms.size = s.atoms.size → Unmoved s t

theorem Grown.refl (h : Sound F s) : Grown F s s := ⟨Built.refl h, fun _ => Unmoved.refl s⟩

theorem Grown.trans (h : Grown F s t) (h' : Grown F t u) : Grown F s u := by
  refine ⟨h.toBuilt.trans h'.toBuilt, fun hu => ?_⟩
  have ht : t.atoms.size = s.atoms.size := Nat.le_antisymm (hu ▸ h'.size) h.size
  exact (h.idle ht).trans (h'.idle (hu.trans ht.symm))

theorem Alike.grown (h : Alike s t) (hs : Sound F s) : Grown F s t :=
  ⟨Built.of_steady (h.sound hs) h.steady, fun _ => h.unmoved⟩

/-! ## Atoms -/

theorem Sound.beginInput (h : Sound F s) :
    Grown F s { s with status := if s.status = .configuration then .input else s.status } := by
  refine ⟨?_, fun _ => ⟨rfl, .refl _⟩⟩
  split
  · rename_i hs
    exact ⟨h.withStatus (by rw [hs]; simp) (by simp), rfl, Nat.le_refl _, fun hsat => by simp at hsat⟩
  · exact Built.refl h

/-- A new atom has no value, and no clause holds it. -/
theorem Sound.grow (h : Sound F s) (previous : Bool) :
    Sound F { s with atoms := s.atoms.grow previous, watches := s.watches.ensure s.atoms.size } where
  agrees := h.agrees.grow previous
  keyed := h.keyed
  proper hc := by
    have hp := h.proper hc
    refine ⟨hp.fits, fun l hl => ⟨(hp.known l hl).1, ?_⟩, hp.nodup⟩
    rw [AtomTable.size_grow]
    exact Nat.lt_succ_of_lt (hp.known l hl).2
  watched := by
    rw [AtomTable.size_grow]
    exact h.watched.ensure
  justified hi := by
    rw [AtomTable.reasonOf_grow]
    exact h.justified hi
  entailed := h.entailed
  covered := h.covered
  refuted := h.refuted
  clean := h.clean
  guarded := h.guarded

theorem freshAtom_spec (h : Sound F s) :
    Solver.Yields Solver.freshAtom s (fun a t => Grown F s t ∧ a = s.atoms.size ∧ t.atoms.size = a + 1)
      fun _ t => Grown F s t := by
  simp only [Solver.freshAtom, Solver.yields_bind, Solver.yields_get]
  refine (randomBool_spec s.config.polarityBias.value).imp (fun previous t ht => ?_) ?_
  · have hst := ht.sound h
    split
    · exact ht.grown h
    · rw [Solver.yields_bind, Solver.yields_get, Solver.yields_bind,
        Solver.yields_onAtoms_of_ok (AtomM.grow_eq hst.agrees.aligned previous)]
      simp only [Solver.beginInput, Solver.yields_bind, Solver.yields_onWatches, Solver.yields_modify]
      have hsize : (t.atoms.grow previous).size = s.atoms.size + 1 := by rw [AtomTable.size_grow, ht.atoms.size_eq]
      have hgrown : Grown F s { t with atoms := t.atoms.grow previous, watches := t.watches.ensure t.atoms.size } := by
        refine ⟨⟨hst.grow previous, ht.config, ?_, fun hs => ht.status.symm.trans hs⟩, fun he => ?_⟩
        · rw [hsize]
          exact Nat.le_succ _
        · rw [hsize] at he
          omega
      exact ⟨hgrown.trans hgrown.sound.beginInput, ht.atoms.size_eq, AtomTable.size_grow _ _⟩
  · rintro e t ⟨-, rfl, -⟩
    exact Grown.refl h

theorem addAtoms_spec (h : Sound F s) (n : Nat) :
    Solver.Yields (Solver.addAtoms n) s (fun _ t => Grown F s t ∧ t.atoms.size = s.atoms.size + n)
      fun _ t => Grown F s t := by
  induction n generalizing s with
  | zero => exact Solver.yields_pure.mpr ⟨Grown.refl h, rfl⟩
  | succ n ih =>
    rw [Solver.addAtoms, Solver.yields_bind]
    refine (freshAtom_spec h).imp (fun a t hat => ?_) fun _ t ht => ht
    obtain ⟨ht, ha, hn⟩ := hat
    refine (ih ht.sound).imp (fun _ u hu => ⟨ht.trans hu.1, ?_⟩) fun _ u hu => ht.trans hu
    have := hu.2
    omega

theorem ensureAtoms_spec (h : Sound F s) (count : Nat) :
    Solver.Yields (Solver.ensureAtoms count) s (fun _ t => Grown F s t ∧ t.atomCount = max s.atomCount count)
      fun _ t => Grown F s t := by
  simp only [Solver.ensureAtoms, Solver.yields_bind, Solver.yields_get]
  refine (addAtoms_spec h _).imp (fun _ t ht => ⟨ht.1, ?_⟩) fun _ t ht => ht
  have hn := ht.2
  have htop : topAtom < s.atoms.size := AtomTable.lt_size_of_valueOf h.agrees.top
  simp only [topAtom, Solver.atomCount] at *
  omega

/-! ## Clauses -/

/-- The literals of a clause without an unknown one are of atoms of the table. -/
theorem known_of_find_none (h : Sound F s)
    (hc : c.find? (fun l => l.atom == topAtom || s.atomCount < l.atom) = none) :
    ∀ l ∈ c, l.atom ≠ topAtom ∧ l.atom < s.atoms.size := by
  intro l hl
  have htop : 0 < s.atoms.size := AtomTable.lt_size_of_valueOf h.agrees.top
  have hl := List.find?_eq_none.mp hc l hl
  simp only [Bool.not_eq_true, Bool.or_eq_false_iff, beq_eq_false_iff_ne, decide_eq_false_iff_not] at hl
  have hle := hl.2
  rw [Solver.atomCount] at hle
  exact ⟨hl.1, by omega⟩

/-- A clause without a defect has known literals, and none with its negation. -/
theorem known_of_defect_none (h : Sound F s) (hd : s.defect c = none) :
    (∀ l ∈ c, l.atom ≠ topAtom ∧ l.atom < s.atoms.size) ∧ c.normalise.hasTwins = false := by
  rw [Solver.defect] at hd
  split at hd
  · cases hd
  · refine ⟨known_of_find_none h ‹_›, ?_⟩
    split at hd
    · cases hd
    · simpa using ‹¬c.normalise.hasTwins = true›

/-- A tautology holds a literal of a known atom together with its negation. -/
theorem twins_of_defect (h : Sound F s) (hd : s.defect c = some .tautology) :
    ∃ l ∈ c, -l ∈ c ∧ l.atom < s.atoms.size := by
  rw [Solver.defect] at hd
  split at hd
  · simp at hd
  · have hknown := known_of_find_none h ‹_›
    split at hd
    · obtain ⟨l, hl, hn⟩ := Clause.hasTwins_normalise.mp ‹_›
      exact ⟨l, hl, hn, (hknown l hl).2⟩
    · cases hd

/-- A clause that is covered already may join the formula. -/
theorem Sound.join (h : Sound F s) (hc : Covered s c) : Sound (F ++ [c]) s where
  agrees := h.agrees
  keyed := h.keyed
  proper := h.proper
  watched := h.watched
  justified := h.justified
  entailed hd := (h.entailed hd).mono fun _ hd => List.mem_append_left _ hd
  covered d hd := by
    rcases List.mem_append.mp hd with hd | hd
    · exact h.covered d hd
    · rw [List.mem_singleton.mp hd]
      exact hc
  refuted hs hsat := h.refuted hs (hsat.imp fun _ hσ => hσ.mono fun _ hd => List.mem_append_left _ hd)
  clean := h.clean
  guarded := h.guarded

/-- The literals of a clause that have no value. -/
def Solver.reduced (s : Solver) (c : Clause) : Clause := c.filter fun l => (s.atoms.valuation.valueOf l.atom).isNone

/-- What is left of a clause without true literals, at level zero, is entailed if the clause is. -/
theorem Sound.entails_reduced (h : Sound F s) (hF : ∀ d ∈ F, d ∈ G)
    (hc : Entails G c) (hdec : s.trail.isDecided = false)
    (hsat : c.satisfied s.atoms.valuation = false) (htop : ∀ l ∈ c, l.atom ≠ topAtom) : Entails G (s.reduced c) := by
  intro σ hσ
  obtain ⟨l, hl, htrue⟩ := hc σ hσ
  cases hv : s.atoms.valueOf l.atom with
  | none => exact ⟨l, List.mem_filter.mpr ⟨hl, Option.isNone_iff_eq_none.mpr hv⟩, htrue⟩
  | some b =>
    -- a false literal is the negation of one at level zero
    have hb : b ≠ l.polarity := by
      rintro rfl
      have := List.any_eq_false.mp hsat l hl
      simp [Valuation.holds, show s.atoms.valuation.valueOf l.atom = _ from hv] at this
    have hneg : s.atoms.valueOf (-l).atom = some (-l).polarity := by
      rw [Literal.atom_neg, hv, Literal.polarity_neg]
      cases b <;> cases hp : l.polarity <;> simp_all
    obtain ⟨i, hi⟩ := h.agrees.listed (l := -l) (htop l hl) hneg
    obtain ⟨m, hm, hfalse⟩ := h.entails_zero hi (Trail.hasLevel_zero_of_isDecided hdec i) σ (hσ.mono hF)
    rw [List.mem_singleton.mp hm] at hfalse
    exact absurd htrue (trueIn_neg.mp hfalse)

/-- A clause of one literal without a value is stored, and its literal is assigned. -/
theorem unit_spec (h : Sound F s) (hdec : s.trail.isDecided = false) (hl : l.atom ≠ topAtom ∧ l.atom < s.atoms.size)
    (hv : s.atoms.valueOf l.atom = none) (hent : Entails (F ++ [c]) [l]) (hlc : l ∈ c) :
    Solver.Yields (do
      let key ← Solver.store [l] .given
      Solver.assign l (some key)
      return .added key) s (fun (_ : Addition) t => Built (F ++ [c]) s t) fun e t =>
        e = .store .storageExhausted ∧ Grown F s t := by
  rw [Solver.yields_bind]
  refine (store_spec h.toConsistent (List.cons_ne_nil _ _) (by simpa using hl) (by simp)
    (fun d hd => List.mem_append_left _ hd) hent fun d hd => ?_).imp (fun key t ht => ?_)
      fun e t ht => ⟨ht.1, ht.2.grown h⟩
  · refine (List.mem_append.mp hd).imp_right fun hd => ⟨rfl, ?_⟩
    rw [List.mem_singleton.mp hd]
    simpa using hlc
  · -- the literal waits to be assigned as a learned one does
    have hpending : Pending (F ++ [c]) t (.asserting key l) #[l] := by
      refine ⟨ht.consistent, ?_, fun hk hd => ?_, ?_, rfl, ?_, ?_, fun _ => ?_⟩
      · rw [ht.find]
        exact if_pos rfl
      · rw [ht.trail]
        exact h.guarded ((ht.find_cases hd).resolve_left fun hk' => hk hk'.1)
      · rw [ht.atoms]
        exact hv
      · intro m hm hml
        exact absurd (by simpa using hm) hml
      · intro m j hm
        simp at hm
      · rw [ht.trail, Trail.level, Trail.isDecided_eq_false_iff.mp hdec]
        rfl
    have hlt : l.atom < t.atoms.size := by rw [ht.atoms]; exact hl.2
    rw [Solver.yields_bind]
    refine (Solver.yields_assign hpending.agrees.aligned (Solver.isOpen_of_valueOf hpending.unvalued hlt)).mpr
      (Solver.yields_pure.mpr ?_)
    exact Built.of_steady hpending.assign (ht.steady.trans (t.steady_assigned l (some key)))

/-- A clause of several literals without values is stored. -/
theorem longer_spec (h : Sound F s) (hd : 2 ≤ d.length) (hk : ∀ l ∈ d, l.atom ≠ topAtom ∧ l.atom < s.atoms.size)
    (hv : ∀ l ∈ d, s.atoms.valueOf l.atom = none) (hnd : (d.map (·.atom)).Nodup) (hent : Entails (F ++ [c]) d)
    (hdc : ∀ l ∈ d, l ∈ c) :
    Solver.Yields (Solver.store d .given) s (fun _ t => Built (F ++ [c]) s t) fun e t =>
      e = .store .storageExhausted ∧ Grown F s t := by
  refine (store_spec h.toConsistent (by rintro rfl; simp at hd) hk hnd (fun d hd => List.mem_append_left _ hd) hent
    fun e he => ?_).imp (fun key t ht => ?_) fun e t ht => ⟨ht.1, ht.2.grown h⟩
  · refine (List.mem_append.mp he).imp_right fun he => ⟨rfl, ?_⟩
    rw [List.mem_singleton.mp he]
    exact hdc
  · refine Built.of_steady (ht.sound h ⟨fun k l hp j _ hj => ?_, fun l hl => ?_⟩) ht.steady
    · have := h.agrees.not_listed (l := -k) (hv k (by simpa using hp.mem)) hj
      exact this.elim
    · have := congrArg Array.size hl
      simp at this
      omega

theorem addReduced_spec (h : Sound F s) (hdec : s.trail.isDecided = false)
    (hk : ∀ l ∈ d, l.atom ≠ topAtom ∧ l.atom < s.atoms.size) (hv : ∀ l ∈ d, s.atoms.valueOf l.atom = none)
    (hnd : (d.map (·.atom)).Nodup) (hent : Entails (F ++ [c]) d) (hdc : ∀ l ∈ d, l ∈ c) :
    Solver.Yields (Solver.addReduced d) s (fun _ t => Built (F ++ [c]) s t) fun e t =>
      e = .store .storageExhausted ∧ Grown F s t := by
  match d with
  | [] =>
    refine ⟨h.refute (fun d hd => List.mem_append_left _ hd) hent.not_satisfiable, rfl, Nat.le_refl _, fun hs => ?_⟩
    simp at hs
  | [l] => exact unit_spec h hdec (hk l (by simp)) (hv l (by simp)) hent (hdc l (by simp))
  | k :: l :: d =>
    rw [Solver.addReduced, Solver.yields_bind]
    · exact (longer_spec h (by simp) hk hv hnd hent hdc).imp (fun _ _ ht => ht) fun _ _ ht => ht
    · simp
    · simp

/-- A clause without a defect becomes part of the formula, true or not. -/
theorem addKnown_spec (h : Sound F s) (hdec : s.trail.isDecided = false)
    (hk : ∀ l ∈ c, l.atom ≠ topAtom ∧ l.atom < s.atoms.size) (ht : c.normalise.hasTwins = false) :
    Solver.Yields (do
      let v := (← get).atoms.valuation
      if c.normalise.satisfied v then return .satisfied
      Solver.addReduced (c.normalise.filter fun l => (v.valueOf l.atom).isNone)) s
        (fun _ t => Built (F ++ [c]) s t) fun e t => e = .store .storageExhausted ∧ Grown F s t := by
  have hk' : ∀ l ∈ c.normalise, l.atom ≠ topAtom ∧ l.atom < s.atoms.size :=
    fun l hl => hk l (Clause.mem_normalise.mp hl)
  simp only [Solver.yields_bind, Solver.yields_get]
  cases hsat : c.normalise.satisfied s.atoms.valuation with
  | true =>
    obtain ⟨l, hl, hholds⟩ := List.any_eq_true.mp hsat
    obtain ⟨i, hi⟩ := h.agrees.listed (hk' l hl).1 (by simpa [Valuation.holds, AtomTable.valueOf] using hholds)
    exact Built.refl (h.join (Or.inl ⟨l, Clause.mem_normalise.mp hl, i, hi, Trail.hasLevel_zero_of_isDecided hdec i⟩))
  | false =>
    have hent : Entails (F ++ [c]) (s.reduced c.normalise) := by
      refine h.entails_reduced (fun d hd => List.mem_append_left _ hd) ?_ hdec hsat fun l hl => (hk' l hl).1
      exact (entails_of_mem (List.mem_append_right _ (List.mem_singleton_self c))).weaken fun l =>
        Clause.mem_normalise.mpr
    have hsub : ∀ l ∈ s.reduced c.normalise, l ∈ c.normalise := fun l hl => (List.mem_filter.mp hl).1
    have hnone : ∀ l ∈ s.reduced c.normalise, s.atoms.valueOf l.atom = none := fun l hl =>
      Option.isNone_iff_eq_none.mp (List.mem_filter.mp hl).2
    have hnodup : ((s.reduced c.normalise).map (·.atom)).Nodup :=
      ((Clause.ordered_normalise c).nodup ht).sublist (List.filter_sublist.map _)
    exact addReduced_spec h hdec (fun l hl => hk' l (hsub l hl)) hnone hnodup hent fun l hl =>
      Clause.mem_normalise.mp (hsub l hl)

/-- A clause that is added is part of the formula from then on; if it is refused, the formula stays as it was, and only
tautologies are refused as tautologies. -/
theorem addClause_spec (h : Sound F s) (c : Clause) :
    Solver.Yields (Solver.addClause c) s (fun _ t => Built (F ++ [c]) s t) fun e t =>
      Grown F s t ∧ (e = .clause .tautology → ∃ l ∈ c, -l ∈ c ∧ l.atom < t.atoms.size) := by
  simp only [Solver.addClause, Solver.yields_bind, Solver.yields_get]
  cases hdec : s.trail.isDecided with
  | true => exact ⟨Grown.refl h, fun he => by cases he⟩
  | false =>
    simp only [Bool.false_eq_true, if_false, Solver.yields_bind, Solver.yields_get]
    cases hd : s.defect c with
    | some cause =>
      refine ⟨Grown.refl h, fun he => ?_⟩
      cases he
      exact twins_of_defect h hd
    | none =>
      obtain ⟨hknown, htwins⟩ := known_of_defect_none h hd
      refine Solver.yields_bind.mpr (Solver.yields_modify.mpr ?_)
      refine (addKnown_spec h.beginInput.sound hdec hknown htwins).imp (fun r t ht => h.beginInput.toBuilt.trans ht) ?_
      rintro e t ⟨rfl, ht⟩
      exact ⟨h.beginInput.trans ht, fun he => by cases he⟩

end ClauseLearning
