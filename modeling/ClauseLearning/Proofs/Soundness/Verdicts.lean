import ClauseLearning.Proofs.Soundness.History

/-!
# The verdicts of a solve are right

Whatever was called before, and for whatever parameters: if a solve answers that there is no model, no assignment makes
all accepted clauses true (`not_satisfiable_of_solve`). If it answers that there is one, and nothing was added after
such an answer before, then all atoms have values, and these make all accepted clauses true, and the tautologies that
were passed over (`model_of_solve`). The second rests on the guards of the watched literals: where nothing waits for
propagation and every atom has a value, each stored clause has a true literal (`Sound.exists_true`).
-/

namespace ClauseLearning

variable {F : List Clause} {s : Solver}

theorem eq_ok_of_toOption {ε α : Type} {r : Except ε α} {a : α} (h : r.toOption = some a) : r = .ok a := by
  cases r with
  | error e => cases h
  | ok b => exact congrArg Except.ok (Option.some.inj h)

theorem Status.eq_unsatisfiable {status : Status} (h : status.report = .unsatisfiable) : status = .unsatisfiable := by
  cases status <;> first | rfl | cases h

theorem Status.eq_satisfiable {status : Status} (h : status.report = .satisfiable) : status = .satisfiable := by
  cases status <;> first | rfl | cases h

/-! ## No model -/

/-- If a solve answers that there is no model, no assignment makes all accepted clauses true. -/
theorem not_satisfiable_of_solve (config : Config) (calls : List Call) (clock : Nat → Nat) (rounds : Nat)
    (h : Solver.answer (Solver.solve clock rounds) (replay config calls).solver = .ok (some .unsatisfiable)) :
    ¬Satisfiable (replay config calls).log.accepted := by
  have hsolve := (solve_spec (faithful_replay config calls).sound clock rounds).run
    (P := fun r t => r = .ok (some .unsatisfiable) → Sound (replay config calls).log.accepted t ∧
      t.status = .unsatisfiable)
    (fun r t ht hr => ⟨ht.sound, Status.eq_unsatisfiable (ht.answer _ (by injection hr))⟩)
    fun e t _ hr => by cases hr
  obtain ⟨hsound, hstatus⟩ := hsolve h
  exact hsound.refuted hstatus

/-- The four clauses of two atoms have no model, which takes a decision and a learned clause to find. -/
theorem not_satisfiable_of_solve_square :
    ¬Satisfiable (replay default [.ensureAtoms 2, .addClause [⟨1, true⟩, ⟨2, true⟩], .addClause [⟨1, true⟩, ⟨2, false⟩],
      .addClause [⟨1, false⟩, ⟨2, true⟩], .addClause [⟨1, false⟩, ⟨2, false⟩]]).log.accepted := by
  have h1 : Clause.normalise [⟨1, true⟩, ⟨2, true⟩] = [⟨1, true⟩, ⟨2, true⟩] := Clause.Ordered.normalise (by decide)
  have h2 : Clause.normalise [⟨1, true⟩, ⟨2, false⟩] = [⟨1, true⟩, ⟨2, false⟩] := Clause.Ordered.normalise (by decide)
  have h3 : Clause.normalise [⟨1, false⟩, ⟨2, true⟩] = [⟨1, false⟩, ⟨2, true⟩] := Clause.Ordered.normalise (by decide)
  have h4 : Clause.normalise [⟨1, false⟩, ⟨2, false⟩] = [⟨1, false⟩, ⟨2, false⟩] := Clause.Ordered.normalise (by decide)
  refine not_satisfiable_of_solve default _ (fun _ => 0) 5 (eq_ok_of_toOption ?_)
  simp only [replay, Session.makeAll, List.foldl, Session.make, Solver.addClause, Solver.defect, h1, h2, h3, h4]
  decide +kernel

/-! ## A model -/

/-- Where every atom has a value and nothing waits for propagation, a stored clause has a true literal. -/
theorem Sound.exists_true (h : Sound F s) (hc : Complete s) {key : ClauseKey} {d : Array Literal}
    (hk : s.clauses.find key = some d) : ∃ l ∈ d, s.trail.Lists l := by
  have hproper := h.proper hk
  by_cases h2 : 2 ≤ d.size
  · -- of the watched literals, the second guards the first
    have hp : Pair d d[0] d[1] := Or.inl ⟨Array.getElem?_eq_getElem _, Array.getElem?_eq_getElem _⟩
    obtain ⟨hne, hlt⟩ := hproper.known d[0] (Array.getElem_mem _)
    cases hv : s.atoms.valueOf (d[0]).atom with
    | none => exact absurd hv (hc.valued _ hlt)
    | some b =>
      by_cases hb : b = (d[0]).polarity
      · exact ⟨d[0], Array.getElem_mem _, h.agrees.listed hne (by rw [hv, hb])⟩
      · obtain ⟨j, hj⟩ := (h.agrees.value_neg_iff hne).mp (by rw [hv, Bool.eq_not_of_ne hb])
        have hhead : j < s.trail.head := by
          rw [hc.exhausted]
          exact (Array.getElem?_eq_some_iff.mp hj).1
        obtain ⟨i, hi, -⟩ := (h.guarded hk).pair _ _ hp j hhead hj
        exact ⟨d[1], Array.getElem_mem _, i, hi⟩
  · have h1 : 0 < d.size := hproper.fits.size_pos
    have hunit : d = #[d[0]] := by
      refine Array.ext (by simp; omega) fun i hi hi' => ?_
      have : i = 0 := by omega
      subst this
      rfl
    obtain ⟨i, hi, -⟩ := (h.guarded hk).unit _ hunit
    exact ⟨d[0], Array.getElem_mem _, i, hi⟩

/-- Where every atom has a value and nothing waits for propagation, each clause of the formula has a true literal,
unless the formula is refuted. -/
theorem Sound.satisfied (h : Sound F s) (hc : Complete s) (hs : s.status ≠ .unsatisfiable) {c : Clause} (hF : c ∈ F) :
    c.satisfied s.atoms.valuation = true := by
  have hlisted : ∃ l ∈ c, s.trail.Lists l := by
    rcases h.covered c hF with ⟨l, hl, i, hi, -⟩ | ⟨key, d, -, hd, hsub⟩ | hu
    · exact ⟨l, hl, i, hi⟩
    · obtain ⟨l, hl, hlists⟩ := h.exists_true hc hd
      exact ⟨l, hsub l hl, hlists⟩
    · exact absurd hu hs
  obtain ⟨l, hl, i, hi⟩ := hlisted
  exact List.any_eq_true.mpr ⟨l, hl, (h.agrees.holds_iff (h.agrees.ne_top hi)).mpr ⟨i, hi⟩⟩

theorem holds_iff_valueOf {a : AtomTable} {l : Literal} :
    a.valuation.holds l = true ↔ a.valueOf l.atom = some l.polarity := by simp [Valuation.holds, AtomTable.valueOf]

/-- A tautology of atoms with values has a true literal. -/
theorem Complete.satisfied (hc : Complete s) {c : Clause} (ht : c.HasTwinsBelow s.atoms.size) :
    c.satisfied s.atoms.valuation = true := by
  obtain ⟨l, hl, hneg, hlt⟩ := ht
  cases hv : s.atoms.valueOf l.atom with
  | none => exact absurd hv (hc.valued _ hlt)
  | some b =>
    refine List.any_eq_true.mpr ?_
    by_cases hb : b = l.polarity
    · exact ⟨l, hl, holds_iff_valueOf.mpr (by rw [hv, hb])⟩
    · exact ⟨-l, hneg, holds_iff_valueOf.mpr (by rw [Literal.atom_neg, hv, Bool.eq_not_of_ne hb, Literal.polarity_neg])⟩

/-- The values of the atoms, where an atom without a value is false. -/
def Solver.assignment (s : Solver) : Assignment := fun x => (s.atoms.valueOf x).getD false

theorem Complete.valueOf_eq (hc : Complete s) {x : Nat} (hx : x < s.atoms.size) :
    s.atoms.valueOf x = some (s.assignment x) := by
  unfold Solver.assignment
  cases hv : s.atoms.valueOf x with
  | none => exact absurd hv (hc.valued x hx)
  | some b => rfl

/-- A true literal is true in the assignment. -/
theorem Clause.trueIn_of_satisfied {c : Clause} (h : c.satisfied s.atoms.valuation = true) : c.TrueIn s.assignment := by
  obtain ⟨l, hl, hholds⟩ := List.any_eq_true.mp h
  refine ⟨l, hl, ?_⟩
  rw [Literal.TrueIn, Solver.assignment, holds_iff_valueOf.mp hholds]
  rfl

/-! ## Listings of complete valuations -/

theorem filterMap_zipIdx_eq_map {xs : List (Option Bool)} {k : Nat} {σ : Assignment}
    (h : ∀ i < xs.length, xs[i]? = some (some (σ (k + i)))) :
    ((xs.zipIdx k).filterMap fun (value, x) => value.map fun b => (x, b)) =
      (List.range' k xs.length).map fun x => (x, σ x) := by
  induction xs generalizing k with
  | nil => rfl
  | cons y ys ih =>
    have hy : y = some (σ k) := by simpa using h 0 (by simp)
    have hys : ∀ i < ys.length, ys[i]? = some (some (σ (k + 1 + i))) := by
      intro i hi
      have := h (i + 1) (by simpa using hi)
      rwa [List.getElem?_cons_succ, show k + (i + 1) = k + 1 + i by omega] at this
    rw [List.zipIdx_cons, List.filterMap_cons, hy, List.length_cons, List.range'_succ, List.map_cons, ih hys]
    rfl

theorem Complete.getElem?_values (hc : Complete s) {i : Nat} (hi : i < s.atoms.valuation.values.length) :
    s.atoms.valuation.values[i]? = some (some (s.assignment (1 + i))) := by
  have hlt : 1 + i < s.atoms.valuation.size := by
    rw [Valuation.values, List.length_drop, Array.length_toList] at hi
    omega
  have hv := hc.valueOf_eq hlt
  rw [AtomTable.valueOf, Valuation.valueOf, Array.getElem?_eq_getElem hlt] at hv
  rw [Valuation.values, List.getElem?_drop, Array.getElem?_toList, Array.getElem?_eq_getElem hlt]
  exact congrArg some (by simpa using hv)

theorem length_values (s : Solver) : s.atoms.valuation.values.length = s.atomCount := by
  rw [Valuation.values, List.length_drop, Array.length_toList]
  rfl

/-- The model is the list of the values of all atoms. -/
theorem Complete.model_eq (hc : Complete s) (hs : s.status = .satisfiable) :
    s.model = some ((List.range' 1 s.atomCount).map s.assignment) := by
  rw [Solver.model, if_pos hs]
  refine congrArg some (List.ext_getElem? fun i => ?_)
  rw [List.getElem?_map, List.getElem?_map]
  by_cases hi : i < s.atomCount
  · rw [hc.getElem?_values (by rwa [length_values]), List.getElem?_range' hi]
    simp
  · rw [List.getElem?_eq_none (by rw [length_values]; omega), List.getElem?_eq_none (by simpa using hi)]
    rfl

/-- The atoms from `1` on are listed once each, in order, with their values. -/
theorem Complete.pairs_eq (hc : Complete s) :
    s.atoms.valuation.pairs = (List.range' 1 s.atomCount).map fun x => (x, s.assignment x) := by
  have hdrop : s.atoms.valuation.toList.zipIdx.drop 1 = s.atoms.valuation.values.zipIdx 1 := by
    rw [Valuation.values]
    cases s.atoms.valuation.toList with
    | nil => rfl
    | cons _ _ => rfl
  rw [Valuation.pairs, hdrop, ← length_values]
  exact filterMap_zipIdx_eq_map fun i hi => hc.getElem?_values hi

theorem Complete.text_eq (hc : Complete s) :
    s.atoms.valuation.text = Clause.dimacs ((List.range' 1 s.atomCount).map fun x => ⟨x, s.assignment x⟩) := by
  rw [Valuation.text, hc.pairs_eq, Clause.dimacs, List.foldl_map, List.foldl_map]

/-- If a solve answers that there is a model, and nothing was added after such an answer before, then all atoms have
values, each clause that was accepted, as it was given, and each tautology that was passed over has a true literal, and
the listings are those of the values of all atoms. -/
theorem model_of_solve (config : Config) (calls : List Call) (clock : Nat → Nat) (rounds : Nat)
    (hc : Settles (.ofConfig config) calls)
    (h : Solver.answer (Solver.solve clock rounds) (replay config calls).solver = .ok (some .satisfiable)) :
    let clauses := (replay config calls).log.accepted ++ (replay config calls).log.tautologies
    let t := Solver.after (Solver.solve clock rounds) (replay config calls).solver
    (∀ x, 1 ≤ x → x ≤ t.atomCount → t.atoms.valueOf x = some (t.assignment x)) ∧
      (∀ c ∈ clauses, c.satisfied t.atoms.valuation = true) ∧
      Models t.assignment clauses ∧
      t.model = some ((List.range' 1 t.atomCount).map t.assignment) ∧
      t.modelSatisfies clauses = true ∧
      t.atoms.valuation.text = Clause.dimacs ((List.range' 1 t.atomCount).map fun x => ⟨x, t.assignment x⟩) := by
  intro clauses t
  have hfaithful := faithful_replay config calls
  have hmade : (replay config calls).make (.solve clock rounds) |>.Faithful config := hfaithful.make _
  have hstatus : t.status = .satisfiable :=
    (solve_spec hfaithful.sound clock rounds).run
      (P := fun r t => r = .ok (some .satisfiable) → t.status = .satisfiable)
      (fun r t ht hr => Status.eq_satisfiable (ht.answer _ (by injection hr))) (fun e t _ hr => by cases hr) h
  have hcomplete : Complete t :=
    hfaithful.complete_make (.solve clock rounds) (complete_replay hc) (fun hb => by cases hb) hstatus
  have hne : t.status ≠ .unsatisfiable := by rw [hstatus]; simp
  have hsatisfied : ∀ c ∈ clauses, c.satisfied t.atoms.valuation = true := by
    intro c hm
    rcases List.mem_append.mp hm with hm | hm
    · exact hmade.sound.satisfied hcomplete hne hm
    · exact hcomplete.satisfied (hmade.twins c hm)
  refine ⟨fun x hx hle => hcomplete.valueOf_eq ?_, hsatisfied, fun c hm => Clause.trueIn_of_satisfied (hsatisfied c hm),
    hcomplete.model_eq hstatus, ?_, hcomplete.text_eq⟩
  · rw [Solver.atomCount] at hle
    omega
  · rw [Solver.modelSatisfies, hstatus, List.all_eq_true.mpr hsatisfied]
    rfl

/-- Three of the four clauses of two atoms have a model, which a decision leads to. -/
theorem model_of_solve_triangle :
    let m := replay default [.ensureAtoms 2, .addClause [⟨1, true⟩, ⟨2, true⟩], .addClause [⟨1, true⟩, ⟨2, false⟩],
      .addClause [⟨1, false⟩, ⟨2, true⟩]]
    (Solver.after (Solver.solve (fun _ => 0) 5) m.solver).modelSatisfies
        (m.log.accepted ++ m.log.tautologies) = true := by
  have h1 : Clause.normalise [⟨1, true⟩, ⟨2, true⟩] = [⟨1, true⟩, ⟨2, true⟩] := Clause.Ordered.normalise (by decide)
  have h2 : Clause.normalise [⟨1, true⟩, ⟨2, false⟩] = [⟨1, true⟩, ⟨2, false⟩] := Clause.Ordered.normalise (by decide)
  have h3 : Clause.normalise [⟨1, false⟩, ⟨2, true⟩] = [⟨1, false⟩, ⟨2, true⟩] := Clause.Ordered.normalise (by decide)
  refine (model_of_solve default _ (fun _ => 0) 5 ?_ (eq_ok_of_toOption ?_)).2.2.2.2.1
  · simp [Settles, Session.make, Session.ofConfig]
  · simp only [replay, Session.makeAll, List.foldl, Session.make, Solver.addClause, Solver.defect, h1, h2, h3]
    decide +kernel

end ClauseLearning
