import ClauseLearning.Proofs.Rounds

/-!
# Propagation is unit propagation

The unit closure of a solver (`UnitClosure`) is the least set of literals with those on the trail and with each literal
of a stored clause whose other literals are false in it. `propagate_eq_unit_closure` says that propagation at the start
of a round finds nothing false just if the closure is `Coherent`, that the trail is the closure then, and that the
clause it gives otherwise is false.

What propagation adds to the trail is in the closure, by induction on the position (`Spread.unitClosure`). Conversely,
where nothing waits for propagation, the trail is closed (`Sound.listed_of_unit`): a clause whose literals but one are
false has a watched literal among these, which was propagated and is guarded by the other. As the closure does not
depend on any order, neither does the outcome (`Sound.sameOutcome`).
-/

namespace ClauseLearning

/-- The literals that come of those on the trail by unit propagation. -/
inductive UnitClosure (s : Solver) : Literal → Prop
  /-- A literal on the trail. -/
  | trail {l : Literal} (h : s.trail.Lists l) : UnitClosure s l
  /-- A literal of a stored clause of which the negations of the other ones come of the trail. -/
  | unit {key : ClauseKey} {c : Array Literal} {l : Literal} (hc : s.clauses.find key = some c) (hl : l ∈ c)
      (h : ∀ m ∈ c, m ≠ l → UnitClosure s (-m)) : UnitClosure s l

/-- Unit propagation comes neither to a literal and its negation nor to a false clause. -/
structure Coherent (s : Solver) : Prop where
  consistent : ∀ l : Literal, ¬(UnitClosure s l ∧ UnitClosure s (-l))
  unfalsified : ∀ (key : ClauseKey) (c : Array Literal), s.clauses.find key = some c → ∃ l ∈ c, ¬UnitClosure s (-l)

/-- Unit propagation of one solver is complete in the other. -/
structure Completed (s t : Solver) : Prop where
  /-- The trail is the unit closure. -/
  trail : ∀ l : Literal, t.trail.Lists l ↔ UnitClosure s l
  /-- Nothing waits for propagation. -/
  exhausted : t.trail.head = t.trail.literals.size
  /-- No stored clause is false, and none has one open literal and is false otherwise. -/
  quiet : ∀ (key : ClauseKey) (c : StoredClause), t.clauses.get key = .ok c →
    c.clause.falsified t.atoms.valuation = false ∧ c.clause.asserted t.atoms.valuation = none

/-- Propagation comes to a stored clause that is false. -/
def Conflicts (s : Solver) : Prop :=
  ∃ key t c, Solver.propagate s = .ok (some key) t ∧ t.clauses.get key = .ok c ∧
    c.clause.falsified t.atoms.valuation = true

/-- The same literals are on the trails and the same clauses are stored, whatever the order of literals. -/
structure Rearranged (s s' : Solver) : Prop where
  trail : ∀ l : Literal, s.trail.Lists l ↔ s'.trail.Lists l
  clauses : s.clauses.Reordered s'.clauses

/-- The watch lists hold the same, each in an order of its own. -/
structure Watches.Shuffled (w w' : Watches) : Prop where
  size : w'.lists.size = w.lists.size
  binary : ∀ l : Literal, (w'.binary l).Perm (w.binary l)
  long : ∀ l : Literal, (w'.long l).Perm (w.long l)

/-- Propagation of both solvers comes to a conflict, or to the same values. -/
def SameOutcome (s s' : Solver) : Prop :=
  (Conflicts s ∧ Conflicts s') ∨
    ∃ t t', Solver.propagate s = .ok none t ∧ Solver.propagate s' = .ok none t' ∧ t'.atoms.valueOf = t.atoms.valueOf

variable {config : Config} {F F' : List Clause} {s s' t t' : Solver} {i : Nat} {l : Literal} {key : ClauseKey}
  {c : Array Literal}

/-! ## The closure -/

theorem UnitClosure.mono (hs : Rearranged s s') (h : UnitClosure s l) : UnitClosure s' l := by
  induction h with
  | trail hl => exact .trail ((hs.trail _).mp hl)
  | unit hc hl _ ih =>
    obtain ⟨d, hd, hp⟩ := hs.clauses.kept hc
    exact .unit hd (hp.mem_iff.mpr hl) fun m hm hne => ih m (hp.mem_iff.mp hm) hne

theorem Rearranged.symm (h : Rearranged s s') : Rearranged s' s := ⟨fun l => (h.trail l).symm, h.clauses.symm⟩

/-- The closure does not depend on any order. -/
theorem Rearranged.unitClosure_iff (h : Rearranged s s') : UnitClosure s l ↔ UnitClosure s' l :=
  ⟨.mono h, .mono h.symm⟩

/-- What is on the trail after propagation is in the closure. -/
theorem Spread.unitClosure (h : Spread s t) (hs : Sound F s) (ht : Sound F t) (hi : t.trail.literals[i]? = some l) :
    UnitClosure s l := by
  induction i using Nat.strongRecOn generalizing l with
  | _ i ih =>
    rcases ht.justified hi with ⟨-, k, hk⟩ | ⟨key, c, -, hc, hf⟩
    · -- no level has been opened, so this decision was made before
      rw [h.starts] at hk
      have hold := Array.getElem?_eq_getElem (hs.agrees.layered.inside hk)
      cases hi.symm.trans (h.literals hold)
      exact .trail ⟨i, hold⟩
    · obtain ⟨d, hd, hp⟩ := h.clauses.stored hc
      refine .unit hd (hp.mem_iff.mp hf.mem) fun m hm hne => ?_
      obtain ⟨j, hj, hjm⟩ := hf.others m (hp.mem_iff.mpr hm) hne
      exact ih j hj hjm

/-- Where nothing waits for propagation, the only literal of a clause that is not false is true. -/
theorem Sound.listed_of_unit (h : Sound F t) (hh : t.trail.head = t.trail.literals.size)
    (hc : t.clauses.find key = some c) (hl : l ∈ c) (hothers : ∀ m ∈ c, m ≠ l → t.trail.Lists (-m)) :
    t.trail.Lists l := by
  by_cases h2 : 2 ≤ c.size
  · -- of the two watched literals, one is not `l`
    obtain ⟨k, m, hp, hkl⟩ := (h.proper hc).exists_pair_ne h2 l
    obtain ⟨j, hj⟩ := hothers k hp.mem hkl
    have hlt := (Array.getElem?_eq_some_iff.mp hj).1
    obtain ⟨i, hi, -⟩ := (h.guarded hc).pair k m hp j (by omega) hj
    by_cases hm : m = l
    · exact hm ▸ ⟨i, hi⟩
    · obtain ⟨i', hi'⟩ := hothers m hp.symm.mem hm
      exact (h.agrees.not_both hi hi').elim
  · have hpos := (h.proper hc).fits.size_pos
    obtain ⟨m, rfl⟩ := Array.size_eq_one_iff.mp (show c.size = 1 by omega)
    obtain ⟨i, hi, -⟩ := (h.guarded hc).unit m rfl
    exact Array.mem_singleton.mp hl ▸ ⟨i, hi⟩

/-- What is in the closure is on the trail where propagation has left nothing. -/
theorem UnitClosure.listed (hu : UnitClosure s l) (h : Spread s t) (ht : Sound F t)
    (hh : t.trail.head = t.trail.literals.size) : t.trail.Lists l := by
  induction hu with
  | trail hl => exact hl.imp fun _ hi => h.literals hi
  | unit hc hl _ ih =>
    obtain ⟨d, hd, hp⟩ := h.clauses.kept hc
    exact ht.listed_of_unit hh hd (hp.mem_iff.mpr hl) fun m hm hne => ih m (hp.mem_iff.mp hm) hne

/-! ## The outcome -/

/-- A clause asserts its only literal that is not false, if that is open. -/
theorem Clause.asserted_spec {d : Clause} {v : Valuation} (h : d.asserted v = some l) :
    l ∈ d ∧ v[l.atom]? = some none ∧ ∀ m ∈ d, m ≠ l → v.fails m = true := by
  unfold Clause.asserted at h
  split at h
  · rename_i k hk
    split at h
    · rename_i hv
      cases h
      have hmem : ∀ m, m ∈ d ∧ v.fails m = false ↔ m = l := fun m => by
        have hm : m ∈ d.filter (fun k => !v.fails k) ↔ m = l := by rw [hk, List.mem_singleton]
        rwa [List.mem_filter, Bool.not_eq_true'] at hm
      refine ⟨((hmem l).mpr rfl).1, hv, fun m hm hne => ?_⟩
      by_contra hf
      exact hne ((hmem m).mp ⟨hm, by simpa using hf⟩)
    · cases h
  · cases h

theorem Spread.completed (h : Spread s t) (hs : Sound F s) (ht : Sound F t)
    (hh : t.trail.head = t.trail.literals.size) : Completed s t where
  trail l := ⟨fun ⟨_, hi⟩ => h.unitClosure hs ht hi, fun hu => hu.listed h ht hh⟩
  exhausted := hh
  quiet key c hg := by
    have hc := ClauseStore.find_of_get hg
    have hfails : ∀ {m}, m ∈ c.clause → t.atoms.valuation.fails m = true → t.trail.Lists (-m) := fun hm =>
      (ht.agrees.fails_iff ((ht.proper hc).known _ (Array.mem_toList_iff.mp hm)).1).mp
    constructor
    · -- of a false clause the first literal would be true as well
      rw [Bool.eq_false_iff]
      intro hf
      have hall : ∀ m ∈ c.literals, t.trail.Lists (-m) := fun m hm =>
        hfails (Array.mem_toList_iff.mpr hm) (List.all_eq_true.mp hf m (Array.mem_toList_iff.mpr hm))
      have hmem := Array.mem_of_getElem? (Array.getElem?_eq_getElem (ht.proper hc).fits.size_pos)
      obtain ⟨i, hi⟩ := ht.listed_of_unit hh hc hmem fun m hm _ => hall m hm
      obtain ⟨j, hj⟩ := hall _ hmem
      exact ht.agrees.not_both hi hj
    · rw [Option.eq_none_iff_forall_ne_some]
      intro l hl
      obtain ⟨hmem, hopen, hothers⟩ := Clause.asserted_spec hl
      obtain ⟨i, hi⟩ := ht.listed_of_unit hh hc (Array.mem_toList_iff.mp hmem) fun m hm hne =>
        hfails (Array.mem_toList_iff.mpr hm) (hothers m (Array.mem_toList_iff.mpr hm) hne)
      have hv := ht.agrees.holds hi
      rw [AtomTable.valueOf, Valuation.valueOf, hopen] at hv
      cases hv

/-- Where propagation is complete, the closure is free of contradictions. -/
theorem Completed.coherent (h : Completed s t) (hst : Spread s t) (ht : Sound F t) : Coherent s where
  consistent l := by
    rintro ⟨hl, hn⟩
    obtain ⟨i, hi⟩ := (h.trail l).mpr hl
    obtain ⟨j, hj⟩ := (h.trail (-l)).mpr hn
    exact ht.agrees.not_both hi hj
  unfalsified key c hc := by
    by_contra hall
    push Not at hall
    obtain ⟨d, hd, hp⟩ := hst.clauses.kept hc
    obtain ⟨e, hg, rfl⟩ := ClauseStore.find_eq_some_iff.mp hd
    have hf : e.clause.falsified t.atoms.valuation = true := by
      refine List.all_eq_true.mpr fun m hm => ?_
      have hm := Array.mem_toList_iff.mp hm
      exact (ht.agrees.fails_iff ((ht.proper hd).known m hm).1).mpr ((h.trail (-m)).mpr (hall m (hp.mem_iff.mp hm)))
    rw [(h.quiet key e hg).1] at hf
    cases hf

/-- The clause of a conflict is false in the closure. -/
theorem Conflict.not_coherent (h : Conflict t key c) (hst : Spread s t) (hs : Sound F s) (ht : Sound F t) :
    ¬Coherent s := by
  intro hcoherent
  obtain ⟨d, hd, hp⟩ := hst.clauses.stored h.find
  obtain ⟨l, hl, hn⟩ := hcoherent.unfalsified key d hd
  obtain ⟨i, hi⟩ := h.falsified l (hp.mem_iff.mpr hl)
  exact hn (hst.unitClosure hs ht hi)

/-- Propagation is complete, or comes to a conflict. -/
theorem Sound.propagate_cases (h : Sound F s) :
    (Coherent s ∧ ∃ t, Solver.propagate s = .ok none t ∧ Sound F t ∧ Completed s t) ∨ ¬Coherent s ∧ Conflicts s := by
  obtain ⟨r, t, hr, ht, hst, hprop⟩ := (propagate_spec h).exists_ok
  cases r with
  | none =>
    have hcompleted := hst.completed h ht hprop
    exact Or.inl ⟨hcompleted.coherent hst ht, t, hr, ht, hcompleted⟩
  | some key =>
    obtain ⟨c, hconflict⟩ := hprop
    obtain ⟨e, hg, rfl⟩ := ClauseStore.find_eq_some_iff.mp hconflict.find
    refine Or.inr ⟨hconflict.not_coherent hst h ht, key, t, e, hr, hg, List.all_eq_true.mpr fun m hm => ?_⟩
    have hm := Array.mem_toList_iff.mp hm
    exact (ht.agrees.fails_iff ((ht.proper hconflict.find).known m hm).1).mpr (hconflict.falsified m hm)

theorem Rearranged.coherent (h : Rearranged s s') (hs : Coherent s) : Coherent s' where
  consistent l := by
    rw [← h.unitClosure_iff, ← h.unitClosure_iff]
    exact hs.consistent l
  unfalsified key d hd := by
    obtain ⟨c, hc, hp⟩ := h.clauses.stored hd
    obtain ⟨l, hl, hn⟩ := hs.unfalsified key c hc
    exact ⟨l, hp.mem_iff.mpr hl, fun hu => hn (h.unitClosure_iff.mpr hu)⟩

/-- The values after complete propagation do not depend on any order. -/
theorem Completed.valueOf_eq (h : Completed s t) (h' : Completed s' t') (hs : Rearranged s s') (ht : Sound F t)
    (ht' : Sound F' t') : t'.atoms.valueOf = t.atoms.valueOf := by
  funext x
  by_cases hx : x = topAtom
  · rw [hx, ht.agrees.top, ht'.agrees.top]
  · ext p
    have hl : Literal.atom ⟨x, p⟩ ≠ topAtom := hx
    rw [show t'.atoms.valueOf x = some p ↔ _ from ht'.agrees.value_iff hl,
      show t.atoms.valueOf x = some p ↔ _ from ht.agrees.value_iff hl]
    exact (h'.trail _).trans (hs.unitClosure_iff.symm.trans (h.trail _).symm)

/-- The outcome of propagation does not depend on any order. -/
theorem Sound.sameOutcome (h : Sound F s) (h' : Sound F' s') (hs : Rearranged s s') : SameOutcome s s' := by
  rcases h.propagate_cases with ⟨hc, t, hr, ht, hcompleted⟩ | ⟨hc, hconflicts⟩
  · rcases h'.propagate_cases with ⟨-, t', hr', ht', hcompleted'⟩ | ⟨hc', -⟩
    · exact Or.inr ⟨t, t', hr, hr', hcompleted.valueOf_eq hcompleted' hs ht ht'⟩
    · exact absurd (hs.coherent hc) hc'
  · rcases h'.propagate_cases with ⟨hc', -⟩ | ⟨-, hconflicts'⟩
    · exact absurd (hs.symm.coherent hc') hc
    · exact Or.inl ⟨hconflicts, hconflicts'⟩

/-- Watch lists may be put in another order. -/
theorem Sound.shuffle {w : Watches} (h : Sound F s) (hw : s.watches.Shuffled w) : Sound F { s with watches := w } where
  agrees := h.agrees
  keyed := h.keyed
  proper := h.proper
  watched :=
    { size := hw.size.trans h.watched.size
      binary := (hw.binary _).mem_iff.trans h.watched.binary
      long := fun hc => by
        rw [← h.watched.long hc, ← Array.count_toList, ← Array.count_toList]
        exact (Array.perm_iff_toList_perm.mp (hw.long _)).count_eq _
      issued := fun hm => h.watched.issued ((hw.long _).mem_iff.mp hm)
      nodup := fun l => (Array.perm_iff_toList_perm.mp (hw.binary l)).nodup_iff.mpr (h.watched.nodup l) }
  justified := h.justified
  entailed := h.entailed
  covered := h.covered
  refuted := h.refuted
  clean := h.clean
  guarded := h.guarded

/-- At the start of each round, propagation comes to a conflict just if the unit closure has a contradiction, and
otherwise the trail becomes the closure. Neither the order of watch lists nor that of the literals in clauses matters,
as long as the watch lists are those of the clauses. -/
theorem propagate_eq_unit_closure (h : AtRound config s) :
    ((∃ t, Solver.propagate s = .ok none t) ↔ Coherent s) ∧
      (∀ t, Solver.propagate s = .ok none t → Completed s t) ∧ (¬Coherent s → Conflicts s) ∧
      (∀ w, s.watches.Shuffled w → SameOutcome s { s with watches := w }) ∧
      ∀ F s', Sound F s' → Rearranged s s' → SameOutcome s s' := by
  obtain ⟨F, hs, -, -⟩ := h.sound
  refine ⟨?_, fun t ht => ?_, fun hc => ?_, fun w hw => ?_, fun F' s' hs' hr => hs.sameOutcome hs' hr⟩
  · rcases hs.propagate_cases with ⟨hc, t, hr, -, -⟩ | ⟨hc, key, t, -, hr, -⟩
    · exact iff_of_true ⟨t, hr⟩ hc
    · refine iff_of_false (fun ⟨t', hr'⟩ => ?_) hc
      rw [hr] at hr'
      cases hr'
  · obtain ⟨hsound, hst, hh⟩ := (propagate_spec hs).of_ok ht
    exact hst.completed hs hsound hh
  · exact (hs.propagate_cases.resolve_left fun ⟨hcoherent, _⟩ => hc hcoherent).2
  · exact hs.sameOutcome (hs.shuffle hw) ⟨fun _ => Iff.rfl, .refl _⟩

/-- After a decision, from which a literal follows by each of two clauses, and another decision, from which nothing
follows. -/
theorem propagate_eq_unit_closure_decided : AtRound default decidedTwice ∧ Coherent decidedTwice ∧
    ∃ t, Solver.propagate decidedTwice = .ok none t ∧ Completed decidedTwice t := by
  obtain ⟨hcoherent, hcompleted, -⟩ := propagate_eq_unit_closure atRound_decidedTwice
  have hr : (Solver.answer Solver.propagate decidedTwice).toOption = some none := by
    obtain ⟨h1, h2⟩ := normalise_twoClauses
    simp only [decidedTwice, twoClauses, replay, Session.makeAll, List.foldl, Session.make, Solver.addClause,
      Solver.defect, h1, h2]
    decide +kernel
  obtain ⟨t, ht⟩ := Solver.exists_ok_of_answer hr
  exact ⟨atRound_decidedTwice, hcoherent.mp ⟨t, ht⟩, t, ht, hcompleted t ht⟩

end ClauseLearning
