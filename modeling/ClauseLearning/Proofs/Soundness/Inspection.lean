import ClauseLearning.Proofs.Soundness.Assignment
import ClauseLearning.Solver.Propagation

/-!
# The inspection of a watched clause

When a watched literal becomes false, the clause is inspected. `inspect_spec` says what comes of it, with one case for
each verdict (`Inspection`): the clause is true, a watch can be moved, one literal is left or none is. The clause that
is put back has the same literals (`Sound.face`, `Sound.move`), and nothing that is known of it is lost.
-/

namespace ClauseLearning

variable {F : List Clause} {s : Solver} {a : AtomTable} {t : Trail} {v : Valuation} {i j n : Nat} {f l first : Literal}
  {key : ClauseKey} {c d : Array Literal}

/-! ## The search for a literal that is not false -/

theorem findFree_some (h : findFree v d i = some j) : i ≤ j ∧ ∃ l, d[j]? = some l ∧ v.fails l = false := by
  fun_induction findFree v d i with
  | case1 i hi hf ih =>
    obtain ⟨hj, hl⟩ := ih h
    exact ⟨by omega, hl⟩
  | case2 i hi hf =>
    cases h
    exact ⟨Nat.le_refl _, _, Array.getElem?_eq_getElem hi, by simpa using hf⟩
  | case3 i hi => cases h

theorem findFree_none (h : findFree v d i = none) (hj : i ≤ j) (hl : d[j]? = some l) : v.fails l = true := by
  fun_induction findFree v d i with
  | case1 i hi hf ih =>
    rcases Nat.eq_or_lt_of_le hj with rfl | hlt
    · rw [Array.getElem?_eq_getElem hi] at hl
      cases hl
      exact hf
    · exact ih h hlt
  | case2 i hi hf => cases h
  | case3 i hi =>
    have := (Array.getElem?_eq_some_iff.mp hl).1
    omega

/-! ## The verdicts -/

/-- A watch is moved to any literal of a clause with two watched ones. -/
theorem StoredClause.moveWatch_eq_some {c : StoredClause} {r : StoredClause × Verdict} : c.moveWatch i = some r ↔
    1 < c.literals.size ∧ i < c.literals.size ∧ ∃ target, (c.literals.swapIfInBounds 1 i)[1]? = some target ∧
      ({ c with literals := c.literals.swapIfInBounds 1 i }, Verdict.move target) = r := by
  unfold moveWatch swap
  by_cases hi : 1 < c.literals.size ∧ i < c.literals.size
  · simp [Array.swapIfInBounds, hi.1, hi.2]
  · rw [dif_neg hi]
    simp only [Option.bind_eq_bind, Option.bind_none, reduceCtorEq, false_iff]
    exact fun h => hi ⟨h.1, h.2.1⟩

theorem StoredClause.face_perm (c : StoredClause) (l : Literal) :
    (c.face l).key = c.key ∧ (c.face l).literals.Perm c.literals := by
  unfold face
  split
  · exact ⟨rfl, swapIfInBounds_perm _ _ _⟩
  · exact ⟨rfl, .rfl⟩

/-- Whatever the verdict, a clause keeps its key and its literals. -/
theorem StoredClause.inspect_perm {c d : StoredClause} {atoms : AtomTable} {l : Literal} {verdict : Verdict}
    (h : c.inspect atoms l = some (d, verdict)) : d.key = c.key ∧ d.literals.Perm c.literals := by
  have hface := c.face_perm l
  have hmove : ∀ {i}, (c.face l).moveWatch i = some (d, verdict) → d.key = c.key ∧ d.literals.Perm c.literals := by
    intro i h
    obtain ⟨-, -, target, -, heq⟩ := moveWatch_eq_some.mp h
    cases heq
    exact ⟨hface.1, (swapIfInBounds_perm _ _ _).trans hface.2⟩
  unfold inspect at h
  simp only at h
  split at h
  · split at h
    · split at h
      · cases h; exact hface
      · split at h
        · exact hmove h
        · split at h <;> cases h <;> exact hface
    · cases h; exact hface
  · cases h

/-- What the verdict on a clause says, of which `f` is a false watched literal, and what becomes of the clause. -/
inductive Inspection (a : AtomTable) (t : Trail) (f : Literal) (c d : Array Literal) : Verdict → Prop
  | keep {first : Literal} (hp : Pair c first f) (hd : Faced c d) (hfirst : t.Lists first) : Inspection a t f c d .keep
  | move {first target : Literal} (hp : Pair c first f) (hd : d.Perm c) (h0 : d[0]? = some first)
      (h1 : d[1]? = some target) (hfirst : ¬t.Lists first) (hmem : target ∈ c) (hwatch : ¬IsWatch c target)
      (htarget : ¬t.Lists (-target)) : Inspection a t f c d (.move target)
  | force {first : Literal} (hp : Pair c first f) (hd : Faced c d) (hfirst : a.valueOf first.atom = none)
      (hothers : ∀ m ∈ c, m ≠ first → t.Lists (-m)) : Inspection a t f c d (.force first)
  | conflict {first : Literal} (hp : Pair c first f) (hd : Faced c d) (hall : ∀ m ∈ c, t.Lists (-m)) :
      Inspection a t f c d .conflict

/-- The clause keeps its literals. -/
theorem Inspection.perm {verdict : Verdict} (h : Inspection a t f c d verdict) : d.Perm c := by
  cases h with
  | keep _ hd _ => exact hd.perm
  | move _ hd _ _ _ _ _ _ => exact hd
  | force _ hd _ _ => exact hd.perm
  | conflict _ hd _ => exact hd.perm

/-- A clause with a watched literal in second place. -/
theorem face_spec {e : StoredClause} (h2 : 2 ≤ e.literals.size) (hw : IsWatch e.literals f) :
    ∃ d first, e.face f = { e with literals := d } ∧ Faced e.literals d ∧ d[0]? = some first ∧ d[1]? = some f ∧
      Pair e.literals first f := by
  unfold StoredClause.face
  split
  · rename_i h0
    obtain ⟨hs0, hs1⟩ := getElem?_swap_first h2
    have h1 : e.literals[1]? = some e.literals[1] := Array.getElem?_eq_getElem h2
    exact ⟨_, e.literals[1], rfl, Or.inr ⟨h2, rfl⟩, hs0.trans h1, hs1.trans h0, Or.inr ⟨h0, h1⟩⟩
  · rename_i h0
    have h1 := hw.resolve_left h0
    refine ⟨e.literals, e.literals[0], rfl, Or.inl rfl, Array.getElem?_eq_getElem (by omega), h1, ?_⟩
    exact Or.inl ⟨Array.getElem?_eq_getElem (by omega), h1⟩

/-- The inspection of a longer clause of which a watched literal is false. -/
theorem inspect_spec {e : StoredClause} (h : Agrees a t) (hp : Proper key e.literals a.size)
    (h3 : 3 ≤ e.literals.size) (hw : IsWatch e.literals f) (hf : t.Lists (-f)) :
    ∃ d verdict, e.inspect a f = some ({ e with literals := d }, verdict) ∧ Inspection a t f e.literals d verdict := by
  obtain ⟨d, first, hface, hd, h0, h1, hpair⟩ := face_spec (by omega) hw
  have hmem : ∀ {m}, m ∈ d ↔ m ∈ e.literals := hd.perm.mem_iff
  have hpd : Proper key d a.size := hp.perm hd.perm (by omega)
  obtain ⟨hne, hlt⟩ := hp.known first hpair.mem
  -- the literals from the third on, if all of them are false
  have hrest : findFree a.valuation d 2 = none → ∀ m ∈ e.literals, m ≠ first → t.Lists (-m) := by
    intro hnone m hm hmf
    obtain ⟨j, hj⟩ := Array.mem_iff_getElem?.mp (hmem.mpr hm)
    match j with
    | 0 => rw [h0] at hj; cases hj; exact absurd rfl hmf
    | 1 => rw [h1] at hj; cases hj; exact hf
    | j + 2 => exact (h.fails_iff (hp.known m hm).1).mp (findFree_none hnone (by omega) hj)
  -- the watch is moved to the literal at a position that was found
  have hmove : ∀ i, findFree a.valuation d 2 = some i → ¬t.Lists first → ∃ d' verdict,
      StoredClause.moveWatch { e with literals := d } i = some ({ e with literals := d' }, verdict) ∧
        Inspection a t f e.literals d' verdict := by
    intro i hi hfirst
    obtain ⟨hi2, m, hm, hfail⟩ := findFree_some hi
    have hlt := (Array.getElem?_eq_some_iff.mp hm).1
    have hmd := Array.mem_of_getElem? hm
    have hsecond : (d.swapIfInBounds 1 i)[1]? = some m := by grind
    refine ⟨_, .move m, StoredClause.moveWatch_eq_some.mpr ⟨by simp only; omega, hlt, m, hsecond, rfl⟩, ?_⟩
    refine .move hpair ((swapIfInBounds_perm d 1 i).trans hd.perm) (by grind) hsecond hfirst (hmem.mp hmd) ?_ ?_
    · intro hwm
      rcases hd.isWatch_iff.mpr hwm with hj | hj <;> exact absurd (hpd.index_eq hj hm rfl) (by omega)
    · intro hl
      rw [(h.fails_iff (hp.known m (hmem.mp hmd)).1).mpr hl] at hfail
      cases hfail
  unfold StoredClause.inspect
  simp only [hface, h0, h1, if_true]
  rcases h.isOpen_cases hne hlt with ⟨ho, hv⟩ | ⟨ho, hv⟩ | ⟨ho, hv⟩ <;> rw [ho] <;> simp only
  · split
    · rename_i i hi
      exact hmove i hi fun ⟨j, hj⟩ => h.not_listed hv hj
    · rename_i hi
      exact ⟨_, _, rfl, .force hpair hd hv (hrest hi)⟩
  · exact ⟨_, _, rfl, .keep hpair hd hv⟩
  · split
    · rename_i i hi
      exact hmove i hi fun ⟨j, hj⟩ => hv.elim fun j' hj' => h.not_both hj hj'
    · rename_i hi
      refine ⟨_, _, rfl, .conflict hpair hd fun m hm => ?_⟩
      by_cases hmf : m = first
      · rw [hmf]; exact hv
      · exact hrest hi m hm hmf

/-! ## The clause put back -/

/-- A clause in place of one with the same literals, which may be watched by others. -/
theorem Sound.replace (h : Sound F s) {w : Watches} {store : ClauseStore} (hl : s.clauses.Later store)
    (hc : s.clauses.find key = some c) (hf : ∀ k, store.find k = if k = key then some d else s.clauses.find k)
    (hd : d.Perm c) (h2 : 2 ≤ c.size) (hw : Watched w store s.atoms.size)
    (hforce : ∀ {i l}, s.trail.literals[i]? = some l → Forces s.trail c i l → Forces s.trail d i l)
    (hg : ∀ k l, Pair d k l → Guards s.trail k l) : Sound F { s with clauses := store, watches := w } := by
  have hcases : ∀ {k e}, store.find k = some e → (k = key ∧ e = d) ∨ s.clauses.find k = some e := by
    intro k e he
    rw [hf] at he
    split at he
    · rename_i hk
      cases he
      exact Or.inl ⟨hk, rfl⟩
    · exact Or.inr he
  refine ⟨⟨h.agrees, hl.keyed, fun {k e} he => ?_, hw, fun {i l} hi => ?_,
    fun {k e} he => ?_, fun b hb => ?_, h.refuted, h.clean⟩, fun {k e} he => ?_⟩
  · rcases hcases he with ⟨rfl, rfl⟩ | he
    · exact (h.proper hc).perm hd h2
    · exact h.proper he
  · rcases h.justified hi with hdec | ⟨k, e, hk, he, hfe⟩
    · exact Or.inl hdec
    · refine Or.inr ⟨k, if k = key then d else e, hk, ?_, ?_⟩
      · rw [hf]
        split
        · rfl
        · exact he
      · split
        · rename_i hkk
          rw [hkk, hc] at he
          cases he
          exact hforce hi hfe
        · exact hfe
  · rcases hcases he with ⟨rfl, rfl⟩ | he
    · exact (h.entailed hc).weaken fun l hl => by
        rw [Array.mem_toList_iff] at hl ⊢
        exact hd.mem_iff.mpr hl
    · exact h.entailed he
  · rcases h.covered b hb with hl | ⟨k, e, hk, he, hsub⟩ | hs
    · exact Or.inl hl
    · refine Or.inr (Or.inl ⟨k, if k = key then d else e, hk, ?_, ?_⟩)
      · simp only [hf]
        split
        · rfl
        · exact he
      · split
        · rename_i hkk
          rw [hkk, hc] at he
          cases he
          exact fun l hl => hsub l (hd.mem_iff.mp hl)
        · exact hsub
    · exact Or.inr (Or.inr hs)
  · rcases hcases he with ⟨rfl, rfl⟩ | he
    · exact ⟨hg, fun l hl => by rw [← hd.size_eq, hl] at h2; simp at h2⟩
    · exact h.guarded he

section Put

variable {e : StoredClause} (hg : s.clauses.get key = .ok e)
include hg

/-- The store with the literals of a clause in another order. -/
theorem later_put (hk : s.clauses.Keyed) (h2 : 2 ≤ e.literals.size) :
    s.clauses.Later (s.clauses.put { e with literals := d }) ∧ ∀ k,
      (s.clauses.put { e with literals := d }).find k = if k = key then some d else s.clauses.find k := by
  have hkey := hk.key_eq hg
  have hget : s.clauses.get ({ e with literals := d } : StoredClause).key = .ok e := by
    rw [← hkey] at hg
    exact hg
  refine ⟨⟨ClauseStore.Keyed.put hget hk, fun hi => ClauseStore.issued_put hget hi⟩, fun k => ?_⟩
  rw [ClauseStore.find_put hget (ClauseStore.isUnit_of_size (ClauseStore.find_of_get hget) h2), ← hkey]

/-- A clause is put back with its first two literals swapped. -/
theorem Sound.face (h : Sound F s) (h2 : 2 ≤ e.literals.size) (hd : Faced e.literals d) :
    Sound F { s with clauses := s.clauses.put { e with literals := d } } := by
  obtain ⟨hl, hf⟩ := later_put (d := d) hg h.keyed h2
  have hc := ClauseStore.find_of_get hg
  refine h.replace hl hc hf hd.perm h2 (h.watched.face hl hc hf hd) (fun hi hfe => ?_) fun k l hp => ?_
  · exact ⟨hd.perm.mem_iff.mpr hfe.mem, fun m hm hne => hfe.others m (hd.perm.mem_iff.mp hm) hne,
      fun h3 => hd.isWatch_iff.mpr (hfe.watched (by rwa [hd.perm.size_eq] at h3))⟩
  · exact (h.guarded hc).pair k l (hd.pair_iff.mp hp)

/-- A clause is put back with another watched literal. It is no antecedent, as neither of those it watched is true. -/
theorem Sound.move {list list' : Array ClauseKey} {target : Literal}
    (h : Sound F { s with watches := s.watches.restoreLong f list }) (hwf : s.watches.covers f)
    (h3 : 3 ≤ e.literals.size) (hf : s.trail.Lists (-f)) (hp : Pair e.literals first f) (hd : d.Perm e.literals)
    (h0 : d[0]? = some first) (h1 : d[1]? = some target) (hfirst : ¬s.trail.Lists first)
    (hmem : target ∈ e.literals) (hwatch : ¬IsWatch e.literals target) (htarget : ¬s.trail.Lists (-target))
    (hlist : (key :: list'.toList).Perm list.toList) :
    Sound F { s with
      clauses := s.clauses.put { e with literals := d }
      watches := (s.watches.addLong target key).restoreLong f list' } := by
  have hc := ClauseStore.find_of_get hg
  obtain ⟨hl, hfind⟩ := later_put (d := d) hg h.keyed (by omega)
  have hproper := h.proper hc
  have hwt : s.watches.covers target := by
    simpa using h.watched.covers (hproper.known target hmem).2
  have hne : first ≠ f := fun he => hproper.ne_of_pair hp (congrArg Literal.atom he)
  have htf : target ≠ f := fun he => hwatch (hp.isWatch_iff.mpr (Or.inr he))
  have hwatch' : ∀ x, IsWatch d x ↔ x = target ∨ IsWatch e.literals x ∧ x ≠ f := by
    intro x
    rw [hp.isWatch_iff]
    simp only [IsWatch, h0, h1, Option.some.injEq]
    constructor
    · rintro (rfl | rfl)
      · exact Or.inr ⟨Or.inl rfl, hne⟩
      · exact Or.inl rfl
    · rintro (rfl | ⟨rfl | rfl, hx⟩)
      · exact Or.inr rfl
      · exact Or.inl rfl
      · exact absurd rfl hx
  have hw := h.watched.move hl hc hfind hwf hwt h3 hd.size_eq htf hwatch hwatch' hlist
  refine h.replace hl hc hfind hd (by omega) hw (fun {i l} hi hfe => ?_) fun k l hpd => ?_
  · rcases hp.isWatch_iff.mp (hfe.watched h3) with rfl | rfl
    · exact absurd ⟨i, hi⟩ hfirst
    · obtain ⟨j, hj⟩ := hf
      exact (h.agrees.not_both hi hj).elim
  · have hpd' : (k = first ∧ l = target) ∨ (k = target ∧ l = first) := by
      simpa only [Pair, h0, h1, Option.some.injEq, eq_comm, and_comm] using hpd
    rcases hpd' with ⟨rfl, rfl⟩ | ⟨rfl, rfl⟩
    · -- where the first literal is false and propagated, it was guarded by `f`, which is false
      intro j hj hk
      obtain ⟨i, hi, -⟩ := (h.guarded hc).pair k f hp j hj hk
      obtain ⟨j', hj'⟩ := hf
      exact (h.agrees.not_both hi hj').elim
    · intro j _ hk
      exact absurd ⟨j, hk⟩ htarget

end Put

end ClauseLearning
