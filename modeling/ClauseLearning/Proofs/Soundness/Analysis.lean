import ClauseLearning.Proofs.ClauseStore.Slots
import ClauseLearning.Proofs.Soundness.Resolution
import ClauseLearning.Proofs.Soundness.Storage
import ClauseLearning.Solver.Analysis

/-!
# Analysis of a conflict

An analysis derives a clause, bumps what was used for it, and learns it (`Solver.yields_analyse`). `analyse_asserts`
says what is learned from a conflict above level zero: the clause that resolution derives is stored under a fresh
key, at the highest level of its literals after the first (`Asserts`), or else no key was left for it. So a stored
clause asserts its first literal at the level gone back to (`Pending`). The clause is not guarded before the literal
is assigned; assigning it makes the solver sound again (`Pending.assign`). At level zero a conflict refutes the
formula (`consequences_spec`).
-/

namespace ClauseLearning

/-- The key of the clause that was learned. -/
def Lesson.key : Lesson → ClauseKey
  | .unit l => .learnedUnit l
  | .asserting key _ => key

/-- The literal that the clause asserts. -/
def Lesson.literal : Lesson → Literal
  | .unit l => l
  | .asserting _ l => l

@[simp] theorem Lesson.key_unit (l : Literal) : (Lesson.unit l).key = .learnedUnit l := rfl

@[simp] theorem Lesson.key_asserting (key : ClauseKey) (l : Literal) : (Lesson.asserting key l).key = key := rfl

@[simp] theorem Lesson.literal_unit (l : Literal) : (Lesson.unit l).literal = l := rfl

@[simp] theorem Lesson.literal_asserting (key : ClauseKey) (l : Literal) : (Lesson.asserting key l).literal = l := rfl

/-- A learned clause is stored whose first literal waits to be assigned, as the others are false. -/
structure Pending (F : List Clause) (s : Solver) (lesson : Lesson) (d : Array Literal) : Prop extends
    Consistent F s where
  find : s.clauses.find lesson.key = some d
  guarded : ∀ {k : ClauseKey} {e : Array Literal}, k ≠ lesson.key → s.clauses.find k = some e → Guarded s.trail e
  unvalued : s.atoms.valueOf lesson.literal.atom = none
  first : d[0]? = some lesson.literal
  rest : ∀ m ∈ d, m ≠ lesson.literal → s.trail.Lists (-m)
  second : ∀ {m : Literal} {j : Nat}, d[1]? = some m → s.trail.literals[j]? = some (-m) →
    s.trail.HasLevel j s.trail.level
  unit : d = #[lesson.literal] → s.trail.level = 0

variable {F : List Clause} {s t : Solver} {first l : Literal} {rest : Clause} {key : ClauseKey} {c : Array Literal}
  {i m n level : Nat} {lesson : Lesson}

/-- After the literal is assigned, its clause is guarded as well. -/
theorem Pending.assign (h : Pending F s lesson c) : Sound F (s.assigned lesson.literal (some lesson.key)) := by
  have hmem : lesson.literal ∈ c := Array.mem_of_getElem? h.first
  obtain ⟨hne, hk⟩ := (h.proper h.find).known lesson.literal hmem
  have hforces : Forces s.trail c s.trail.literals.size lesson.literal := by
    refine ⟨hmem, fun m hm hml => ?_, fun _ => Or.inl h.first⟩
    obtain ⟨j, hj⟩ := h.rest m hm hml
    exact ⟨j, (Array.getElem?_eq_some_iff.mp hj).1, hj⟩
  have hlast : (s.trail.push lesson.literal).literals[s.trail.literals.size]? = some lesson.literal := by
    rw [Trail.literals_push, if_pos rfl]
  have hpast : ∀ {j : Nat} {m : Literal}, j < s.trail.head → (s.trail.push lesson.literal).literals[j]? = some m →
      s.trail.literals[j]? = some m := by
    intro j m hj hm
    have := h.agrees.layered.head_le
    rwa [Trail.literals_push, if_neg (by omega)] at hm
  refine ⟨h.toConsistent.assign h.unvalued hk hne h.find hforces, fun {k d} hd => ?_⟩
  by_cases hkey : k = lesson.key
  · rw [hkey] at hd
    have hdc : d = c := Option.some.inj (hd.symm.trans h.find)
    rw [hdc]
    refine ⟨fun k m hp j hj hkj => ?_, fun l hc => ?_⟩
    · have hkj := hpast hj hkj
      rcases hp with ⟨h0, h1⟩ | ⟨h0, h1⟩
      · -- the asserted literal was not false
        rw [h.first] at h0
        rw [← Option.some.inj h0] at hkj
        exact (h.agrees.not_listed (l := -lesson.literal) h.unvalued hkj).elim
      · rw [h.first] at h0
        rw [← Option.some.inj h0]
        have hlev := h.second h1 hkj
        exact ⟨_, hlast, fun hs _ => Trail.hasLevel_top_iff.mp hlev hs⟩
    · have heq : l = lesson.literal := by
        have := h.first
        rw [hc] at this
        simpa using this
      refine ⟨s.trail.literals.size, by rw [heq]; exact hlast, ?_⟩
      have hlevel := h.unit (heq ▸ hc)
      exact hlevel ▸ h.agrees.layered.ordered.hasLevel_next
  · exact (h.guarded hkey hd).push h.agrees.layered _

/-! ## Backjumps to a level -/

/-- What is of a higher level loses its value. -/
theorem valueOf_backjumped (hi : s.trail.literals[i]? = some l)
    (hm : s.trail.HasLevel i m) (hlt : n < m) : (s.backjumped n).atoms.valueOf l.atom = none := by
  have hs := Array.getElem?_eq_getElem (show n < s.trail.starts.size from Nat.lt_of_lt_of_le hlt hm.1)
  rw [Solver.backjumped, AtomTable.valueOf_dropAll, if_pos]
  exact (Tracks.mem_undone hs).mpr ⟨i, l, (hm.2 hs).mp hlt, hi, rfl⟩

/-- What is of a lower level, or of the level gone back to, stays. -/
theorem literals_backjumped (hi : s.trail.literals[i]? = some l) (hm : s.trail.HasLevel i m) (hle : m ≤ n) :
    (s.backjumped n).trail.literals[i]? = some l := by
  show (s.trail.cut n).literals[i]? = some l
  cases hs : s.trail.starts[n]? with
  | none => rw [Trail.cut_of_none hs, hi]
  | some start => rw [Trail.literals_cut hs, if_pos ((hm.lt_start_iff hs).mpr hle), hi]

theorem hasLevel_backjumped (hm : s.trail.HasLevel i m) (hle : m ≤ n) :
    (s.backjumped n).trail.HasLevel i m := by
  show (s.trail.cut n).HasLevel i m
  cases hs : s.trail.starts[n]? with
  | none => rw [Trail.cut_of_none hs]; exact hm
  | some start => exact hm.cut hs ((hm.lt_start_iff hs).mpr hle)

/-- Below a literal of the highest level, the second highest level is that of the highest of the others. -/
theorem secondLevel_spec {a : AtomTable} {c : Clause} {second top : Nat} (hst : second ≤ m) (hmt : m < top)
    (hc : ∀ l ∈ c, ∃ n, a.levelOf l.atom = some n ∧ n ≤ m)
    (hm : second = m ∨ ∃ l ∈ c, a.levelOf l.atom = some m) : Solver.secondLevel a c second top = .ok m := by
  induction c generalizing second with
  | nil =>
    rcases hm with rfl | ⟨l, hl, -⟩
    · rfl
    · cases hl
  | cons l c ih =>
    obtain ⟨n, hn, hnm⟩ := hc l List.mem_cons_self
    have hrest : ∀ l ∈ c, ∃ n, a.levelOf l.atom = some n ∧ n ≤ m := fun k hk => hc k (List.mem_cons_of_mem l hk)
    rw [Solver.secondLevel, hn]
    simp only
    rw [if_neg (by omega)]
    split
    · refine ih hnm hrest ?_
      rcases hm with rfl | ⟨k, hk, hkm⟩
      · omega
      · rcases List.mem_cons.mp hk with rfl | hk
        · rw [hn] at hkm
          exact Or.inl (Option.some.inj hkm)
        · exact Or.inr ⟨k, hk, hkm⟩
    · refine ih hst hrest ?_
      rcases hm with rfl | ⟨k, hk, hkm⟩
      · exact Or.inl rfl
      · rcases List.mem_cons.mp hk with rfl | hk
        · rw [hn] at hkm
          have := Option.some.inj hkm
          exact Or.inl (by omega)
        · exact Or.inr ⟨k, hk, hkm⟩

/-- The highest level of the literals of a clause, zero if there is none. -/
def AtomTable.highestLevel (a : AtomTable) (c : Clause) : Nat := (c.map fun l => (a.levelOf l.atom).getD 0).foldr max 0

theorem AtomTable.highestLevel_le_iff {a : AtomTable} {c : Clause} :
    a.highestLevel c ≤ n ↔ ∀ l ∈ c, (a.levelOf l.atom).getD 0 ≤ n := by
  induction c with
  | nil => simp [highestLevel]
  | cons l c ih =>
    rw [List.forall_mem_cons, ← ih]
    simp only [highestLevel, List.map_cons, List.foldr_cons]
    omega

/-- The literal after the first one is of the highest level. -/
theorem Derived.levelOf_second (h : Derived F s first rest) (hl : rest[0]? = some l) :
    s.atoms.levelOf l.atom = some (s.atoms.highestLevel rest) := by
  have hmem : l ∈ rest := List.mem_of_getElem? hl
  obtain ⟨n, hn, -⟩ := h.level_rest l hmem
  have hle : s.atoms.highestLevel rest ≤ n + 1 := by
    apply AtomTable.highestLevel_le_iff.mpr
    intro k hk
    have := h.highest l hl k hk
    rwa [hn] at this
  have hge := AtomTable.highestLevel_le_iff.mp (Nat.le_refl (s.atoms.highestLevel rest)) l hmem
  rw [hn] at hge ⊢
  exact congrArg some (Nat.le_antisymm hge hle)

/-- The clause is false below the top level but for its first literal, and the level gone back to is the highest one of
the others. -/
theorem Derived.backjumpLevel (h : Derived F s first rest) (hlevel : 0 < s.trail.level) {l : Literal}
    (hl : rest[0]? = some l) :
    ∃ n, s.backjumpLevel (first :: rest) = .ok n ∧ s.atoms.levelOf l.atom = some n ∧ n < s.trail.level ∧
      ∀ k ∈ rest, ∃ m, s.atoms.levelOf k.atom = some m ∧ m ≤ n := by
  have hmem : l ∈ rest := List.mem_of_getElem? hl
  obtain ⟨n, hn, hlt⟩ := h.level_rest l hmem
  have hall : ∀ k ∈ rest, ∃ m, s.atoms.levelOf k.atom = some m ∧ m ≤ n + 1 := by
    intro k hk
    obtain ⟨m, hm, -⟩ := h.level_rest k hk
    have := h.highest l hl k hk
    rw [hm, hn] at this
    exact ⟨m + 1, hm, this⟩
  refine ⟨n + 1, ?_, hn, hlt, hall⟩
  rw [Solver.backjumpLevel, Solver.secondLevel, h.level_first]
  simp only [if_pos hlevel]
  exact secondLevel_spec (Nat.zero_le _) hlt hall (Or.inr ⟨l, hmem, hn⟩)

/-! ## What is learned -/

theorem Derived.alike (h : Derived F s first rest) (ht : Alike s t) : Derived F t first rest where
  entailed := h.entailed
  lists_first := by rw [ht.trail]; exact h.lists_first
  level_first := by rw [ht.atoms.levelOf_eq, ht.trail]; exact h.level_first
  lists_rest := by rw [ht.trail]; exact h.lists_rest
  level_rest := by rw [ht.atoms.levelOf_eq, ht.trail]; exact h.level_rest
  nodup := h.nodup
  highest := by rw [ht.atoms.levelOf_eq]; exact h.highest

theorem Derived.known (h : Derived F s first rest) (hs : Consistent F s) :
    ∀ l ∈ first :: rest, l.atom ≠ topAtom ∧ l.atom < s.atoms.size := by
  intro l hl
  have hlists : s.trail.Lists (-l) := by
    rcases List.mem_cons.mp hl with rfl | hl
    · exact h.lists_first
    · exact h.lists_rest l hl
  obtain ⟨i, hi⟩ := hlists
  exact ⟨hs.agrees.ne_top (l := -l) hi, hs.agrees.lt_size_neg hi⟩

/-- No stored clause is part of a derived one, even without its literals that are false at level zero. All of its
literals would be false, so a watched one would not be guarded by the other one: of the two, one is false at a level
below the top level, where propagation is over. -/
theorem Derived.not_subsumed (h : Derived F s first rest) (hs : Sound F s) (hlevel : 0 < s.trail.level)
    (hc : s.clauses.find key = some c) :
    ¬∀ l ∈ c, (s.trail.Lists (-l) ∧ s.atoms.levelOf l.atom = some 0) ∨ l ∈ first :: rest := by
  intro hsub
  have hfalse : ∀ l ∈ c, s.trail.Lists (-l) := by
    intro l hl
    rcases hsub l hl with ⟨hl, -⟩ | hl
    · exact hl
    · rcases List.mem_cons.mp hl with rfl | hl
      · exact h.lists_first
      · exact h.lists_rest l hl
  have hbelow : ∀ l ∈ c, l ≠ first → ∃ n, s.atoms.levelOf l.atom = some n ∧ n < s.trail.level := by
    intro l hl hne
    rcases hsub l hl with ⟨-, hzero⟩ | hl
    · exact ⟨0, hzero, hlevel⟩
    · obtain ⟨n, hn, hlt⟩ := h.level_rest l ((List.mem_cons.mp hl).resolve_left hne)
      exact ⟨n + 1, hn, hlt⟩
  by_cases h2 : 2 ≤ c.size
  · obtain ⟨k, m, hp, hk⟩ := (hs.proper hc).exists_pair_ne h2 first
    obtain ⟨j, hj⟩ := hfalse k hp.mem
    obtain ⟨n, hn, hlt⟩ := hbelow k hp.mem hk
    have hlow := hs.agrees.hasLevel_of (l := -k) hj hn
    have hhead : j < s.trail.head := by
      by_contra hwait
      have := hlow.unique (hs.agrees.layered.hasLevel_waiting (Nat.le_of_not_lt hwait))
      omega
    obtain ⟨i, hi, -⟩ := (hs.guarded hc).pair k m hp j hhead hj
    obtain ⟨i', hi'⟩ := hfalse m hp.symm.mem
    exact hs.agrees.not_both hi hi'
  · have hpos := (hs.proper hc).fits.size_pos
    obtain ⟨m, rfl⟩ := Array.size_eq_one_iff.mp (show c.size = 1 by omega)
    obtain ⟨i, hi, -⟩ := (hs.guarded hc).unit m rfl
    obtain ⟨i', hi'⟩ := hfalse m (Array.mem_singleton.mpr rfl)
    exact hs.agrees.not_both hi hi'

/-- A derived clause is not stored yet. -/
theorem Derived.not_has (h : Derived F s first rest) (hs : Sound F s) (hlevel : 0 < s.trail.level) :
    ¬s.clauses.Has (first :: rest) :=
  fun ⟨_, _, hc, hiff⟩ => h.not_subsumed hs hlevel hc fun l hl => Or.inr ((hiff l).mp hl)

/-- The first literal loses its value where the solver goes back to a lower level. -/
theorem Derived.unvalued (h : Derived F s first rest) (hs : Consistent F s) (hlt : level < s.trail.level) :
    (s.backjumped level).atoms.valueOf first.atom = none := by
  obtain ⟨i, hi⟩ := h.lists_first
  exact valueOf_backjumped (l := -first) hi (hs.agrees.hasLevel_of hi h.level_first) hlt

/-- What learning comes to: a clause that was not stored before is, and asserts a literal. -/
structure Learned (F : List Clause) (s : Solver) (lesson : Lesson) (t : Solver) : Prop where
  pending : ∃ c, Pending F t lesson c
  steady : Steady s t
  gains : s.clauses.Gains t.clauses

theorem Learned.trans {u : Solver} (h : Learned F t lesson u) (hs : Steady s t) (hc : s.clauses.Reordered t.clauses) :
    Learned F s lesson u :=
  ⟨h.pending, hs.trans h.steady, h.gains.reorder hc (.refl _)⟩

/-- The clause is stored under a fresh key, and the solver goes back to the highest level of the
literals after the first. -/
structure Asserts (s : Solver) (first : Literal) (rest : Clause) (lesson : Lesson) (t : Solver) : Prop where
  shape : rest = [] ∧ lesson = .unit first ∨ rest ≠ [] ∧ ∃ key, lesson = .asserting key first
  fresh : s.clauses.freshKey (first :: rest) .learned = .ok lesson.key
  find : ∀ k, t.clauses.find k = if k = lesson.key then some (first :: rest).toArray else s.clauses.find k
  trail : t.trail = s.trail.cut (s.atoms.highestLevel rest)

/-- The literal that is learned is the first of the clause. -/
theorem Asserts.literal_eq (h : Asserts s first rest lesson t) : lesson.literal = first := by
  rcases h.shape with ⟨-, rfl⟩ | ⟨-, key, rfl⟩ <;> rfl

/-- Activities do not matter. -/
theorem Asserts.of_alike {u : Solver} (h : Asserts t first rest lesson u) (ht : Alike s t)
    (hs : t.clauses.slotPart = s.clauses.slotPart) : Asserts s first rest lesson u where
  shape := h.shape
  fresh := by rw [← ClauseStore.freshKey_of_slotPart hs]; exact h.fresh
  find := by rw [← ht.clauses.find]; exact h.find
  trail := by
    rw [← ht.trail, AtomTable.highestLevel, ← ht.atoms.levelOf_eq]
    exact h.trail

/-- A clause is stored, or refused for lack of a key. -/
def Learns (F : List Clause) (s : Solver) (first : Literal) (rest : Clause) (m : SolverM Lesson) : Prop :=
  Solver.Yields m s (fun lesson t => Learned F s lesson t ∧ Asserts s first rest lesson t) fun e t =>
    Failed F s e t ∧ e = .store .storageExhausted ∧
      s.clauses.freshKey (first :: rest) .learned = .error .storageExhausted

/-- What is learned from a clause of one literal. -/
theorem learn_unit_spec (h : Sound F s) (hlevel : 0 < s.trail.level) (hd : Derived F s first []) :
    Learns F s first [] (Solver.learn first []) := by
  have hj := h.backjump 0
  have hsteady := s.steady_backjumped 0
  simp only [Learns, Solver.learn, List.isEmpty_nil, if_true, Solver.yields_bind, Solver.yields_backjump h.agrees]
  refine (store_spec hj.toConsistent (List.cons_ne_nil _ _) (fun l hl => ?_) hd.nodup (fun _ h => h) hd.entailed
    fun d hd => Or.inl hd).imp (fun key t ht => ?_) fun e t ht =>
      ⟨⟨ht.alike.sound hj, hsteady.trans ht.alike.steady, Or.inl ht.cause⟩, ht.cause, ht.fresh⟩
  · rw [hsteady.size]
    exact hd.known h.toConsistent l hl
  · have hkey : key = .learnedUnit first := by
      rcases ht.fits.unit_cases with rfl | rfl
      · exact absurd (ht.given.mp rfl) (by simp)
      · rfl
    have hzero : (s.backjumped 0).trail.level = 0 := by
      rw [Solver.backjumped, Trail.level_cut, Nat.min_zero]
    have hasserts : Asserts s first [] (.unit first) t := by
      refine ⟨Or.inl ⟨rfl, rfl⟩, ?_, fun k => ?_, ht.trail⟩
      · rw [Lesson.key_unit, ← hkey]
        exact ht.fresh
      · rw [ht.find, hkey]
        rfl
    refine Solver.yields_pure.mpr ⟨⟨⟨#[first], ht.consistent, ?_, fun hk hd => ?_, ?_, rfl, ?_, ?_, fun _ => ?_⟩,
      hsteady.trans ht.steady, ht.gains (hd.not_has h hlevel)⟩, hasserts⟩
    · rw [ht.find, hkey, Lesson.key_unit, if_pos rfl]
    · rw [ht.trail]
      rcases ht.find_cases hd with ⟨hk', -⟩ | hd
      · exact absurd (hk'.trans hkey) hk
      · exact hj.guarded hd
    · rw [ht.atoms]
      exact hd.unvalued h.toConsistent hlevel
    · intro m hm hml
      exact absurd (by simpa using hm) hml
    · intro m j hm
      simp at hm
    · rw [ht.trail, hzero]

/-- A clause asserts its first literal if that is open and the others are false. -/
theorem Agrees.asserted_eq {a : AtomTable} {t : Trail} (h : Agrees a t) (hv : a.valueOf first.atom = none)
    (hk : first.atom < a.size) (hrest : ∀ k ∈ rest, k.atom ≠ topAtom ∧ t.Lists (-k)) :
    Clause.asserted (first :: rest) a.valuation = some first := by
  have hopen : a.valuation.fails first = false := by
    rw [Valuation.fails, show Valuation.valueOf _ first.atom = none from hv]
    rfl
  have hfilter : rest.filter (fun k => !a.valuation.fails k) = [] :=
    List.filter_eq_nil_iff.mpr fun k hk => by simp [(h.fails_iff (hrest k hk).1).mpr (hrest k hk).2]
  have hget : a.valuation[first.atom]? = some none := by
    have hlt : first.atom < a.valuation.size := hk
    rw [AtomTable.valueOf, Valuation.valueOf, Array.getElem?_eq_getElem hlt] at hv
    rw [Array.getElem?_eq_getElem hlt]
    exact congrArg some (by simpa using hv)
  rw [Clause.asserted, List.filter_cons, hopen, hfilter]
  simp [hget]

/-- What is learned from a longer clause. -/
theorem learn_asserting_spec (h : Sound F s) (hlevel : 0 < s.trail.level) (hd : Derived F s first (l :: rest)) :
    Learns F s first (l :: rest) (Solver.learn first (l :: rest)) := by
  obtain ⟨n, hn, hln, hlt, hrest⟩ := hd.backjumpLevel hlevel rfl
  have hj := h.backjump n
  have hsteady := s.steady_backjumped n
  have hknown : ∀ k ∈ first :: l :: rest, k.atom ≠ topAtom ∧ k.atom < (s.backjumped n).atoms.size := by
    rw [hsteady.size]
    exact hd.known h.toConsistent
  have hunvalued := hd.unvalued h.toConsistent hlt
  have hlists : ∀ k ∈ l :: rest, (s.backjumped n).trail.Lists (-k) := by
    intro k hk
    obtain ⟨i, hi⟩ := hd.lists_rest k hk
    obtain ⟨m, hm, hmn⟩ := hrest k hk
    exact ⟨i, literals_backjumped hi (h.agrees.hasLevel_of hi hm) hmn⟩
  have hasserted : Clause.asserted (first :: l :: rest) (s.backjumped n).atoms.valuation = some first :=
    hj.agrees.asserted_eq hunvalued (hknown first List.mem_cons_self).2 fun k hk =>
      ⟨(hknown k (List.mem_cons_of_mem first hk)).1, hlists k hk⟩
  have htop : n = s.atoms.highestLevel (l :: rest) := Option.some.inj (hln.symm.trans (hd.levelOf_second rfl))
  simp only [Learns, Solver.learn, List.isEmpty_cons, Bool.false_eq_true,
    if_false, Solver.yields_bind, Solver.yields_get, hn,
    Solver.yields_ofExcept_ok, Solver.yields_backjump h.agrees, hasserted, ne_eq, not_true_eq_false]
  refine (store_spec hj.toConsistent (List.cons_ne_nil _ _) hknown hd.nodup (fun _ h => h) hd.entailed
    fun d hd => Or.inl hd).imp (fun key t ht => ?_) fun e t ht =>
      ⟨⟨ht.alike.sound hj, hsteady.trans ht.alike.steady, Or.inl ht.cause⟩, ht.cause, ht.fresh⟩
  simp only [Solver.bumpClauses, Solver.yields_onClauses, Solver.yields_pure]
  have hbump : Alike t { t with clauses := [key].foldl ClauseStore.bumpActivity t.clauses } :=
    ⟨rfl, rfl, rfl, rfl, .refl _, ClauseStore.sameClauses_foldl_bumpActivity _ _, id⟩
  have hfind := hbump.clauses.find
  have hasserts : Asserts s first (l :: rest) (.asserting key first)
      { t with clauses := [key].foldl ClauseStore.bumpActivity t.clauses } := by
    refine ⟨Or.inr ⟨List.cons_ne_nil _ _, key, rfl⟩, ht.fresh, fun k => ?_, ?_⟩
    · rw [hfind]
      exact ht.find k
    · rw [← htop]
      exact ht.trail
  refine ⟨⟨⟨(first :: l :: rest).toArray, hbump.consistent ht.consistent, ?_, fun hk hd => ?_, ?_, rfl,
    fun m hm hml => ?_, fun {m j} hm hjm => ?_, fun hc => ?_⟩, hsteady.trans (ht.steady.trans hbump.steady),
    (ht.gains (hd.not_has h hlevel)).reorder (.refl _) hbump.clauses.reordered⟩, hasserts⟩
  · rw [hfind, ht.find, Lesson.key_asserting, if_pos rfl]
  · show Guarded t.trail _
    rw [hfind] at hd
    rw [ht.trail]
    rcases ht.find_cases hd with ⟨hk', -⟩ | hd
    · exact absurd hk' hk
    · exact hj.guarded hd
  · show t.atoms.valueOf first.atom = none
    rw [ht.atoms]
    exact hunvalued
  · show t.trail.Lists (-m)
    rw [ht.trail]
    rcases List.mem_cons.mp (List.mem_toArray.mp hm) with rfl | hm
    · exact absurd rfl hml
    · exact hlists m hm
  · -- the second literal is false at the level gone back to, which is the top level now
    show t.trail.HasLevel j t.trail.level
    have hml : l = m := by simpa using hm
    subst hml
    obtain ⟨i, hi⟩ := hd.lists_rest l List.mem_cons_self
    have hlev := h.agrees.hasLevel_of hi hln
    have hij : i = j := by
      have hjm' : t.trail.literals[j]? = some (-l) := hjm
      rw [ht.trail] at hjm'
      exact hj.agrees.position_eq (literals_backjumped hi hlev (Nat.le_refl n)) hjm'
    have htop : (s.backjumped n).trail.level = n := by
      rw [Solver.backjumped, Trail.level_cut]
      omega
    rw [ht.trail, htop, ← hij]
    exact hasLevel_backjumped hlev (Nat.le_refl n)
  · have := congrArg Array.size hc
    simp at this

theorem learn_spec (h : Sound F s) (hlevel : 0 < s.trail.level) (hd : Derived F s first rest) :
    Learns F s first rest (Solver.learn first rest) := by
  cases rest with
  | nil => exact learn_unit_spec h hlevel hd
  | cons l rest => exact learn_asserting_spec h hlevel hd

/-! ## Analysis -/

/-- The atoms that gain activity from a conflict of which a clause was derived. -/
def Config.atomsToBump (config : Config) (c : Clause) (b : Resolution) : List Nat :=
  match config.vsids.value with
  | .miniSat => b.atoms.toList
  | .chaff => c.atoms

/-- The solver after a clause was derived and what was used to derive it is bumped. -/
def Solver.bumpedFor (s : Solver) (c : Clause) (b : Resolution) : Solver :=
  { s with
    resolution := b
    atoms := (s.config.atomsToBump c b).foldl AtomTable.bumpRelative s.atoms
    clauses := b.premises.toList.foldl ClauseStore.bumpActivity s.clauses }

/-- Bumps change activities only, and leave the slots alone. -/
theorem Solver.alike_bumpedFor {b : Resolution} (s : Solver) (c : Clause) (hclean : b.Clean) :
    Alike s (s.bumpedFor c b) ∧ (s.bumpedFor c b).clauses.slotPart = s.clauses.slotPart :=
  ⟨⟨rfl, rfl, rfl, rfl, AtomTable.sameValues_foldl_bumpRelative _ _, ClauseStore.sameClauses_foldl_bumpActivity _ _,
    fun _ => hclean⟩, s.clauses.slotPart_foldl_bumpActivity _⟩

/-- All atoms that gain activity are known. -/
theorem Derived.lt_of_mem_atomsToBump {b : Resolution} {x : Nat} (hd : Derived F s first rest) (h : Consistent F s)
    (hclean : b.Clean) (hsize : b.seen.size = s.atoms.size) (hx : x ∈ s.config.atomsToBump (first :: rest) b) :
    x < s.atoms.size := by
  unfold Config.atomsToBump at hx
  split at hx
  · rw [← hsize]
    exact hclean.marked (Array.mem_toList_iff.mp hx)
  · obtain ⟨l, hl, rfl⟩ := List.mem_map.mp hx
    exact (hd.known h l hl).2

namespace Solver

theorem yields_bumpAtoms {xs : List Nat} {ok : Unit → Solver → Prop} {err : Error → Solver → Prop}
    (ha : s.atoms.Aligned) (hx : ∀ x ∈ xs, x < s.atoms.size) :
    Yields (bumpAtoms xs) s ok err ↔ ok () { s with atoms := xs.foldl AtomTable.bumpRelative s.atoms } := by
  induction xs generalizing s with
  | nil => exact yields_pure
  | cons x xs ih =>
    have hs := AtomTable.sameValues_bumpRelative s.atoms x
    have hbump : AtomM.bumpRelative x s.atoms = .ok () (s.atoms.bumpRelative x) := by
      rw [AtomM.bumpRelative_eq ha, if_pos (hx x List.mem_cons_self)]
    rw [bumpAtoms, yields_bind, bumpAtom, yields_onAtoms_of_ok hbump]
    exact ih (hs.aligned ha) fun y hy => by
      rw [hs.size_eq]
      exact hx y (List.mem_cons_of_mem x hy)

/-- A clause is derived, what was used is bumped, and then the clause is learned. -/
theorem yields_analyse {b : Resolution} {ok : Lesson → Solver → Prop} {err : Error → Solver → Prop}
    (ha : s.atoms.Aligned) (hlevel : 0 < s.trail.level)
    (hres : s.resolution.resolve key s.clauses s.atoms s.trail = (.ok (first :: rest), b))
    (hx : ∀ x ∈ s.config.atomsToBump (first :: rest) b, x < s.atoms.size) :
    Yields (analyse key) s ok err ↔ Yields (learn first rest) (s.bumpedFor (first :: rest) b) ok err := by
  have hdec : s.trail.isDecided = true := by simpa [Trail.isDecided] using hlevel
  simp only [analyse, resolve, bumpConflict, yields_bind, yields_get, hdec, Bool.not_true, Bool.false_eq_true, if_false,
    yields_modifyGet, hres, yields_modify, yields_ofExcept_ok]
  exact yields_bumpAtoms (s := { s with resolution := b }) ha hx

end Solver

/-- From a conflict above level zero the clause is learned that resolution derives. -/
theorem analyse_asserts (h : Sound F s) (hlevel : 0 < s.trail.level) (hc : Conflict s key c) :
    ∃ first rest b, s.resolution.resolve key s.clauses s.atoms s.trail = (.ok (first :: rest), b) ∧
      Derived F s first rest ∧ Learns F s first rest (Solver.analyse key) := by
  obtain ⟨first, rest, b, hres, hd, hclean, hsize⟩ := resolve_spec h.toConsistent hlevel hc
  refine ⟨first, rest, b, hres, hd, ?_⟩
  obtain ⟨hu, hslots⟩ := s.alike_bumpedFor (first :: rest) hclean
  rw [Learns, Solver.yields_analyse h.agrees.aligned hlevel hres
    fun _ hx => hd.lt_of_mem_atomsToBump h.toConsistent hclean hsize hx]
  refine (learn_spec (hu.sound h) (by rw [hu.trail]; exact hlevel) (hd.alike hu)).imp ?_ ?_
  · rintro lesson v ⟨hv, hasserts⟩
    exact ⟨hv.trans hu.steady hu.clauses.reordered, hasserts.of_alike hu hslots⟩
  · rintro e v ⟨hv, he, hfresh⟩
    refine ⟨hv.trans hu.steady, he, ?_⟩
    rw [← ClauseStore.freshKey_of_slotPart hslots]
    exact hfresh

/-- From a conflict above level zero a clause is learned that asserts a literal. -/
theorem analyse_spec (h : Sound F s) (hlevel : 0 < s.trail.level) (hc : Conflict s key c) :
    Solver.Yields (Solver.analyse key) s (Learned F s) (Failed F s) := by
  obtain ⟨first, rest, b, -, -, hlearns⟩ := analyse_asserts h hlevel hc
  exact hlearns.imp (fun _ _ ht => ht.1) fun _ _ ht => ht.1

/-- What comes of propagation and the analysis of a conflict. -/
def Concluded (F : List Clause) (s : Solver) : Consequence → Solver → Prop
  | .exhausted, t => Sound F t ∧ Spread s t ∧ t.trail.head = t.trail.literals.size
  | .learned lesson, t => Learned F s lesson t
  | .fundamentalConflict, t => Sound F t ∧ t.config = s.config ∧ t.atoms.size = s.atoms.size ∧
      t.status = .unsatisfiable

theorem consequences_spec (h : Sound F s) :
    Solver.Yields Solver.consequences s (Concluded F s) (Failed F s) := by
  simp only [Solver.consequences, Solver.yields_bind]
  refine (propagate_spec h).ok_imp fun r t hrt => ?_
  obtain ⟨ht, hspread, hr⟩ := hrt
  have hst := hspread.steady
  cases r with
  | none => exact Solver.yields_pure.mpr ⟨ht, hspread, hr⟩
  | some key =>
    obtain ⟨c, hc⟩ := hr
    simp only [Solver.yields_bind, Solver.yields_get]
    split
    · rename_i hdec
      refine Solver.yields_bind.mpr ((analyse_spec ht (by simpa [Trail.isDecided] using hdec) hc).imp ?_ ?_)
      · exact fun lesson u hu => Solver.yields_pure.mpr (hu.trans hst hspread.clauses)
      · exact fun e u hu => hu.trans hst
    · rename_i hdec
      -- without a decision, the clause is false at level zero
      have hun : ¬Satisfiable F := ht.not_satisfiable (ht.entailed hc.find) fun l hl => by
        obtain ⟨i, hi⟩ := hc.falsified l (Array.mem_toList_iff.mp hl)
        exact ⟨i, hi, Trail.hasLevel_zero_of_isDecided (by simpa using hdec) i⟩
      exact ⟨ht.refute (fun _ hd => hd) hun, hst.config, hst.size, rfl⟩

end ClauseLearning
