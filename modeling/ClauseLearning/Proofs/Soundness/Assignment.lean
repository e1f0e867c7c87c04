import ClauseLearning.Proofs.AtomTable.Operations
import ClauseLearning.Proofs.Soundness.Invariant
import ClauseLearning.Solver.Assignment

/-!
# Assignments, decisions and backjumps keep the invariant

A literal may be assigned if a stored clause forces it (`Consistent.assign`) and decided on if nothing waits for
propagation (`Sound.decide`); any number of levels may be undone (`Consistent.backjump`, `Sound.backjump`). The
operations give no error where this is so (`yields_assign`, `yields_decide`, `yields_backjump`).
-/

namespace ClauseLearning

namespace Solver

/-- The solver with a literal made true at the current level. -/
def assigned (s : Solver) (l : Literal) (reason : Option ClauseKey) : Solver :=
  { s with atoms := s.atoms.value l s.trail.level reason, trail := s.trail.push l }

/-- The solver with a literal made true at a level of its own. -/
def decided (s : Solver) (l : Literal) : Solver :=
  { s with
    atoms := s.atoms.value l s.trail.openLevel.level none
    trail := s.trail.openLevel.push l
    counters := { s.counters with decisions := s.counters.decisions + 1 } }

/-- The solver without the levels above the given one. -/
def backjumped (s : Solver) (level : Nat) : Solver :=
  { s with atoms := s.atoms.dropAll (s.trail.above level).reverse, trail := s.trail.cut level }

theorem steady_assigned (s : Solver) (l : Literal) (r : Option ClauseKey) : Steady s (s.assigned l r) :=
  ⟨rfl, rfl, AtomTable.size_value _ _ _ _⟩

theorem steady_decided (s : Solver) (l : Literal) : Steady s (s.decided l) := ⟨rfl, rfl, AtomTable.size_value _ _ _ _⟩

theorem steady_backjumped (s : Solver) (level : Nat) : Steady s (s.backjumped level) :=
  ⟨rfl, rfl, AtomTable.size_dropAll _ _⟩

end Solver

variable {F : List Clause} {s : Solver} {t t' : Trail} {i j n level : Nat} {k l : Literal} {key : ClauseKey}
  {c : Array Literal} {r : Option ClauseKey}

/-! ## Longer trails -/

theorem Forces.mono (h : Forces t c i l) (ht : ∀ {j : Nat} {m : Literal}, j < i → t.literals[j]? = some m →
    t'.literals[j]? = some m) : Forces t' c i l where
  mem := h.mem
  others m hm hne := by
    obtain ⟨j, hj, hjm⟩ := h.others m hm hne
    exact ⟨j, hj, ht hj hjm⟩
  watched := h.watched

/-- Guards stay on a trail that has nothing else before the head, and more after it. -/
theorem Guards.extend (h : Guards t k l) (t' : Trail) (ht : t.head ≤ t.literals.size) (hh : t'.head = t.head)
    (hlit : ∀ {j : Nat}, j < t.literals.size → t'.literals[j]? = t.literals[j]?)
    (hlev : ∀ {i j : Nat}, i < t.literals.size → t.NoLater i j → t'.NoLater i j) : Guards t' k l := by
  intro j hj hk
  rw [hh] at hj
  rw [hlit (Nat.lt_of_lt_of_le hj ht)] at hk
  obtain ⟨i, hi, hij⟩ := h j hj hk
  have hlt := (Array.getElem?_eq_some_iff.mp hi).1
  exact ⟨i, by rw [hlit hlt, hi], hlev hlt hij⟩

theorem Guards.push (h : Guards t k l) (ht : t.Layered) (m : Literal) : Guards (t.push m) k l :=
  h.extend (t.push m) ht.head_le rfl (fun hj => by rw [Trail.literals_push, if_neg (Nat.ne_of_lt hj)])
    fun _ hij => hij

theorem Guards.decide (h : Guards t k l) (ht : t.Layered) (m : Literal) : Guards (t.openLevel.push m) k l :=
  h.extend (t.openLevel.push m) ht.head_le rfl
    (fun hj => by rw [Trail.literals_push, Trail.literals_openLevel, if_neg (Nat.ne_of_lt hj)])
    fun {i j} hi hij q p hs hp => by
      rw [Trail.starts_push, Trail.starts_openLevel] at hs
      split at hs
      · cases hs
        omega
      · exact hij hs hp

theorem Guards.cut (h : Guards t k l) (ht : t.Layered) (level : Nat) : Guards (t.cut level) k l := by
  cases hs : t.starts[level]? with
  | none => rwa [Trail.cut_of_none hs]
  | some start =>
    intro j hj hk
    rw [Trail.head_cut hs] at hj
    rw [Trail.literals_cut hs, if_pos (by omega)] at hk
    obtain ⟨i, hi, hij⟩ := h j (by omega) hk
    -- what starts before `i` starts before `j`, so `i` is not cut off
    have hlt : i < start := by
      by_contra hle
      have := hij hs (by omega)
      omega
    exact ⟨i, by rw [Trail.literals_cut hs, if_pos hlt, hi], fun hq hp => hij ((ht.starts_cut_iff hs).mp hq).1 hp⟩

theorem Guarded.push (h : Guarded t c) (ht : t.Layered) (m : Literal) : Guarded (t.push m) c where
  pair k l hp := (h.pair k l hp).push ht m
  unit l hc := (h.unit l hc).imp fun _ ⟨hi, hn⟩ => ⟨Trail.literals_push_of_some hi, hn⟩

theorem Guarded.decide (h : Guarded t c) (ht : t.Layered) (m : Literal) : Guarded (t.openLevel.push m) c where
  pair k l hp := (h.pair k l hp).decide ht m
  unit l hc := (h.unit l hc).imp fun _ ⟨hi, hn⟩ =>
    ⟨Trail.literals_push_of_some hi, (hn.openLevel (Array.getElem?_eq_some_iff.mp hi).1).push m⟩

theorem Guarded.cut (h : Guarded t c) (ht : t.Layered) (level : Nat) : Guarded (t.cut level) c where
  pair k l hp := (h.pair k l hp).cut ht level
  unit l hc := by
    obtain ⟨i, hi, hn⟩ := h.unit l hc
    cases hs : t.starts[level]? with
    | none => rw [Trail.cut_of_none hs]; exact ⟨i, hi, hn⟩
    | some start =>
      have hlt : i < start := (hn.lt_start_iff hs).mpr (Nat.zero_le level)
      exact ⟨i, by rw [Trail.literals_cut hs, if_pos hlt, hi], hn.cut hs hlt⟩

/-! ## Assignments and decisions -/

section NewValue

variable (h : Consistent F s) (hv : s.atoms.valueOf l.atom = none) (hk : l.atom < s.atoms.size)
include h hv hk

/-- The invariant for a literal that is new on the trail, with the reason for it. -/
theorem Consistent.extend {u : Solver} (hu : u.clauses = s.clauses ∧ u.watches = s.watches ∧ u.status = s.status ∧
      u.resolution = s.resolution) (hua : u.atoms = s.atoms.value l n r)
    (hagree : Agrees u.atoms u.trail)
    (hlit : ∀ i, u.trail.literals[i]? = if i = s.trail.literals.size then some l else s.trail.literals[i]?)
    (hlev : ∀ {i}, s.trail.HasLevel i 0 → i < s.trail.literals.size → u.trail.HasLevel i 0)
    (hstarts : ∀ {k p : Nat}, s.trail.starts[k]? = some p → ∃ k : Nat, u.trail.starts[k]? = some p)
    (hr : (r = none ∧ ∃ k : Nat, u.trail.starts[k]? = some s.trail.literals.size) ∨
      ∃ key c, r = some key ∧ s.clauses.find key = some c ∧ Forces s.trail c s.trail.literals.size l) :
    Consistent F u := by
  obtain ⟨huc, huw, hus, hur⟩ := hu
  have hsize : u.atoms.size = s.atoms.size := by rw [hua, AtomTable.size_value]
  have hpast : ∀ {j : Nat} {m : Literal}, s.trail.literals[j]? = some m → u.trail.literals[j]? = some m := by
    intro j m hj
    have := (Array.getElem?_eq_some_iff.mp hj).1
    rw [hlit, if_neg (by omega), hj]
  have hreason := AtomTable.reasonOf_value (n := n) (by rw [h.agrees.aligned.reasons]; exact hk) r
  refine ⟨hagree, by rw [huc]; exact h.keyed, fun hc => by rw [hsize]; exact h.proper (by rwa [huc] at hc),
    by rw [huw, huc, hsize]; exact h.watched, fun {i m} hi => ?_, fun hc => h.entailed (by rwa [huc] at hc),
    fun c hc => ?_, fun ht => h.refuted (by rwa [hus] at ht), by rw [hur]; exact h.clean⟩
  · rw [hua, huc, hreason]
    rw [hlit] at hi
    split at hi
    · rename_i hi'
      cases hi
      rw [if_pos rfl, hi']
      rcases hr with hr | ⟨key, c, hkey, hc, hf⟩
      · exact Or.inl hr
      · exact Or.inr ⟨key, c, hkey, hc, hf.mono fun _ hj => hpast hj⟩
    · have hne : m.atom ≠ l.atom := fun heq => by
        have := h.agrees.holds hi
        rw [heq, hv] at this
        cases this
      rw [if_neg hne]
      rcases h.justified hi with ⟨hr, k, hk⟩ | ⟨key, c, hkey, hc, hf⟩
      · exact Or.inl ⟨hr, hstarts hk⟩
      · exact Or.inr ⟨key, c, hkey, hc, hf.mono fun _ hj => hpast hj⟩
  · rw [Covered, huc, hus]
    rcases h.covered c hc with ⟨m, hm, i, hi, hn⟩ | hd
    · exact Or.inl ⟨m, hm, i, hpast hi, hlev hn (Array.getElem?_eq_some_iff.mp hi).1⟩
    · exact Or.inr hd

variable (hl : l.atom ≠ topAtom)
include hl

/-- A literal that a stored clause forces may be assigned. -/
theorem Consistent.assign (hc : s.clauses.find key = some c) (hf : Forces s.trail c s.trail.literals.size l) :
    Consistent F (s.assigned l (some key)) :=
  h.extend hv hk ⟨rfl, rfl, rfl, rfl⟩ rfl (h.agrees.assign hl hk hv (some key)) (Trail.literals_push s.trail l)
    (fun hn _ => hn) (fun hs => ⟨_, hs⟩) (Or.inr ⟨key, c, rfl, hc, hf⟩)

/-- A decision may be made where nothing waits for propagation. -/
theorem Consistent.decide (hh : s.trail.head = s.trail.literals.size) : Consistent F (s.decided l) := by
  refine h.extend hv hk ⟨rfl, rfl, rfl, rfl⟩ rfl (h.agrees.decide hl hk hv hh) (fun i => ?_)
    (fun hn hi => hn.openLevel hi) (fun {k p} hs => ⟨k, ?_⟩) (Or.inl ⟨rfl, s.trail.level, ?_⟩)
  · rw [← Trail.literals_openLevel s.trail]
    exact Trail.literals_push _ l i
  · show s.trail.openLevel.starts[k]? = some p
    have := (Array.getElem?_eq_some_iff.mp hs).1
    rw [Trail.starts_openLevel, if_neg (by simp only [Trail.level]; omega), hs]
  · show s.trail.openLevel.starts[s.trail.level]? = _
    rw [Trail.starts_openLevel, if_pos rfl]

end NewValue

theorem Sound.assign (h : Sound F s) (hv : s.atoms.valueOf l.atom = none) (hk : l.atom < s.atoms.size)
    (hl : l.atom ≠ topAtom) (hc : s.clauses.find key = some c)
    (hf : Forces s.trail c s.trail.literals.size l) : Sound F (s.assigned l (some key)) :=
  ⟨h.toConsistent.assign hv hk hl hc hf, fun hd => (h.guarded hd).push h.agrees.layered l⟩

theorem Sound.decide (h : Sound F s) (hv : s.atoms.valueOf l.atom = none) (hk : l.atom < s.atoms.size)
    (hl : l.atom ≠ topAtom) (hh : s.trail.head = s.trail.literals.size) : Sound F (s.decided l) :=
  ⟨h.toConsistent.decide hv hk hl hh, fun hd => (h.guarded hd).decide h.agrees.layered l⟩

/-! ## Backjumps -/

theorem Consistent.backjump (h : Consistent F s) (level : Nat) : Consistent F (s.backjumped level) := by
  have hagree := h.agrees.backjump level
  cases hs : s.trail.starts[level]? with
  | none =>
    have heq : s.backjumped level = s := by
      rw [Solver.backjumped, Trail.above_of_none hs, Trail.cut_of_none hs]
      rfl
    rw [heq]
    exact h
  | some start =>
    have hlit : ∀ {i : Nat} {l : Literal}, s.trail.literals[i]? = some l → i < start →
        (s.trail.cut level).literals[i]? = some l := by
      intro i l hi hlt
      rw [Trail.literals_cut hs, if_pos hlt, hi]
    refine ⟨hagree, h.keyed, fun hc => ?_, ?_, fun {i l} hi => ?_, h.entailed, fun c hc => ?_, h.refuted, h.clean⟩
    · rw [(s.steady_backjumped level).size]
      exact h.proper hc
    · rw [(s.steady_backjumped level).size]
      exact h.watched
    · have hi' := Trail.getElem?_of_cut hi
      have hlt : i < start := by
        have := (Array.getElem?_eq_some_iff.mp hi).1
        rwa [Solver.backjumped, Trail.size_cut h.agrees.layered.ordered hs] at this
      have hreason : (s.backjumped level).atoms.reasonOf l.atom = s.atoms.reasonOf l.atom := by
        rw [Solver.backjumped, AtomTable.reasonOf_dropAll, if_neg (h.agrees.tracks.not_mem_undone hs hi' hlt)]
      rw [hreason]
      rcases h.justified hi' with ⟨hr, k, hk⟩ | ⟨key, c, hkey, hc, hf⟩
      · exact Or.inl ⟨hr, k, (h.agrees.layered.starts_cut_iff hs).mpr ⟨hk, hlt⟩⟩
      · exact Or.inr ⟨key, c, hkey, hc, hf.mono fun hji hj => hlit hj (Nat.lt_trans hji hlt)⟩
    · rcases h.covered c hc with ⟨l, hl, i, hi, hn⟩ | hd
      · have hlt : i < start := (hn.lt_start_iff hs).mpr (Nat.zero_le level)
        exact Or.inl ⟨l, hl, i, hlit hi hlt, hn.cut hs hlt⟩
      · exact Or.inr hd

theorem Sound.backjump (h : Sound F s) (level : Nat) : Sound F (s.backjumped level) :=
  ⟨h.toConsistent.backjump level, fun hd => (h.guarded hd).cut h.agrees.layered level⟩

/-- Where nothing waits for propagation, nothing does after a backjump. -/
theorem Consistent.exhausted_backjump (h : Consistent F s) (hh : s.trail.head = s.trail.literals.size) (level : Nat) :
    (s.backjumped level).trail.head = (s.backjumped level).trail.literals.size := by
  show (s.trail.cut level).head = (s.trail.cut level).literals.size
  cases hs : s.trail.starts[level]? with
  | none => rw [Trail.cut_of_none hs, hh]
  | some start => exact h.agrees.layered.head_cut hs

namespace Solver

variable {ok : Unit → Solver → Prop} {err : Error → Solver → Prop}

/-! ## Outcomes -/

/-- What an assignment comes to, by the value of the atom. -/
theorem yields_assign_iff (ha : s.atoms.Aligned) :
    Yields (Solver.assign l r) s ok err ↔ match s.atoms.isOpen l with
      | .error e => err (.assignment e) s
      | .ok false => ok () s
      | .ok true => ok () (s.assigned l r) := by
  simp only [Solver.assign, yields_bind, yields_get, yields_onAtoms, AtomM.setValue_eq ha]
  cases s.atoms.isOpen l with
  | error e => exact yields_ofExcept_error
  | ok fresh => cases fresh <;> exact Iff.rfl

/-- A literal without a value is assigned. -/
theorem yields_assign (ha : s.atoms.Aligned) (h : s.atoms.isOpen l = .ok true) :
    Yields (Solver.assign l r) s ok err ↔ ok () (s.assigned l r) := by rw [yields_assign_iff ha, h]

theorem isOpen_of_valueOf (hv : s.atoms.valueOf l.atom = none) (hk : l.atom < s.atoms.size) :
    s.atoms.isOpen l = .ok true := AtomTable.isOpen_iff.mpr ⟨hk, hv⟩

theorem yields_decide (ha : s.atoms.Aligned) (hv : s.atoms.valueOf l.atom = none) (hk : l.atom < s.atoms.size) :
    Yields (Solver.decide l) s ok err ↔ ok () (s.decided l) := by
  simp only [Solver.decide, yields_bind, yields_get, hv, Option.isSome_none,
    Bool.false_eq_true, if_false, yields_onTrail]
  rw [yields_assign (s := { s with trail := s.trail.openLevel }) ha (isOpen_of_valueOf hv hk)]
  exact yields_onCounters

theorem yields_unassign (ha : s.atoms.Aligned) {ls : List Literal} (hls : ∀ l ∈ ls, l.atom < s.atoms.size) :
    Yields (unassign ls) s ok err ↔ ok () { s with atoms := s.atoms.dropAll ls } := by
  induction ls generalizing s with
  | nil => exact yields_pure
  | cons l ls ih =>
    rw [unassign, yields_bind, dropValue, yields_onAtoms_of_ok (AtomM.dropValue_eq ha (hls l List.mem_cons_self))]
    rw [ih (ha.dropValue l.atom) fun m hm => by rw [AtomTable.size_dropValue]; exact hls m (List.mem_cons_of_mem l hm)]
    rfl

theorem yields_backjump_of_tracks (h : Tracks s.atoms s.trail) :
    Yields (Solver.backjump level) s ok err ↔ ok () (s.backjumped level) := by
  simp only [Solver.backjump, yields_bind, yields_get, yields_onTrail, yields_require, h.ordered.covers level, if_true]
  rw [yields_unassign (s := { s with trail := s.trail.cut level }) h.aligned]
  · rfl
  · intro l hl
    cases hs : s.trail.starts[level]? with
    | none =>
      rw [Trail.above_of_none hs] at hl
      cases hl
    | some start =>
      obtain ⟨i, -, hi⟩ := (Trail.mem_above hs).mp (List.mem_reverse.mp hl)
      exact h.lt_size hi

theorem yields_backjump (h : Agrees s.atoms s.trail) :
    Yields (Solver.backjump level) s ok err ↔ ok () (s.backjumped level) := yields_backjump_of_tracks h.tracks

end Solver

end ClauseLearning
