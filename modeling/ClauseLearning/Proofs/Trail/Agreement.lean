import ClauseLearning.Proofs.AtomTable.Results
import ClauseLearning.Proofs.Trail.Levels
import Mathlib.Data.List.Nodup
import Mathlib.Data.List.Perm.Subperm

/-!
# Agreement of the trail and the atom table

The trail lists the literals that the atom table makes true, apart from the top atom, each atom once and with
the level of its position (`Tracks`); the top atom is true without antecedent. Assignments, decisions, backjumps
and new atoms keep this, and so does whatever only changes activities (`AtomTable.SameValues`). In a solve the
levels of the trail are `Layered`, too (`Agrees`). From agreement follow the readings of the table that the
other proofs use: what is true, false or open (`Agrees.value_iff`, `Agrees.isOpen_cases`), and that the trail is
shorter than the table (`Agrees.size_lt`).
-/

namespace ClauseLearning

/-! ## Trails of any kind -/

/-- The trail lists what the table makes true, each atom once and with the level of its position. Its levels are only
ordered, as after decisions that are made at any time. -/
structure Tracks (a : AtomTable) (t : Trail) : Prop where
  aligned : a.Aligned
  ordered : t.Ordered
  top : a.valueOf topAtom = some true
  holds : ∀ {i : Nat} {l : Literal}, t.literals[i]? = some l → a.valueOf l.atom = some l.polarity
  listed : ∀ {l : Literal}, l.atom ≠ topAtom → a.valueOf l.atom = some l.polarity → ∃ i : Nat, t.literals[i]? = some l
  ne_top : ∀ {i : Nat} {l : Literal}, t.literals[i]? = some l → l.atom ≠ topAtom
  position_inj : ∀ {i j : Nat} {k l : Literal}, t.literals[i]? = some k →
    t.literals[j]? = some l → k.atom = l.atom → i = j
  hasLevel : ∀ {i : Nat} {l : Literal}, t.literals[i]? = some l → ∃ n, a.levelOf l.atom = some n ∧ t.HasLevel i n
  unvalued : ∀ {x : Nat}, a.valueOf x = none → a.levelOf x = none ∧ a.reasonOf x = none
  top_reason : a.reasonOf topAtom = none

/-- A new table and an empty trail agree. -/
theorem tracks_ofConfig (config : Config) : Tracks (.ofConfig config) {} where
  aligned := AtomTable.aligned_ofConfig config
  ordered := ⟨by simp, by simp, Nat.le_refl _⟩
  top := rfl
  holds hi := by simp at hi
  listed {l} hl hv := by
    have hlt : l.atom < 1 := AtomTable.lt_size_of_valueOf hv
    exact absurd (Nat.lt_one_iff.mp hlt) hl
  ne_top hi := by simp at hi
  position_inj hi := by simp at hi
  hasLevel hi := by simp at hi
  unvalued {x} hx := by
    cases x with
    | zero => cases hx
    | succ x => exact ⟨rfl, rfl⟩
  top_reason := rfl

namespace Tracks

variable {a b : AtomTable} {t : Trail} {i j n x : Nat} {k l : Literal}

theorem lt_size (h : Tracks a t) (hi : t.literals[i]? = some l) : l.atom < a.size :=
  AtomTable.lt_size_of_valueOf (h.holds hi)

/-- The atoms on the trail are distinct. -/
theorem nodup_atoms (h : Tracks a t) : (t.literals.toList.map (·.atom)).Nodup := by
  refine List.nodup_iff_getElem?_ne_getElem?.mpr fun i j hij hj heq => ?_
  rw [List.length_map, Array.length_toList] at hj
  simp only [List.getElem?_map, Array.getElem?_toList, Array.getElem?_eq_getElem hj,
    Array.getElem?_eq_getElem (Nat.lt_trans hij hj), Option.map_some, Option.some.injEq] at heq
  have := h.position_inj (Array.getElem?_eq_getElem (Nat.lt_trans hij hj)) (Array.getElem?_eq_getElem hj) heq
  omega

theorem of_sameValues (h : Tracks a t) (hs : a.SameValues b) : Tracks b t where
  aligned := hs.aligned h.aligned
  ordered := h.ordered
  top := by rw [hs.valueOf_eq]; exact h.top
  holds hi := by rw [hs.valueOf_eq]; exact h.holds hi
  listed hl hv := h.listed hl (by rwa [hs.valueOf_eq] at hv)
  ne_top := h.ne_top
  position_inj := h.position_inj
  hasLevel hi := by rw [hs.levelOf_eq]; exact h.hasLevel hi
  unvalued hx := by rw [hs.levelOf_eq, hs.reasonOf_eq]; exact h.unvalued (by rwa [hs.valueOf_eq] at hx)
  top_reason := by rw [hs.reasonOf_eq]; exact h.top_reason

theorem grow (h : Tracks a t) (p : Bool) : Tracks (a.grow p) t where
  aligned := h.aligned.grow p
  ordered := h.ordered
  top := by rw [AtomTable.valueOf_grow]; exact h.top
  holds hi := by rw [AtomTable.valueOf_grow]; exact h.holds hi
  listed hl hv := h.listed hl (by rwa [AtomTable.valueOf_grow] at hv)
  ne_top := h.ne_top
  position_inj := h.position_inj
  hasLevel hi := by rw [AtomTable.levelOf_grow]; exact h.hasLevel hi
  unvalued hx := by
    rw [AtomTable.levelOf_grow, AtomTable.reasonOf_grow]
    exact h.unvalued (by rwa [AtomTable.valueOf_grow] at hx)
  top_reason := by rw [AtomTable.reasonOf_grow]; exact h.top_reason

/-- The head moves on over a literal that was propagated. -/
theorem propagated (h : Tracks a t) (hi : t.literals[t.head]? = some l) :
    Tracks a { t with head := t.head + 1 } where
  aligned := h.aligned
  ordered := ⟨h.ordered.sorted, h.ordered.bounded, (Array.getElem?_eq_some_iff.mp hi).1⟩
  top := h.top
  holds := h.holds
  listed := h.listed
  ne_top := h.ne_top
  position_inj := h.position_inj
  hasLevel := h.hasLevel
  unvalued := h.unvalued
  top_reason := h.top_reason

theorem openLevel (h : Tracks a t) : Tracks a t.openLevel where
  aligned := h.aligned
  ordered := h.ordered.openLevel
  top := h.top
  holds := h.holds
  listed := h.listed
  ne_top := h.ne_top
  position_inj := h.position_inj
  hasLevel hi := by
    obtain ⟨n, hn, hlevel⟩ := h.hasLevel hi
    exact ⟨n, hn, hlevel.openLevel (Array.getElem?_eq_some_iff.mp hi).1⟩
  unvalued := h.unvalued
  top_reason := h.top_reason

section NewValue

variable (h : Tracks a t) (hl : l.atom ≠ topAtom) (hk : l.atom < a.size) (hv : a.valueOf l.atom = none)
include h hl hk hv

/-- What a new value and a longer trail, with levels as they were, have to do with each other. -/
theorem extend (t' : Trail) {r : Option ClauseKey} (ht' : t'.Ordered)
    (hlit : ∀ i, t'.literals[i]? = if i = t.literals.size then some l else t.literals[i]?)
    (hlev : ∀ {i n}, t.HasLevel i n → i < t.literals.size → t'.HasLevel i n)
    (hnew : t'.HasLevel t.literals.size t'.level) : Tracks (a.value l t'.level r) t' := by
  have hlv : l.atom < a.levels.size := by rw [h.aligned.levels]; exact hk
  have hrs : l.atom < a.reasons.size := by rw [h.aligned.reasons]; exact hk
  have hother : ∀ {i : Nat} {m : Literal}, t.literals[i]? = some m → m.atom ≠ l.atom := fun {i m} hi heq => by
    have := h.holds hi
    rw [heq, hv] at this
    cases this
  refine ⟨h.aligned.value l _ r, ht', ?_, ?_, ?_, ?_, ?_, ?_, ?_, ?_⟩
  · rw [AtomTable.valueOf_value hk, if_neg hl.symm]
    exact h.top
  · intro i m hi
    rw [hlit] at hi
    rw [AtomTable.valueOf_value hk]
    split at hi
    · cases hi
      rw [if_pos rfl]
    · rw [if_neg (hother hi)]
      exact h.holds hi
  · intro m hm hmv
    rw [AtomTable.valueOf_value hk] at hmv
    split at hmv
    · rename_i heq
      refine ⟨t.literals.size, ?_⟩
      rw [hlit, if_pos rfl]
      obtain ⟨x, p⟩ := l
      obtain ⟨y, q⟩ := m
      simp only at heq hmv
      cases hmv
      rw [heq]
    · obtain ⟨i, hi⟩ := h.listed hm hmv
      have := (Array.getElem?_eq_some_iff.mp hi).1
      exact ⟨i, by rw [hlit, if_neg (by omega), hi]⟩
  · intro i m hi
    rw [hlit] at hi
    split at hi
    · cases hi
      exact hl
    · exact h.ne_top hi
  · intro i j m m' hi hj heq
    rw [hlit] at hi hj
    split at hi
    · cases hi
      split at hj
      · omega
      · exact absurd heq.symm (hother hj)
    · split at hj
      · cases hj
        exact absurd heq (hother hi)
      · exact h.position_inj hi hj heq
  · intro i m hi
    rw [hlit] at hi
    rw [AtomTable.levelOf_value hlv]
    split at hi
    · rename_i heq
      cases hi
      rw [heq, if_pos rfl]
      exact ⟨_, rfl, hnew⟩
    · rw [if_neg (hother hi)]
      obtain ⟨n, hn, hn'⟩ := h.hasLevel hi
      exact ⟨n, hn, hlev hn' (Array.getElem?_eq_some_iff.mp hi).1⟩
  · intro x hx
    rw [AtomTable.valueOf_value hk] at hx
    rw [AtomTable.levelOf_value hlv, AtomTable.reasonOf_value hrs]
    split at hx
    · cases hx
    · rename_i hne
      rw [if_neg hne, if_neg hne]
      exact h.unvalued hx
  · rw [AtomTable.reasonOf_value hrs, if_neg hl.symm]
    exact h.top_reason

theorem assign (r : Option ClauseKey) : Tracks (a.value l t.level r) (t.push l) :=
  h.extend hl hk hv (t.push l) (h.ordered.push l) (Trail.literals_push t l) (fun hn _ => hn.push l)
    h.ordered.hasLevel_next

end NewValue

/-- The atoms of what a cut removes are those of the positions from the cut on. -/
theorem mem_undone {start level : Nat} (hs : t.starts[level]? = some start) :
    x ∈ (t.above level).reverse.map (·.atom) ↔ ∃ i l, start ≤ i ∧ t.literals[i]? = some l ∧ l.atom = x := by
  simp only [List.mem_map, List.mem_reverse, Trail.mem_above hs]
  constructor
  · rintro ⟨l, ⟨i, hi, hl⟩, rfl⟩
    exact ⟨i, l, hi, hl, rfl⟩
  · rintro ⟨i, l, hi, hl, rfl⟩
    exact ⟨l, ⟨i, hi, hl⟩, rfl⟩

/-- What stays on the trail is not undone. -/
theorem not_mem_undone (h : Tracks a t) {start level : Nat} (hs : t.starts[level]? = some start)
    (hi : t.literals[i]? = some l) (hlt : i < start) : l.atom ∉ (t.above level).reverse.map (·.atom) := by
  rw [mem_undone hs]
  rintro ⟨j, k, hj, hk, heq⟩
  have := h.position_inj hi hk heq.symm
  omega

theorem backjump (h : Tracks a t) (level : Nat) : Tracks (a.dropAll (t.above level).reverse) (t.cut level) := by
  cases hs : t.starts[level]? with
  | none =>
    rw [Trail.above_of_none hs, Trail.cut_of_none hs]
    exact h
  | some start =>
    have hkeep : ∀ {i : Nat} {l : Literal}, (t.cut level).literals[i]? = some l →
        t.literals[i]? = some l ∧ i < start := by
      intro i l hi
      rw [Trail.literals_cut hs] at hi
      split at hi
      · exact ⟨hi, by assumption⟩
      · cases hi
    refine ⟨h.aligned.dropAll _, h.ordered.cut level, ?_, ?_, ?_, ?_, ?_, ?_, ?_, ?_⟩
    · rw [AtomTable.valueOf_dropAll, if_neg, h.top]
      rw [mem_undone hs]
      rintro ⟨j, k, _, hk, heq⟩
      exact h.ne_top hk heq
    · intro i l hi
      rw [AtomTable.valueOf_dropAll, if_neg (h.not_mem_undone hs (hkeep hi).1 (hkeep hi).2)]
      exact h.holds (hkeep hi).1
    · intro l hl hv
      rw [AtomTable.valueOf_dropAll] at hv
      split at hv
      · cases hv
      · rename_i hu
        obtain ⟨i, hi⟩ := h.listed hl hv
        have hlt : i < start := Nat.lt_of_not_le fun hle => hu ((mem_undone hs).mpr ⟨i, l, hle, hi, rfl⟩)
        exact ⟨i, by rw [Trail.literals_cut hs, if_pos hlt, hi]⟩
    · intro i l hi
      exact h.ne_top (hkeep hi).1
    · intro i j k l hi hj
      exact h.position_inj (hkeep hi).1 (hkeep hj).1
    · intro i l hi
      obtain ⟨n, hn, hn'⟩ := h.hasLevel (hkeep hi).1
      rw [AtomTable.levelOf_dropAll, if_neg (h.not_mem_undone hs (hkeep hi).1 (hkeep hi).2)]
      exact ⟨n, hn, hn'.cut hs (hkeep hi).2⟩
    · intro x hx
      rw [AtomTable.valueOf_dropAll] at hx
      rw [AtomTable.levelOf_dropAll, AtomTable.reasonOf_dropAll]
      split
      · exact ⟨rfl, rfl⟩
      · rename_i hu
        rw [if_neg hu] at hx
        exact h.unvalued hx
    · rw [AtomTable.reasonOf_dropAll, h.top_reason, ite_self]

end Tracks

/-! ## Agreement -/

/-- The trail lists what the table makes true, each atom once and with the level of its position. -/
structure Agrees (a : AtomTable) (t : Trail) : Prop where
  aligned : a.Aligned
  layered : t.Layered
  top : a.valueOf topAtom = some true
  holds : ∀ {i : Nat} {l : Literal}, t.literals[i]? = some l → a.valueOf l.atom = some l.polarity
  listed : ∀ {l : Literal}, l.atom ≠ topAtom → a.valueOf l.atom = some l.polarity → ∃ i : Nat, t.literals[i]? = some l
  ne_top : ∀ {i : Nat} {l : Literal}, t.literals[i]? = some l → l.atom ≠ topAtom
  position_inj : ∀ {i j : Nat} {k l : Literal}, t.literals[i]? = some k →
    t.literals[j]? = some l → k.atom = l.atom → i = j
  hasLevel : ∀ {i : Nat} {l : Literal}, t.literals[i]? = some l → ∃ n, a.levelOf l.atom = some n ∧ t.HasLevel i n
  unvalued : ∀ {x : Nat}, a.valueOf x = none → a.levelOf x = none ∧ a.reasonOf x = none
  top_reason : a.reasonOf topAtom = none

theorem agrees_iff {a : AtomTable} {t : Trail} : Agrees a t ↔ Tracks a t ∧ t.Layered := by
  constructor
  · intro h
    exact ⟨⟨h.aligned, h.layered.ordered, h.top, h.holds, h.listed, h.ne_top, h.position_inj, h.hasLevel, h.unvalued,
      h.top_reason⟩, h.layered⟩
  · rintro ⟨h, hl⟩
    exact ⟨h.aligned, hl, h.top, h.holds, h.listed, h.ne_top, h.position_inj, h.hasLevel, h.unvalued, h.top_reason⟩

theorem Agrees.tracks {a : AtomTable} {t : Trail} (h : Agrees a t) : Tracks a t := (agrees_iff.mp h).1

/-- A new table and an empty trail agree. -/
theorem agrees_ofConfig (config : Config) : Agrees (.ofConfig config) {} :=
  agrees_iff.mpr ⟨tracks_ofConfig config, by simp, by simp, by simp, Nat.le_refl _⟩

namespace Agrees

variable {a b : AtomTable} {t : Trail} {i j n x : Nat} {k l : Literal}

theorem value_iff (h : Agrees a t) (hl : l.atom ≠ topAtom) :
    a.valueOf l.atom = some l.polarity ↔ ∃ i : Nat, t.literals[i]? = some l :=
  ⟨h.listed hl, fun ⟨_, hi⟩ => h.holds hi⟩

/-- The false literals are those whose negations are on the trail. -/
theorem value_neg_iff (h : Agrees a t) (hl : l.atom ≠ topAtom) :
    a.valueOf l.atom = some (!l.polarity) ↔ ∃ i : Nat, t.literals[i]? = some (-l) := h.value_iff (l := -l) hl

theorem fails_iff (h : Agrees a t) (hl : l.atom ≠ topAtom) :
    a.valuation.fails l = true ↔ ∃ i : Nat, t.literals[i]? = some (-l) := by
  rw [← h.value_neg_iff hl]
  simp [Valuation.fails, AtomTable.valueOf]

theorem holds_iff (h : Agrees a t) (hl : l.atom ≠ topAtom) :
    a.valuation.holds l = true ↔ ∃ i : Nat, t.literals[i]? = some l := by
  rw [← h.value_iff hl]
  simp [Valuation.holds, AtomTable.valueOf]

theorem lt_size (h : Agrees a t) (hi : t.literals[i]? = some l) : l.atom < a.size :=
  AtomTable.lt_size_of_valueOf (h.holds hi)

theorem lt_size_neg (h : Agrees a t) (hi : t.literals[i]? = some (-l)) : l.atom < a.size :=
  h.lt_size (l := -l) hi

/-- A literal and its negation are not both on the trail. -/
theorem not_both (h : Agrees a t) (hi : t.literals[i]? = some l) (hj : t.literals[j]? = some (-l)) : False := by
  have h1 := h.holds hi
  have h2 := h.holds hj
  rw [Literal.atom_neg, h1] at h2
  simp at h2

theorem position_eq (h : Agrees a t) (hi : t.literals[i]? = some l) (hj : t.literals[j]? = some l) : i = j :=
  h.position_inj hi hj rfl

/-- The level that the table gives an atom is that of its position. -/
theorem hasLevel_of (h : Agrees a t) (hi : t.literals[i]? = some l) (hn : a.levelOf l.atom = some n) :
    t.HasLevel i n := by
  obtain ⟨m, hm, hl⟩ := h.hasLevel hi
  rw [hn] at hm
  cases hm
  exact hl

/-- A literal of a known atom is true, false or open, as `AtomTable.isOpen` tells. -/
theorem isOpen_cases (h : Agrees a t) (hl : l.atom ≠ topAtom) (hk : l.atom < a.size) :
    (a.isOpen l = .ok true ∧ a.valueOf l.atom = none) ∨ (a.isOpen l = .ok false ∧ ∃ i : Nat, t.literals[i]? = some l) ∨
      (a.isOpen l = .error .conflictingAssignment ∧ ∃ i : Nat, t.literals[i]? = some (-l)) := by
  rw [← h.value_iff hl, ← h.value_neg_iff hl]
  simp only [AtomTable.isOpen, AtomTable.valueOf, Valuation.valueOf, AtomTable.size] at *
  rw [Array.getElem?_eq_getElem hk]
  cases hv : a.valuation[l.atom] with
  | none => exact Or.inl ⟨rfl, rfl⟩
  | some v =>
    by_cases hp : v = l.polarity
    · exact Or.inr (Or.inl ⟨by simp [hp], by simp [hp]⟩)
    · refine Or.inr (Or.inr ⟨by simp [hp], ?_⟩)
      cases v <;> cases hq : l.polarity <;> simp_all

/-- Without a value nothing of the atom is on the trail. -/
theorem not_listed (h : Agrees a t) (hx : a.valueOf l.atom = none) (hi : t.literals[i]? = some l) : False := by
  rw [h.holds hi] at hx
  cases hx

/-- The trail is shorter than the table, as the top atom is not on it. -/
theorem size_lt (h : Agrees a t) : t.literals.size < a.size := by
  have hcons : (topAtom :: t.literals.toList.map (·.atom)).Nodup := by
    rw [List.nodup_cons]
    refine ⟨fun hm => ?_, h.tracks.nodup_atoms⟩
    obtain ⟨l, hl, heq⟩ := List.mem_map.mp hm
    obtain ⟨i, hi⟩ := Array.mem_iff_getElem?.mp (Array.mem_toList_iff.mp hl)
    exact h.ne_top hi heq
  have hsub : (topAtom :: t.literals.toList.map (·.atom)) ⊆ List.range a.size := by
    intro x hx
    rw [List.mem_range]
    rcases List.mem_cons.mp hx with rfl | hx
    · exact AtomTable.lt_size_of_valueOf h.top
    · obtain ⟨l, hl, rfl⟩ := List.mem_map.mp hx
      obtain ⟨i, hi⟩ := Array.mem_iff_getElem?.mp (Array.mem_toList_iff.mp hl)
      exact h.lt_size hi
  have := (List.Nodup.subperm hcons hsub).length_le
  rw [List.length_cons, List.length_map, Array.length_toList, List.length_range] at this
  exact this

/-! ## What keeps agreement -/

theorem of_sameValues (h : Agrees a t) (hs : a.SameValues b) : Agrees b t :=
  agrees_iff.mpr ⟨h.tracks.of_sameValues hs, h.layered⟩

theorem grow (h : Agrees a t) (p : Bool) : Agrees (a.grow p) t := agrees_iff.mpr ⟨h.tracks.grow p, h.layered⟩

/-- The head moves on over a literal that was propagated. -/
theorem propagated (h : Agrees a t) (hi : t.literals[t.head]? = some l) : Agrees a { t with head := t.head + 1 } :=
  agrees_iff.mpr ⟨h.tracks.propagated hi, h.layered.increasing, h.layered.inside,
    fun hs => Nat.le_succ_of_le (h.layered.propagated hs), (Array.getElem?_eq_some_iff.mp hi).1⟩

section NewValue

variable (h : Agrees a t) (hl : l.atom ≠ topAtom) (hk : l.atom < a.size) (hv : a.valueOf l.atom = none)
include h hl hk hv

theorem assign (r : Option ClauseKey) : Agrees (a.value l t.level r) (t.push l) :=
  agrees_iff.mpr ⟨h.tracks.assign hl hk hv r, h.layered.push l⟩

theorem decide (hh : t.head = t.literals.size) : Agrees (a.value l t.openLevel.level none) (t.openLevel.push l) :=
  agrees_iff.mpr ⟨h.tracks.openLevel.assign hl hk hv none, h.layered.decide hh l⟩

end NewValue

theorem backjump (h : Agrees a t) (level : Nat) : Agrees (a.dropAll (t.above level).reverse) (t.cut level) :=
  agrees_iff.mpr ⟨h.tracks.backjump level, h.layered.cut level⟩

end Agrees

end ClauseLearning
