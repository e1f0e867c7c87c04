import ClauseLearning.ClauseStore.Activity
import ClauseLearning.ClauseStore.Reduction
import Mathlib.Data.List.Basic

/-!
# Look-up in the clause store

`ClauseStore.find` gives the literals stored with a key. In a `Keyed` store each clause stands at the slot of its
key and the free keys are those of distinct empty slots (`Keyed.put`); a clause that replaces another one is
found at its key (`find_put`).
-/

namespace ClauseLearning

instance : Std.TransOrd Literal := inferInstanceAs (Std.TransCmp (compareOn Literal.index))

instance : Std.LawfulEqOrd Literal where
  compare_self {l} := by
    show compare l.index l.index = .eq
    exact Std.ReflCmp.compare_self
  eq_of_compare {k l} h := by
    have h : compare k.index l.index = .eq := h
    exact Literal.index_inj (Std.LawfulEqCmp.eq_of_compare h)

namespace ClauseKey

/-- The literals are as many as the kind of the key says, and the literal of the key if there is one. -/
def Fits : ClauseKey → Array Literal → Prop
  | givenUnit l, c | learnedUnit l, c => c = #[l]
  | givenBinary _, c | learnedBinary _, c => c.size = 2
  | given _, c | learned _ _, c => 3 ≤ c.size

/-- Whether the key names a clause of one literal. -/
def isUnit : ClauseKey → Bool
  | givenUnit _ | learnedUnit _ => true
  | givenBinary _ | learnedBinary _ | given _ | learned _ _ => false

theorem Fits.size_pos {key : ClauseKey} {c : Array Literal} (h : key.Fits c) : 0 < c.size := by
  cases key <;> simp only [Fits] at h
  all_goals first | omega | simp [h]

/-- The key of a literal has one clause that fits. -/
theorem Fits.unique {key : ClauseKey} {c d : Array Literal} (hu : key.isUnit = true)
    (hc : key.Fits c) (hd : key.Fits d) : c = d := by
  cases key with
  | givenUnit l => exact hc.trans hd.symm
  | learnedUnit l => exact hc.trans hd.symm
  | _ => cases hu

/-- Of two literals or more, only the number matters. -/
theorem Fits.of_size {key : ClauseKey} {c d : Array Literal} (h : key.Fits c) (hs : d.size = c.size) (h2 : 2 ≤ c.size) :
    key.Fits d := by
  cases key with
  | givenUnit l => rw [show c = #[l] from h] at h2; simp at h2
  | learnedUnit l => rw [show c = #[l] from h] at h2; simp at h2
  | _ => simp only [Fits] at h ⊢; omega

end ClauseKey

namespace ClauseStore

/-- The literals of the clause with a key. -/
def find (s : ClauseStore) (key : ClauseKey) : Option (Array Literal) := (s.get key).toOption.map (·.literals)

/-- Each clause stands at the slot of its key, and the free keys are those of distinct empty slots. -/
structure Keyed (s : ClauseStore) : Prop where
  givenBinary : ∀ {i : Nat} {c : StoredClause}, s.givenBinaries[i]? = some c → c.key = .givenBinary i
  learnedBinary : ∀ {i : Nat} {c : StoredClause}, s.learnedBinaries[i]? = some c → c.key = .learnedBinary i
  given : ∀ {i : Nat} {c : StoredClause}, s.givenLong[i]? = some c → c.key = .given i
  learned : ∀ {i : Nat} {c : StoredClause}, s.learnedSlots[i]? = some (some c) → ∃ token, c.key = .learned i token
  free : ∀ {key : ClauseKey}, key ∈ s.free → ∃ i token, key = .learned i token ∧ s.learnedSlots[i]? = some none
  free_nodup : (s.free.map ClauseKey.index).Nodup

/-- The key has been given to a clause, which may have been removed since. -/
def Issued (s : ClauseStore) : ClauseKey → Prop
  | .givenUnit _ | .learnedUnit _ => True
  | .givenBinary i => i < s.givenBinaries.size
  | .learnedBinary i => i < s.learnedBinaries.size
  | .given i => i < s.givenLong.size
  | .learned i token => i < s.learnedSlots.size ∧
      (∀ c n, s.learnedSlots[i]? = some (some c) → c.key = .learned i n → token ≤ n) ∧
      ∀ n, .learned i n ∈ s.free → token ≤ n

variable {s s' : ClauseStore} {key k : ClauseKey} {c d : StoredClause} {lits : Array Literal}

theorem find_eq_some_iff : s.find key = some lits ↔ ∃ c, s.get key = .ok c ∧ c.literals = lits := by
  unfold find
  cases h : s.get key <;> simp [Except.toOption]

theorem find_of_get (h : s.get key = .ok c) : s.find key = some c.literals := find_eq_some_iff.mpr ⟨c, h, rfl⟩

/-! ## Look-up by kind of key -/

theorem get_givenUnit_iff {l : Literal} :
    s.get (.givenUnit l) = .ok c ↔ l ∈ s.givenUnits ∧ c = ⟨.givenUnit l, #[l], 0⟩ := by
  by_cases h : l ∈ s.givenUnits <;> simp [get, h, eq_comm]

theorem get_learnedUnit_iff {l : Literal} :
    s.get (.learnedUnit l) = .ok c ↔ l ∈ s.learnedUnits ∧ c = ⟨.learnedUnit l, #[l], 0⟩ := by
  by_cases h : l ∈ s.learnedUnits <;> simp [get, h, eq_comm]

theorem get_givenBinary_iff {i : Nat} : s.get (.givenBinary i) = .ok c ↔ s.givenBinaries[i]? = some c := by
  cases h : s.givenBinaries[i]? <;> simp [get, get.ofOption, h]

theorem get_learnedBinary_iff {i : Nat} : s.get (.learnedBinary i) = .ok c ↔ s.learnedBinaries[i]? = some c := by
  cases h : s.learnedBinaries[i]? <;> simp [get, get.ofOption, h]

theorem get_given_iff {i : Nat} : s.get (.given i) = .ok c ↔ s.givenLong[i]? = some c := by
  cases h : s.givenLong[i]? <;> simp [get, get.ofOption, h]

theorem get_learned_iff {i token : Nat} :
    s.get (.learned i token) = .ok c ↔ s.learnedSlots[i]? = some (some c) ∧ c.key = .learned i token := by
  simp only [get]
  split
  · rename_i d hd
    rw [hd]
    split
    · rename_i hk
      simp only [Except.ok.injEq, Option.some.injEq]
      exact ⟨fun h => ⟨h, h ▸ hk⟩, fun h => h.1⟩
    · rename_i hk
      simp only [reduceCtorEq, Option.some.injEq, false_iff, not_and]
      rintro rfl h
      exact hk h
  · rename_i hn
    simp only [reduceCtorEq, false_iff, not_and]
    exact fun h => absurd h (hn c)

theorem find_givenUnit (s : ClauseStore) (l : Literal) :
    s.find (.givenUnit l) = if l ∈ s.givenUnits then some #[l] else none := by
  by_cases h : l ∈ s.givenUnits <;> simp [find, get, h, Except.toOption]

theorem find_learnedUnit (s : ClauseStore) (l : Literal) :
    s.find (.learnedUnit l) = if l ∈ s.learnedUnits then some #[l] else none := by
  by_cases h : l ∈ s.learnedUnits <;> simp [find, get, h, Except.toOption]

theorem find_givenBinary (s : ClauseStore) (i : Nat) :
    s.find (.givenBinary i) = s.givenBinaries[i]?.map (·.literals) := by
  ext lits
  simp [find_eq_some_iff, get_givenBinary_iff]

theorem find_learnedBinary (s : ClauseStore) (i : Nat) :
    s.find (.learnedBinary i) = s.learnedBinaries[i]?.map (·.literals) := by
  ext lits
  simp [find_eq_some_iff, get_learnedBinary_iff]

theorem find_given (s : ClauseStore) (i : Nat) : s.find (.given i) = s.givenLong[i]?.map (·.literals) := by
  ext lits
  simp [find_eq_some_iff, get_given_iff]

/-- The clause of a slot is found with its own token. -/
theorem find_learned (s : ClauseStore) (i token : Nat) : s.find (.learned i token) =
    (s.learnedSlots[i]?.join.filter fun c => c.key = .learned i token).map (·.literals) := by
  ext lits
  simp [find_eq_some_iff, get_learned_iff, Option.filter_eq_some_iff, Option.join_eq_some_iff, and_assoc]

theorem find_learned_iff {i token : Nat} : s.find (.learned i token) = some lits ↔
    ∃ c, s.learnedSlots[i]? = some (some c) ∧ c.key = .learned i token ∧ c.literals = lits := by
  simp only [find_eq_some_iff, get_learned_iff, and_assoc]

/-- The key of a literal names the clause of that literal. -/
theorem size_of_isUnit (hu : key.isUnit = true) (hf : s.find key = some lits) : lits.size = 1 := by
  cases key with
  | givenUnit l => rw [find_givenUnit] at hf; split at hf <;> cases hf; rfl
  | learnedUnit l => rw [find_learnedUnit] at hf; split at hf <;> cases hf; rfl
  | _ => cases hu

/-- A clause of two literals or more has no key of a literal. -/
theorem isUnit_of_size (hf : s.find key = some lits) (h2 : 2 ≤ lits.size) : key.isUnit = false := by
  by_contra hu
  have := size_of_isUnit (by simpa using hu) hf
  omega

theorem isUnit_of_fits (hc : key.Fits lits) (h2 : 2 ≤ lits.size) : key.isUnit = false := by
  cases key with
  | givenUnit l => rw [hc] at h2; simp at h2
  | learnedUnit l => rw [hc] at h2; simp at h2
  | _ => rfl

/-- A clause is found with its own key. -/
theorem Keyed.key_eq (h : s.Keyed) (hc : s.get key = .ok c) : c.key = key := by
  cases key with
  | givenUnit l => rw [(get_givenUnit_iff.mp hc).2]
  | learnedUnit l => rw [(get_learnedUnit_iff.mp hc).2]
  | givenBinary i => exact h.givenBinary (get_givenBinary_iff.mp hc)
  | learnedBinary i => exact h.learnedBinary (get_learnedBinary_iff.mp hc)
  | given i => exact h.given (get_given_iff.mp hc)
  | learned i token => exact (get_learned_iff.mp hc).2

/-- What is found has a key that was issued. -/
theorem Keyed.issued (h : s.Keyed) (hk : s.find key = some lits) : s.Issued key := by
  obtain ⟨c, hc, -⟩ := find_eq_some_iff.mp hk
  cases key with
  | givenUnit l => trivial
  | learnedUnit l => trivial
  | givenBinary i => exact (Array.getElem?_eq_some_iff.mp (get_givenBinary_iff.mp hc)).1
  | learnedBinary i => exact (Array.getElem?_eq_some_iff.mp (get_learnedBinary_iff.mp hc)).1
  | given i => exact (Array.getElem?_eq_some_iff.mp (get_given_iff.mp hc)).1
  | learned i token =>
    obtain ⟨hs, hk⟩ := get_learned_iff.mp hc
    refine ⟨(Array.getElem?_eq_some_iff.mp hs).1, fun d n hd hn => ?_, fun n hn => ?_⟩
    · rw [hs] at hd
      cases hd
      rw [hk] at hn
      cases hn
      exact Nat.le_refl _
    · obtain ⟨j, m, hj, he⟩ := h.free hn
      cases hj
      rw [hs] at he
      cases he

theorem keyed_ofConfig (config : Config) : (ofConfig config).Keyed :=
  ⟨by simp [ofConfig], by simp [ofConfig], by simp [ofConfig], by simp [ofConfig], by simp [ofConfig],
    by simp [ofConfig]⟩

theorem find_ofConfig (config : Config) (key : ClauseKey) : (ofConfig config).find key = none := by
  cases key with
  | givenUnit l => rw [find_givenUnit]; simp [ofConfig]
  | learnedUnit l => rw [find_learnedUnit]; simp [ofConfig]
  | givenBinary i => rw [find_givenBinary]; simp [ofConfig]
  | learnedBinary i => rw [find_learnedBinary]; simp [ofConfig]
  | given i => rw [find_given]; simp [ofConfig]
  | learned i token =>
    rw [Option.eq_none_iff_forall_ne_some]
    intro lits h
    obtain ⟨c, hc, -⟩ := find_learned_iff.mp h
    simp [ofConfig] at hc

/-! ## Entries after a change -/

section Entries

variable {α : Type} {xs : Array α} {i : Nat} {v : α}

theorem getElem?_setIfInBounds_of_lt (hi : i < xs.size) (v : α) (j : Nat) :
    (xs.setIfInBounds i v)[j]? = if j = i then some v else xs[j]? := by
  by_cases hj : j = i
  · rw [hj, Array.getElem?_setIfInBounds_self_of_lt hi, if_pos rfl]
  · rw [Array.getElem?_setIfInBounds_ne (Ne.symm hj), if_neg hj]

/-- What holds of all entries and of a new one holds of all entries after it took the place of another. -/
theorem forall_setIfInBounds {P : Nat → α → Prop} (hv : P i v) (h : ∀ {j : Nat} {x : α}, xs[j]? = some x → P j x)
    {j : Nat} {x : α} (hx : (xs.setIfInBounds i v)[j]? = some x) : P j x := by
  by_cases hj : i = j
  · rw [hj, Array.getElem?_setIfInBounds_self] at hx
    split at hx <;> cases hx
    exact hj ▸ hv
  · rw [Array.getElem?_setIfInBounds_ne hj] at hx
    exact h hx

theorem forall_push {P : Nat → α → Prop} (hv : P xs.size v) (h : ∀ {j : Nat} {x : α}, xs[j]? = some x → P j x)
    {j : Nat} {x : α} (hx : (xs.push v)[j]? = some x) : P j x := by
  rw [Array.getElem?_push] at hx
  split at hx
  · rename_i hj
    cases hx
    exact hj ▸ hv
  · exact h hx

end Entries

/-! ## A clause in place of another -/

section Put

variable (hd : s.get c.key = .ok d)
include hd

theorem Keyed.put (h : s.Keyed) : (s.put c).Keyed := by
  unfold ClauseStore.put
  cases hk : c.key with
  | givenUnit l => exact h
  | learnedUnit l => exact h
  | givenBinary slot => exact { h with givenBinary := forall_setIfInBounds hk h.givenBinary }
  | learnedBinary slot => exact { h with learnedBinary := forall_setIfInBounds hk h.learnedBinary }
  | given slot => exact { h with given := forall_setIfInBounds hk h.given }
  | learned slot token =>
    rw [hk, get_learned_iff] at hd
    have hlt := (Array.getElem?_eq_some_iff.mp hd.1).1
    refine { h with learned := fun {i e} he => ?_, free := fun {key} hkey => ?_ }
    · rw [getElem?_setIfInBounds_of_lt hlt] at he
      split at he
      · rename_i hi
        cases he
        exact ⟨token, hi ▸ hk⟩
      · exact h.learned he
    · obtain ⟨i, t, rfl, hi⟩ := h.free hkey
      have hne : i ≠ slot := fun heq => by
        rw [heq, hd.1] at hi
        cases hi
      exact ⟨i, t, rfl, by rw [getElem?_setIfInBounds_of_lt hlt, if_neg hne, hi]⟩

theorem issued_put (hk : s.Issued k) : (s.put c).Issued k := by
  unfold ClauseStore.put
  cases hkey : c.key with
  | givenUnit l => exact hk
  | learnedUnit l => exact hk
  | givenBinary slot => cases k <;> simp_all [Issued]
  | learnedBinary slot => cases k <;> simp_all [Issued]
  | given slot => cases k <;> simp_all [Issued]
  | learned slot token =>
    rw [hkey, get_learned_iff] at hd
    have hlt := (Array.getElem?_eq_some_iff.mp hd.1).1
    cases k with
    | learned i n =>
      obtain ⟨h1, h2, h3⟩ := hk
      refine ⟨by simpa using h1, fun e m he hm => ?_, h3⟩
      rw [getElem?_setIfInBounds_of_lt hlt] at he
      split at he
      · rename_i hi
        subst hi
        cases he
        exact h2 d m hd.1 (hd.2.trans (hkey.symm.trans hm))
      · exact h2 e m he hm
    | _ => exact hk

/-- At the key of the clause its literals are found, elsewhere what was found before. -/
theorem find_put (hu : c.key.isUnit = false) (k : ClauseKey) :
    (s.put c).find k = if k = c.key then some c.literals else s.find k := by
  unfold ClauseStore.put
  cases hk : c.key with
  | givenUnit l => rw [hk] at hu; cases hu
  | learnedUnit l => rw [hk] at hu; cases hu
  | givenBinary slot =>
    rw [hk, get_givenBinary_iff] at hd
    cases k with
    | givenBinary i =>
      rw [find_givenBinary, find_givenBinary, getElem?_setIfInBounds_of_lt (Array.getElem?_eq_some_iff.mp hd).1]
      by_cases hi : i = slot <;> simp [hi]
    | _ => rfl
  | learnedBinary slot =>
    rw [hk, get_learnedBinary_iff] at hd
    cases k with
    | learnedBinary i =>
      rw [find_learnedBinary, find_learnedBinary, getElem?_setIfInBounds_of_lt (Array.getElem?_eq_some_iff.mp hd).1]
      by_cases hi : i = slot <;> simp [hi]
    | _ => rfl
  | given slot =>
    rw [hk, get_given_iff] at hd
    cases k with
    | given i =>
      rw [find_given, find_given, getElem?_setIfInBounds_of_lt (Array.getElem?_eq_some_iff.mp hd).1]
      by_cases hi : i = slot <;> simp [hi]
    | _ => rfl
  | learned slot token =>
    rw [hk, get_learned_iff] at hd
    cases k with
    | learned i n =>
      rw [find_learned, find_learned, getElem?_setIfInBounds_of_lt (Array.getElem?_eq_some_iff.mp hd.1).1]
      by_cases hi : i = slot
      · -- the clause that was there had the same token
        rw [if_pos hi, hi, hd.1]
        by_cases hn : token = n
        · simp [hk, hn]
        · simp [Option.filter_some, hk, hd.2, hn, Ne.symm hn]
      · simp [hi]
    | _ => rfl

end Put

end ClauseStore

end ClauseLearning
