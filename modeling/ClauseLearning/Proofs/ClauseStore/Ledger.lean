import ClauseLearning.Proofs.ClauseStore.Slots

/-!
# Keys of a clause store over its history

A `Ledger` is a clause store with the keys that it gave out, each with the clause stored with it, and an `Edit` is what
can be done to the store from outside. After each edit the store agrees with what was entered (`Ledger.Exact`): a key
names the clause stored with it, its literals maybe in another order, or nothing and then never again, and the counts
are those of the clauses that are listed (`keys_never_confused`).
-/

namespace ClauseLearning

namespace ClauseStore

variable {s s' : ClauseStore} {key k : ClauseKey} {c : Clause} {d : StoredClause} {source : ClauseSource}

theorem getElem?_push_of_some {α : Type} {xs : Array α} {i : Nat} {v w : α} (h : xs[i]? = some v) :
    (xs.push w)[i]? = some v := by
  have hi := (Array.getElem?_eq_some_iff.mp h).1
  rw [Array.getElem?_push, if_neg (by omega), h]

theorem find_eq_none_iff : s.find key = none ↔ ∃ e, s.get key = .error e := by
  unfold find
  cases h : s.get key <;> simp [Except.toOption]

/-- A new clause is placed where there was none. -/
theorem get_place (hv : s.Vacant key) (hd : s.get k = .ok d) : (s.place key c).get k = .ok d := by
  cases k with
  | givenUnit l =>
    rw [get_givenUnit_iff] at hd ⊢
    refine ⟨?_, hd.2⟩
    cases key <;> simp [place, hd.1]
  | learnedUnit l =>
    rw [get_learnedUnit_iff] at hd ⊢
    refine ⟨?_, hd.2⟩
    cases key <;> simp [place, hd.1]
  | givenBinary i =>
    rw [get_givenBinary_iff] at hd ⊢
    cases key with
    | givenBinary j => exact getElem?_push_of_some hd
    | _ => exact hd
  | learnedBinary i =>
    rw [get_learnedBinary_iff] at hd ⊢
    cases key with
    | learnedBinary j => exact getElem?_push_of_some hd
    | _ => exact hd
  | given i =>
    rw [get_given_iff] at hd ⊢
    cases key with
    | given j => exact getElem?_push_of_some hd
    | _ => exact hd
  | learned i token =>
    rw [get_learned_iff] at hd ⊢
    refine ⟨?_, hd.2⟩
    cases key with
    | learned j n =>
      have hne : i ≠ j := by
        rintro rfl
        rcases hv.1 with hi | hi
        · exact absurd (Array.getElem?_eq_some_iff.mp hd.1).1 (by omega)
        · rw [hd.1] at hi
          cases hi
      rw [getElem?_place hv, if_neg hne, hd.1]
    | _ => exact hd.1

/-- To store a clause leaves those that are stored as they are. -/
theorem Keyed.get_insert (h : s.Keyed) (c : Clause) (source : ClauseSource) (hd : s.get k = .ok d) :
    (s.insert c source).2.get k = .ok d := by
  have htake : (s.takeFree c source).get k = .ok d := by
    unfold ClauseStore.takeFree
    split <;> exact hd
  unfold ClauseStore.insert
  split
  · rename_i key hk
    exact get_place (h.freshKey_ok hk).2.2.1 htake
  · exact htake

/-- The clauses of the formula are counted as they are listed. -/
theorem givenCount_eq_length (s : ClauseStore) : s.givenCount = s.givenClauses.length := by
  simp [givenCount, givenClauses, Nat.add_assoc]

/-- The derived clauses are counted as they are listed. -/
theorem learnedCount_eq_length (h : s.slotPart.Counted) : s.learnedCount = s.learnedClauses.length := by
  have hlong : s.learnedLongCount = s.learnedLong.length := by
    rw [length_learnedLong, ← countP_slotPart]
    exact h
  simp [learnedCount, learnedClauses, hlong, Nat.add_assoc]

/-! ## Edits -/

/-- A change of the clause store from outside. -/
inductive Edit
  /-- A clause is stored. -/
  | insert (c : Clause) (source : ClauseSource)
  /-- Long learned clauses are removed, at most as many as told. -/
  | reduceBy (reason : Nat → Option ClauseKey) (count : Nat)
  /-- A fraction of the long learned clauses is removed. -/
  | reduceByFraction (reason : Nat → Option ClauseKey) (fraction : Float)
  /-- Two literals of a clause are swapped. -/
  | swapLiterals (key : ClauseKey) (i j : Nat)
  /-- A clause is made more active. -/
  | bumpActivity (key : ClauseKey)
  /-- All clauses are made less active. -/
  | decayActivity

/-- What was stored, and the key it was given. -/
structure Entry where
  key : ClauseKey
  clause : Clause
  source : ClauseSource
deriving DecidableEq

/-- A clause store with all that was ever stored in it. -/
structure Ledger where
  store : ClauseStore
  entries : List Entry := []

namespace Ledger

variable {m : Ledger} {x : Entry}

def ofConfig (config : Config) : Ledger := { store := ClauseStore.ofConfig config }

/-- An edit that is refused leaves the store as the refusal does. -/
def make (m : Ledger) : Edit → Ledger
  | .insert c source =>
    match m.store.insert c source with
    | (.ok key, store) => { store, entries := m.entries ++ [⟨key, c, source⟩] }
    | (.error _, store) => { m with store }
  | .reduceBy reason count => { m with store := (m.store.reduceBy reason count).2 }
  | .reduceByFraction reason fraction => { m with store := (m.store.reduceByFraction reason fraction).2 }
  | .swapLiterals key i j =>
    match m.store.swapLiterals key i j with
    | .ok store => { m with store }
    | .error _ => m
  | .bumpActivity key => { m with store := m.store.bumpActivity key }
  | .decayActivity => { m with store := m.store.decayActivity }

def makeAll (m : Ledger) (edits : List Edit) : Ledger := edits.foldl make m

theorem store_make_insert (m : Ledger) (c : Clause) (source : ClauseSource) :
    (m.make (.insert c source)).store = (m.store.insert c source).2 := by
  cases hi : m.store.insert c source with
  | mk answer store => cases answer <;> simp [make, hi]

/-- An edit enters one clause, or it enters none and at most removes some. -/
theorem make_cases (h : m.store.Keyed) (edit : Edit) :
    (∃ x : Entry, m.store.insert x.clause x.source = (.ok x.key, (m.make edit).store) ∧
      (m.make edit).entries = m.entries ++ [x]) ∨
    (m.make edit).entries = m.entries ∧ m.store.Lessened (m.make edit).store := by
  cases edit with
  | insert c source =>
    cases hi : m.store.insert c source with
    | mk answer store =>
      cases answer with
      | ok key => exact Or.inl ⟨⟨key, c, source⟩, by simp [make, hi], by simp [make, hi]⟩
      | error e =>
        refine Or.inr ⟨by simp [make, hi], ?_⟩
        simpa [make, hi, takeFree_of_refused hi] using h.lessened_takeFree c source
  | reduceBy reason count => exact Or.inr ⟨rfl, h.lessened_reduceBy reason count⟩
  | reduceByFraction reason fraction => exact Or.inr ⟨rfl, h.lessened_reduceBy reason _⟩
  | swapLiterals key i j =>
    cases hs : m.store.swapLiterals key i j with
    | error e => exact Or.inr (by simpa [make, hs] using h.lessened_refl)
    | ok store => exact Or.inr (by simpa [make, hs] using h.lessened_swapLiterals hs)
  | bumpActivity key =>
    exact Or.inr ⟨rfl, (sameClauses_bumpActivity _ _).lessened h (slotPart_bumpActivity _ _)⟩
  | decayActivity => exact Or.inr ⟨rfl, (sameClauses_decayActivity _).lessened h (slotPart_decayActivity _)⟩

/-! ## The store agrees with what was entered -/

/-- The keys of the entries are issued and fit the clauses, those of two literals or more are distinct, and what is
found at a key is the clause entered with it, which only a long learned clause may fail to be. -/
structure Exact (m : Ledger) : Prop where
  keyed : m.store.Keyed
  counted : m.store.slotPart.Counted
  issued : ∀ x ∈ m.entries, m.store.Issued x.key
  fits : ∀ x ∈ m.entries, x.key.Fits x.clause.toArray
  given : ∀ x ∈ m.entries, x.key.isGiven = true ↔ x.source = .given
  distinct : m.entries.Pairwise fun x y => 2 ≤ x.clause.length → 2 ≤ y.clause.length → x.key ≠ y.key
  literals : ∀ x ∈ m.entries, ∀ {lits : Array Literal}, m.store.find x.key = some lits → lits.Perm x.clause.toArray
  kept : ∀ x ∈ m.entries, x.key.isRemovable = false → ∃ lits, m.store.find x.key = some lits

theorem exact_ofConfig (config : Config) : (ofConfig config).Exact where
  keyed := keyed_ofConfig config
  counted := by simp [SlotPart.Counted, slotPart, ofConfig, ClauseStore.ofConfig]
  issued := by simp [ofConfig]
  fits := by simp [ofConfig]
  given := by simp [ofConfig]
  distinct := .nil
  literals := by simp [ofConfig]
  kept := by simp [ofConfig]

/-- Entries stay as they are when the store loses long learned clauses at most. -/
theorem Exact.lessened {m' : Ledger} (h : m.Exact) (he : m'.entries = m.entries) (hl : m.store.Lessened m'.store) :
    m'.Exact where
  keyed := hl.keyed
  counted := hl.narrows.counted h.counted
  issued x hx := hl.issued (h.issued x (he ▸ hx))
  fits := he ▸ h.fits
  given := he ▸ h.given
  distinct := he ▸ h.distinct
  literals x hx lits hk := by
    obtain ⟨_, hk, hp⟩ := hl.stored hk
    exact hp.trans (h.literals x (he ▸ hx) hk)
  kept x hx hr := by
    obtain ⟨_, hk⟩ := h.kept x (he ▸ hx) hr
    exact hl.kept hr hk

/-- A clause is entered with a key of its own, or with that of its only literal. -/
theorem Exact.enter {m' : Ledger} (h : m.Exact) (hi : m.store.insert x.clause x.source = (.ok x.key, m'.store))
    (he : m'.entries = m.entries ++ [x]) : m'.Exact := by
  obtain ⟨hl, hfits, hgiven, hnew, hissued, hfind⟩ := h.keyed.insert_ok hi
  obtain ⟨-, htakes⟩ := h.keyed.insert_slots hi
  refine ⟨hl.keyed, htakes.counted h.counted, ?_, ?_, ?_, ?_, ?_, ?_⟩
  all_goals simp only [he, List.mem_append, List.mem_singleton, or_imp, forall_and, forall_eq]
  · exact ⟨fun y hy => hl.issued (h.issued y hy), hissued⟩
  · exact ⟨h.fits, hfits⟩
  · exact ⟨h.given, hgiven⟩
  · refine List.pairwise_append.mpr ⟨h.distinct, List.pairwise_singleton _ _, fun y hy z hz _ h2 heq => ?_⟩
    cases List.mem_singleton.mp hz
    exact hnew (isUnit_of_fits hfits h2) (heq ▸ h.issued y hy)
  · refine ⟨fun y hy lits hk => ?_, fun {lits} hk => ?_⟩
    · rw [hfind] at hk
      split at hk
      · -- the key was issued before, so it is that of the only literal
        rename_i heq
        cases hk
        have hu : x.key.isUnit = true := by
          by_contra hu
          exact hnew (by simpa using hu) (heq ▸ h.issued y hy)
        exact .of_eq (hfits.unique hu (heq ▸ h.fits y hy))
      · exact h.literals y hy hk
    · rw [hfind, if_pos rfl] at hk
      cases hk
      exact .rfl
  · refine ⟨fun y hy hr => ?_, fun _ => ⟨_, by rw [hfind, if_pos rfl]⟩⟩
    rw [hfind]
    split
    · exact ⟨_, rfl⟩
    · exact h.kept y hy hr

theorem Exact.make (h : m.Exact) (edit : Edit) : (m.make edit).Exact := by
  rcases make_cases h.keyed edit with ⟨x, hi, he⟩ | ⟨he, hl⟩
  · exact h.enter hi he
  · exact h.lessened he hl

theorem Exact.makeAll (h : m.Exact) (edits : List Edit) : (m.makeAll edits).Exact := by
  induction edits generalizing m with
  | nil => exact h
  | cons edit edits ih => exact ih (h.make edit)

/-! ## Removed clauses do not come back -/

/-- The key of an entry is not given to another clause. -/
theorem Exact.find_make (h : m.Exact) (hx : x ∈ m.entries) (hk : m.store.find x.key = none) (edit : Edit) :
    x ∈ (m.make edit).entries ∧ (m.make edit).store.find x.key = none := by
  rcases make_cases h.keyed edit with ⟨y, hi, he⟩ | ⟨he, hl⟩
  · obtain ⟨-, -, -, hnew, -, hfind⟩ := h.keyed.insert_ok hi
    refine ⟨he ▸ List.mem_append_left _ hx, ?_⟩
    rw [hfind, if_neg, hk]
    intro heq
    have hr : x.key.isRemovable = true := by
      by_contra hr
      obtain ⟨_, hk'⟩ := h.kept x hx (by simpa using hr)
      rw [hk] at hk'
      cases hk'
    refine hnew ?_ (heq ▸ h.issued x hx)
    rw [← heq]
    cases hkey : x.key with
    | learned i token => rfl
    | _ => rw [hkey] at hr; cases hr
  · refine ⟨he ▸ hx, Option.eq_none_iff_forall_ne_some.mpr fun lits hlits => ?_⟩
    obtain ⟨_, hk', -⟩ := hl.stored hlits
    rw [hk] at hk'
    cases hk'

theorem Exact.find_makeAll (h : m.Exact) (hx : x ∈ m.entries) (hk : m.store.find x.key = none) (edits : List Edit) :
    (m.makeAll edits).store.find x.key = none := by
  induction edits generalizing m with
  | nil => exact hk
  | cons edit edits ih =>
    obtain ⟨hx', hk'⟩ := h.find_make hx hk edit
    exact ih (h.make edit) hx' hk'

end Ledger

/-! ## Main result -/

open Ledger in
/-- Whatever is done to a clause store, clauses of two literals or more that are stored get distinct keys. A key names
the clause that was stored with it, its literals maybe in another order, or it is refused, and then for ever; one of a
clause of the formula, or of at most two literals, is not refused. No clause is overwritten by a new one, and the counts
are those of the clauses that are listed. -/
theorem keys_never_confused (config : Config) (edits : List Edit) :
    let m := (Ledger.ofConfig config).makeAll edits
    (m.entries.Pairwise fun x y => 2 ≤ x.clause.length → 2 ≤ y.clause.length → x.key ≠ y.key) ∧
      (∀ x ∈ m.entries,
        (∀ d, m.store.get x.key = .ok d → d.key = x.key ∧ d.clause.Perm x.clause) ∧
        (x.source = .given ∨ x.clause.length ≤ 2 → ∃ d, m.store.get x.key = .ok d) ∧
        ∀ e, m.store.get x.key = .error e → ∀ later, ∃ e', (m.makeAll later).store.get x.key = .error e') ∧
      (∀ c source key d, m.store.get key = .ok d → (m.make (.insert c source)).store.get key = .ok d) ∧
      m.store.givenCount = m.store.givenClauses.length ∧ m.store.learnedCount = m.store.learnedClauses.length ∧
      m.store.learnedLongCount = m.store.learnedSlots.countP Option.isSome := by
  intro m
  have h : m.Exact := (exact_ofConfig config).makeAll edits
  refine ⟨h.distinct, fun x hx => ⟨fun d hd => ?_, fun hs => ?_, fun e he later => ?_⟩, fun c source key d hd => ?_,
    givenCount_eq_length _, learnedCount_eq_length h.counted, ?_⟩
  · exact ⟨h.keyed.key_eq hd, (h.literals x hx (find_of_get hd)).toList⟩
  · have hr : x.key.isRemovable = false := by
      cases hkey : x.key with
      | learned i token =>
        rcases hs with hs | hs
        · have := (h.given x hx).mpr hs
          rw [hkey] at this
          cases this
        · have hfits := h.fits x hx
          rw [hkey] at hfits
          have hlen : 3 ≤ x.clause.length := hfits
          omega
      | _ => rfl
    obtain ⟨lits, hk⟩ := h.kept x hx hr
    obtain ⟨d, hd, -⟩ := find_eq_some_iff.mp hk
    exact ⟨d, hd⟩
  · exact find_eq_none_iff.mp (h.find_makeAll hx (find_eq_none_iff.mpr ⟨e, he⟩) later)
  · rw [store_make_insert]
    exact h.keyed.get_insert c source hd
  · rw [← countP_slotPart]
    exact h.counted

open Ledger in
/-- The key of a removed clause is refused for ever, while its slot is used again. -/
theorem keys_never_confused_reused :
    let m := (Ledger.ofConfig default).makeAll
      [.insert [⟨1, true⟩, ⟨2, true⟩, ⟨3, true⟩] .learned, .reduceBy (fun _ => none) 1,
        .insert [⟨1, true⟩, ⟨3, true⟩, ⟨4, true⟩] .learned]
    m.entries = [⟨.learned 0 0, [⟨1, true⟩, ⟨2, true⟩, ⟨3, true⟩], .learned⟩,
      ⟨.learned 0 1, [⟨1, true⟩, ⟨3, true⟩, ⟨4, true⟩], .learned⟩] ∧
    ∀ later, ∃ e, (m.makeAll later).store.get (.learned 0 0) = .error e := by
  intro m
  have hentries : m.entries = [⟨.learned 0 0, [⟨1, true⟩, ⟨2, true⟩, ⟨3, true⟩], .learned⟩,
      ⟨.learned 0 1, [⟨1, true⟩, ⟨3, true⟩, ⟨4, true⟩], .learned⟩] := by decide +kernel
  have hgone : m.store.find (.learned 0 0) = none := by decide +kernel
  obtain ⟨e, he⟩ := find_eq_none_iff.mp hgone
  obtain ⟨-, hentry, -⟩ := keys_never_confused default
    [.insert [⟨1, true⟩, ⟨2, true⟩, ⟨3, true⟩] .learned, .reduceBy (fun _ => none) 1,
      .insert [⟨1, true⟩, ⟨3, true⟩, ⟨4, true⟩] .learned]
  have hmem : ⟨.learned 0 0, [⟨1, true⟩, ⟨2, true⟩, ⟨3, true⟩], .learned⟩ ∈ m.entries := by
    rw [hentries]
    exact List.mem_cons_self
  exact ⟨hentries, (hentry _ hmem).2.2 e he⟩

end ClauseStore

end ClauseLearning
