import ClauseLearning.Proofs.ClauseStore.Lookup
import Mathlib.Data.List.Nodup

/-!
# Changes of the clause store

A new clause gets a key that no clause has had before, unless it is the key of a literal, and is found there
(`Keyed.insert_ok`); if no key is left, nothing that can be found changes (`Keyed.insert_error`). Activities
are not part of what is found, and a reduction takes away long learned clauses that are not locked and
nothing else (`Keyed.reduceBy`).
-/

namespace ClauseLearning

namespace ClauseStore

variable {s s' : ClauseStore} {key k : ClauseKey} {c : Clause} {source : ClauseSource} {lits : Array Literal}

/-- The second store comes of the first one by changes after which the keys that were issued still are. -/
structure Later (s s' : ClauseStore) : Prop where
  keyed : s'.Keyed
  issued : ∀ {k : ClauseKey}, s.Issued k → s'.Issued k

theorem Later.trans {s'' : ClauseStore} (h : s.Later s') (h' : s'.Later s'') : s.Later s'' :=
  ⟨h'.keyed, fun hk => h'.issued (h.issued hk)⟩

/-! ## New clauses -/

/-- The key is that of a literal, or its slot is the next one or an empty one that no free key names. -/
def Vacant (s : ClauseStore) : ClauseKey → Prop
  | .givenUnit _ | .learnedUnit _ => True
  | .givenBinary i => i = s.givenBinaries.size
  | .learnedBinary i => i = s.learnedBinaries.size
  | .given i => i = s.givenLong.size
  | .learned i _ => (i = s.learnedSlots.size ∨ s.learnedSlots[i]? = some none) ∧ ∀ k ∈ s.free, k.index ≠ i

theorem Later.takeFree (h : s.Keyed) (c : Clause) (source : ClauseSource) : s.Later (s.takeFree c source) := by
  unfold ClauseStore.takeFree
  split
  · refine ⟨{ h with free := fun hk => h.free (List.mem_of_mem_tail hk), free_nodup := ?_ }, fun {k} hk => ?_⟩
    · simp only [List.map_tail]
      exact h.free_nodup.tail
    · cases k with
      | learned i token => exact ⟨hk.1, hk.2.1, fun n hn => hk.2.2 n (List.mem_of_mem_tail hn)⟩
      | _ => exact hk
  · exact ⟨h, id⟩

/-- Storing a clause gives the fresh key, or its error. -/
theorem insert_fst (s : ClauseStore) (c : Clause) (source : ClauseSource) :
    (s.insert c source).1 = s.freshKey c source := by
  unfold insert
  split <;> simp only [*]

theorem find_takeFree (s : ClauseStore) (c : Clause) (source : ClauseSource) :
    (s.takeFree c source).find = s.find := by
  unfold ClauseStore.takeFree
  split <;> rfl

/-- A clause that is not one of the short ones has three literals or more. -/
theorem three_le_length (h0 : c = [] → False) (h1 : ∀ l, c = [l] → False) (h2 : ∀ l m, c = [l, m] → False) :
    3 ≤ c.length := by
  match c, h0, h1, h2 with
  | [], h0, _, _ => exact absurd rfl h0
  | [l], _, h1, _ => exact absurd rfl (h1 l)
  | [l, m], _, _, h2 => exact absurd rfl (h2 l m)
  | _ :: _ :: _ :: _, _, _, _ => simp

theorem slotKey_error {key : Nat → ClauseKey} {slot : Nat} {e : StoreError} (h : slotKey key slot = .error e) :
    e = .storageExhausted := by
  unfold slotKey at h
  split at h <;> cases h
  rfl

/-- A fresh key is of the kind of the clause, its slot is vacant, it was not issued before unless it is the key of a
literal, and its token is not below those of the keys of its slot that were issued. -/
theorem Keyed.freshKey_ok (h : s.Keyed) (hk : s.freshKey c source = .ok key) :
    key.Fits c.toArray ∧ (key.isGiven = true ↔ source = .given) ∧ (s.takeFree c source).Vacant key ∧
      (key.isUnit = false → ¬s.Issued key) ∧
      ∀ i n token, s.Issued (.learned i n) → key = .learned i token → n ≤ token := by
  unfold freshKey at hk
  split at hk
  · cases hk
  · cases hk
    simp [ClauseKey.Fits, ClauseKey.isGiven, ClauseKey.isUnit, Vacant]
  · cases hk
    simp [ClauseKey.Fits, ClauseKey.isGiven, ClauseKey.isUnit, Vacant]
  · unfold slotKey at hk
    split at hk <;> cases hk
    simp [ClauseKey.Fits, ClauseKey.isGiven, Issued, Vacant, ClauseStore.takeFree]
  · unfold slotKey at hk
    split at hk <;> cases hk
    simp [ClauseKey.Fits, ClauseKey.isGiven, Issued, Vacant, ClauseStore.takeFree]
  · rename_i h0 h1 h2
    have hlen := three_le_length h0 h1 h2
    unfold slotKey at hk
    split at hk <;> cases hk
    simpa [ClauseKey.Fits, ClauseKey.isGiven, Issued, Vacant, ClauseStore.takeFree] using hlen
  · rename_i h0 h1 h2
    have hlen := three_le_length h0 h1 h2
    have htake : s.takeFree c .learned = { s with free := s.free.tail } := if_pos ⟨rfl, hlen⟩
    rw [htake]
    split at hk
    · rename_i k rest hfree
      obtain ⟨i, token, rfl, he⟩ := h.free (by rw [hfree]; exact List.mem_cons_self)
      have hnd := h.free_nodup
      rw [hfree, List.map_cons, List.nodup_cons] at hnd
      simp only [ClauseKey.retoken] at hk
      split at hk <;> cases hk
      refine ⟨by simpa [ClauseKey.Fits] using hlen, by simp [ClauseKey.isGiven], ⟨Or.inr he, ?_⟩, ?_, ?_⟩
      · intro k hk heq
        simp only [hfree, List.tail_cons] at hk
        exact hnd.1 (List.mem_map.mpr ⟨k, hk, heq⟩)
      · intro _ hi
        have := hi.2.2 token (by rw [hfree]; exact List.mem_cons_self)
        omega
      · intro j n m hi hj
        cases hj
        have := hi.2.2 token (by rw [hfree]; exact List.mem_cons_self)
        omega
    · rename_i hfree
      unfold slotKey at hk
      split at hk <;> cases hk
      refine ⟨by simpa [ClauseKey.Fits] using hlen, by simp [ClauseKey.isGiven], ⟨Or.inl rfl, by simp [hfree]⟩,
        fun _ hi => Nat.lt_irrefl _ hi.1, fun j n m hi hj => ?_⟩
      cases hj
      exact absurd hi.1 (Nat.lt_irrefl _)

/-- The slots of long learned clauses after a new one is placed. -/
theorem getElem?_place {i token : Nat} (hv : s.Vacant (.learned i token)) (c : Clause) (j : Nat) :
    (s.place (.learned i token) c).learnedSlots[j]? =
      if j = i then some (some ⟨.learned i token, c.toArray, 0⟩) else s.learnedSlots[j]? := by
  simp only [ClauseStore.place]
  split
  · rename_i hi
    exact getElem?_setIfInBounds_of_lt hi _ j
  · rename_i hi
    have hsize : i = s.learnedSlots.size :=
      hv.1.resolve_right fun he => hi (Array.getElem?_eq_some_iff.mp he).1
    rw [Array.getElem?_push, ← hsize]

theorem Keyed.place (h : s.Keyed) (hv : s.Vacant key) (c : Clause) : (s.place key c).Keyed := by
  cases key with
  | givenUnit l => exact ⟨h.1, h.2, h.3, h.4, h.5, h.6⟩
  | learnedUnit l => exact ⟨h.1, h.2, h.3, h.4, h.5, h.6⟩
  | givenBinary i => exact { h with givenBinary := forall_push (congrArg ClauseKey.givenBinary hv) h.givenBinary }
  | learnedBinary i =>
    exact { h with learnedBinary := forall_push (congrArg ClauseKey.learnedBinary hv) h.learnedBinary }
  | given i => exact { h with given := forall_push (congrArg ClauseKey.given hv) h.given }
  | learned i token =>
    refine { h with learned := fun {j d} hd => ?_, free := fun {k} hk => ?_ }
    · rw [getElem?_place hv] at hd
      split at hd
      · rename_i hj
        cases hd
        exact ⟨token, by rw [hj]⟩
      · exact h.learned hd
    · obtain ⟨j, n, rfl, hj⟩ := h.free hk
      have hne : j ≠ i := hv.2 _ hk
      exact ⟨j, n, rfl, by rw [getElem?_place hv, if_neg hne, hj]⟩

/-- Keys stay issued if the new clause has a token that is not below theirs. -/
theorem issued_place (hv : s.Vacant key) (hk : s.Issued k)
    (ht : ∀ i n token, k = .learned i n → key = .learned i token → n ≤ token) : (s.place key c).Issued k := by
  cases key with
  | givenUnit l => cases k <;> exact hk
  | learnedUnit l => cases k <;> exact hk
  | givenBinary i =>
    cases k with
    | givenBinary j => exact Nat.lt_of_lt_of_eq (Nat.lt_succ_of_lt hk) (Array.size_push _).symm
    | _ => exact hk
  | learnedBinary i =>
    cases k with
    | learnedBinary j => exact Nat.lt_of_lt_of_eq (Nat.lt_succ_of_lt hk) (Array.size_push _).symm
    | _ => exact hk
  | given i =>
    cases k with
    | given j => exact Nat.lt_of_lt_of_eq (Nat.lt_succ_of_lt hk) (Array.size_push _).symm
    | _ => exact hk
  | learned i token =>
    cases k with
    | learned j n =>
      obtain ⟨h1, h2, h3⟩ := hk
      refine ⟨?_, fun d m hd hm => ?_, h3⟩
      · simp only [ClauseStore.place]
        split
        · simpa using h1
        · simp only [Array.size_push]
          omega
      · rw [getElem?_place hv] at hd
        split at hd
        · rename_i hj
          cases hd
          cases hm
          exact ht i n token (by rw [hj]) rfl
        · exact h2 d m hd hm
    | _ => exact hk

/-- The new clause is found at its key, and elsewhere what was found before. -/
theorem find_place (hv : s.Vacant key) (hc : key.Fits c.toArray) (k : ClauseKey) :
    (s.place key c).find k = if k = key then some c.toArray else s.find k := by
  cases key with
  | givenUnit l =>
    simp only [ClauseKey.Fits] at hc
    rw [hc]
    cases k with
    | givenUnit m =>
      simp only [find_givenUnit, ClauseStore.place, Std.TreeSet.mem_insert, ClauseKey.givenUnit.injEq,
        Std.LawfulEqCmp.compare_eq_iff_eq]
      by_cases hm : m = l
      · simp [hm]
      · simp [hm, Ne.symm hm]
    | _ => rfl
  | learnedUnit l =>
    simp only [ClauseKey.Fits] at hc
    rw [hc]
    cases k with
    | learnedUnit m =>
      simp only [find_learnedUnit, ClauseStore.place, Std.TreeSet.mem_insert, ClauseKey.learnedUnit.injEq,
        Std.LawfulEqCmp.compare_eq_iff_eq]
      by_cases hm : m = l
      · simp [hm]
      · simp [hm, Ne.symm hm]
    | _ => rfl
  | givenBinary i =>
    cases k with
    | givenBinary j =>
      simp only [find_givenBinary, ClauseStore.place, Array.getElem?_push, ← show i = s.givenBinaries.size from hv]
      by_cases hj : j = i <;> simp [hj]
    | _ => rfl
  | learnedBinary i =>
    cases k with
    | learnedBinary j =>
      simp only [find_learnedBinary, ClauseStore.place, Array.getElem?_push, ← show i = s.learnedBinaries.size from hv]
      by_cases hj : j = i <;> simp [hj]
    | _ => rfl
  | given i =>
    cases k with
    | given j =>
      simp only [find_given, ClauseStore.place, Array.getElem?_push, ← show i = s.givenLong.size from hv]
      by_cases hj : j = i <;> simp [hj]
    | _ => rfl
  | learned i token =>
    cases k with
    | learned j n =>
      rw [find_learned, find_learned, getElem?_place hv]
      by_cases hj : j = i
      · -- no clause was there
        have hnone : s.learnedSlots[i]?.join = none := by
          rcases hv.1 with he | he
          · rw [Array.getElem?_eq_none (Nat.le_of_eq he.symm)]
            rfl
          · rw [he]
            rfl
        rw [if_pos hj, hj, hnone]
        by_cases hn : n = token
        · simp [hn]
        · simp [Option.filter_some, hn, Ne.symm hn]
      · simp [hj]
    | _ => rfl

/-- A clause that is refused takes a free key at most. -/
theorem takeFree_of_refused {e : StoreError} (hi : s.insert c source = (.error e, s')) : s' = s.takeFree c source := by
  unfold ClauseStore.insert at hi
  split at hi <;> cases hi
  rfl

/-- A new clause gets a key of its kind that was not issued before unless it is the key of a literal, and is found
there. -/
theorem Keyed.insert_ok (h : s.Keyed) (hi : s.insert c source = (.ok key, s')) :
    s.Later s' ∧ key.Fits c.toArray ∧ (key.isGiven = true ↔ source = .given) ∧ (key.isUnit = false → ¬s.Issued key) ∧
      s'.Issued key ∧ ∀ k, s'.find k = if k = key then some c.toArray else s.find k := by
  unfold ClauseStore.insert at hi
  split at hi
  · rename_i key' hk
    cases hi
    obtain ⟨hfit, hgiven, hv, hn, ht⟩ := h.freshKey_ok hk
    have hl := Later.takeFree h c source
    have hkeyed := hl.keyed.place hv c
    have hfind : ∀ k, ((s.takeFree c source).place key c).find k = if k = key then some c.toArray else s.find k := by
      intro k
      rw [find_place hv hfit, find_takeFree]
    refine ⟨⟨hkeyed, fun {k} hk => issued_place hv (hl.issued hk) fun i n token hi hj => ?_⟩, hfit, hgiven, hn,
      hkeyed.issued (by rw [hfind, if_pos rfl]), hfind⟩
    exact ht i n token (hi ▸ hk) hj
  · cases hi

/-- A clause is refused only if no key is left, and then nothing that can be found changes. -/
theorem Keyed.insert_error {e : StoreError} (h : s.Keyed) (hc : c ≠ []) (hi : s.insert c source = (.error e, s')) :
    e = .storageExhausted ∧ s.Later s' ∧ s'.find = s.find := by
  unfold ClauseStore.insert at hi
  split at hi
  · cases hi
  · rename_i e' he
    cases hi
    refine ⟨?_, Later.takeFree h c source, find_takeFree s c source⟩
    unfold freshKey at he
    split at he
    · exact absurd rfl hc
    · cases he
    · cases he
    · exact slotKey_error he
    · exact slotKey_error he
    · exact slotKey_error he
    · split at he
      · rename_i k rest hfree
        obtain ⟨i, token, rfl, -⟩ := h.free (by rw [hfree]; exact List.mem_cons_self)
        simp only [ClauseKey.retoken] at he
        split at he <;> cases he
        rfl
      · exact slotKey_error he

theorem Keyed.later_insert (h : s.Keyed) (c : Clause) (source : ClauseSource) : s.Later (s.insert c source).2 := by
  cases hi : s.insert c source with
  | mk answer s' =>
    cases answer with
    | ok key => exact (h.insert_ok hi).1
    | error e =>
      rw [takeFree_of_refused hi]
      exact .takeFree h c source

/-! ## Activities -/

/-- Nothing that can be found changes, and no key. -/
structure SameClauses (s s' : ClauseStore) : Prop where
  find : s'.find = s.find
  later : s.Keyed → s.Later s'

theorem SameClauses.refl (s : ClauseStore) : s.SameClauses s := ⟨rfl, fun h => ⟨h, id⟩⟩

theorem SameClauses.trans {s'' : ClauseStore} (h : s.SameClauses s') (h' : s'.SameClauses s'') : s.SameClauses s'' :=
  ⟨h'.find.trans h.find, fun hs => (h.later hs).trans (h'.later (h.later hs).keyed)⟩

/-- What matters of a slot: whether there is a clause, its key and its literals. -/
def sketch (slot : Option StoredClause) : Option (ClauseKey × Array Literal) := slot.map fun c => (c.key, c.literals)

theorem slot_of_sketch {xs ys : Array (Option StoredClause)} (h : ∀ i : Nat, xs[i]?.map sketch = ys[i]?.map sketch)
    {i : Nat} {c : StoredClause} (hc : xs[i]? = some (some c)) :
    ∃ d, ys[i]? = some (some d) ∧ d.key = c.key ∧ d.literals = c.literals := by
  have hi := h i
  rw [hc] at hi
  obtain ⟨slot, hslot, hs⟩ := Option.map_eq_some_iff.mp hi.symm
  obtain ⟨d, rfl, hd⟩ := Option.map_eq_some_iff.mp hs
  exact ⟨d, hslot, congrArg Prod.fst hd, congrArg Prod.snd hd⟩

theorem empty_of_sketch {xs ys : Array (Option StoredClause)} (h : ∀ i : Nat, xs[i]?.map sketch = ys[i]?.map sketch)
    {i : Nat} (hc : xs[i]? = some none) : ys[i]? = some none := by
  have hi := h i
  rw [hc] at hi
  obtain ⟨slot, hslot, hs⟩ := Option.map_eq_some_iff.mp hi.symm
  rw [hslot, Option.map_eq_none_iff.mp hs]

theorem find_of_sketch {s' : ClauseStore} {i token : Nat}
    (h : ∀ i : Nat, s.learnedSlots[i]?.map sketch = s'.learnedSlots[i]?.map sketch)
    (hf : s.find (.learned i token) = some lits) : s'.find (.learned i token) = some lits := by
  obtain ⟨c, hc, hk, hl⟩ := find_learned_iff.mp hf
  obtain ⟨d, hd, hdk, hdl⟩ := slot_of_sketch h hc
  exact find_learned_iff.mpr ⟨d, hd, hdk.trans hk, hdl.trans hl⟩

/-- A change of nothing but the long learned clauses, of which only the activities change. -/
theorem sameClauses_of_slots {slots : Array (Option StoredClause)} {bump : Parameter Float}
    (hs : ∀ i : Nat, slots[i]?.map sketch = s.learnedSlots[i]?.map sketch) :
    s.SameClauses { s with learnedSlots := slots, bump } := by
  have hs' : ∀ i : Nat, s.learnedSlots[i]?.map sketch = slots[i]?.map sketch := fun i => (hs i).symm
  refine ⟨?_, fun h => ⟨{ h with learned := fun {i c} hc => ?_, free := fun {k} hk => ?_ }, fun {k} hk => ?_⟩⟩
  · funext k
    cases k with
    | learned i token =>
      ext lits
      exact ⟨find_of_sketch hs, find_of_sketch hs'⟩
    | _ => rfl
  · obtain ⟨d, hd, hdk, -⟩ := slot_of_sketch hs hc
    rw [← hdk]
    exact h.learned hd
  · obtain ⟨i, token, rfl, hi⟩ := h.free hk
    exact ⟨i, token, rfl, empty_of_sketch hs' hi⟩
  · cases k with
    | learned i token =>
      obtain ⟨h1, h2, h3⟩ := hk
      refine ⟨?_, fun c n hc hn => ?_, h3⟩
      · have hi := hs i
        rw [Array.getElem?_eq_getElem h1] at hi
        obtain ⟨slot, hslot, -⟩ := Option.map_eq_some_iff.mp hi
        exact (Array.getElem?_eq_some_iff.mp hslot).1
      · obtain ⟨d, hd, hdk, -⟩ := slot_of_sketch hs hc
        exact h2 d n hd (hdk.trans hn)
    | _ => exact hk

theorem sameClauses_bump (s : ClauseStore) (bump : Parameter Float) : s.SameClauses { s with bump } :=
  ⟨rfl, fun h => ⟨⟨h.1, h.2, h.3, h.4, h.5, h.6⟩, fun {k} hk => by cases k <;> exact hk⟩⟩

theorem sameClauses_rescale (s : ClauseStore) : s.SameClauses s.rescale := by
  refine sameClauses_of_slots fun i => ?_
  rw [Array.getElem?_map]
  cases s.learnedSlots[i]? with
  | none => rfl
  | some slot => cases slot <;> rfl

theorem sameClauses_bumpActivity (s : ClauseStore) (key : ClauseKey) : s.SameClauses (s.bumpActivity key) := by
  cases key with
  | learned slot token =>
    unfold bumpActivity
    simp only
    split
    · rename_i c hc
      have hset : s.SameClauses
          { s with
            learnedSlots :=
              s.learnedSlots.setIfInBounds slot (some { c with activity := c.activity + s.bump.value }) } := by
        refine sameClauses_of_slots fun i => ?_
        rw [Array.getElem?_setIfInBounds]
        split
        · rename_i hi
          subst hi
          rw [if_pos (Array.getElem?_eq_some_iff.mp hc).1, hc]
          rfl
        · rfl
      split
      · split
        · exact hset.trans (sameClauses_rescale _)
        · exact hset
      · exact SameClauses.refl s
    · exact SameClauses.refl s
  | _ => exact SameClauses.refl s

theorem sameClauses_foldl_bumpActivity (s : ClauseStore) (keys : List ClauseKey) :
    s.SameClauses (keys.foldl ClauseStore.bumpActivity s) := by
  induction keys generalizing s with
  | nil => exact SameClauses.refl s
  | cons key keys ih => exact (sameClauses_bumpActivity s key).trans (ih _)

theorem sameClauses_decayActivity (s : ClauseStore) : s.SameClauses s.decayActivity := by
  unfold decayActivity
  simp only
  split
  · exact (sameClauses_bump s _).trans (sameClauses_rescale _)
  · exact sameClauses_bump s _

/-! ## Literals in another order -/

/-- The same keys are in use, for clauses with the same literals. -/
structure Reordered (s s' : ClauseStore) : Prop where
  kept : ∀ {k : ClauseKey} {lits : Array Literal}, s.find k = some lits →
    ∃ lits', s'.find k = some lits' ∧ lits'.Perm lits
  stored : ∀ {k : ClauseKey} {lits' : Array Literal}, s'.find k = some lits' →
    ∃ lits, s.find k = some lits ∧ lits'.Perm lits

theorem Reordered.refl (s : ClauseStore) : s.Reordered s := ⟨fun h => ⟨_, h, .rfl⟩, fun h => ⟨_, h, .rfl⟩⟩

theorem Reordered.trans {s'' : ClauseStore} (h : s.Reordered s') (h' : s'.Reordered s'') : s.Reordered s'' where
  kept hk := by
    obtain ⟨_, hk, hp⟩ := h.kept hk
    obtain ⟨_, hk, hp'⟩ := h'.kept hk
    exact ⟨_, hk, hp'.trans hp⟩
  stored hk := by
    obtain ⟨_, hk, hp⟩ := h'.stored hk
    obtain ⟨_, hk, hp'⟩ := h.stored hk
    exact ⟨_, hk, hp.trans hp'⟩

theorem Reordered.symm (h : s.Reordered s') : s'.Reordered s where
  kept hk := (h.stored hk).imp fun _ ⟨hk, hp⟩ => ⟨hk, hp.symm⟩
  stored hk := (h.kept hk).imp fun _ ⟨hk, hp⟩ => ⟨hk, hp.symm⟩

theorem SameClauses.reordered (h : s.SameClauses s') : s.Reordered s' :=
  ⟨fun hk => ⟨_, by rwa [h.find], .rfl⟩, fun hk => ⟨_, by rwa [h.find] at hk, .rfl⟩⟩

/-- The literals of one clause are put in another order. -/
theorem reordered_of_find {lits' : Array Literal} (hc : s.find key = some lits) (hp : lits'.Perm lits)
    (hf : ∀ k, s'.find k = if k = key then some lits' else s.find k) : s.Reordered s' := by
  constructor
  · intro k d hd
    rw [hf]
    split
    · rename_i hk
      rw [hk, hc] at hd
      cases hd
      exact ⟨lits', rfl, hp⟩
    · exact ⟨d, hd, .rfl⟩
  · intro k d hd
    rw [hf] at hd
    split at hd
    · rename_i hk
      cases hd
      exact ⟨lits, hk ▸ hc, hp⟩
    · exact ⟨d, hd, .rfl⟩

/-! ## Sets of literals -/

/-- A clause of the same literals is stored. -/
def Has (s : ClauseStore) (c : Clause) : Prop := ∃ key lits, s.find key = some lits ∧ ∀ l, l ∈ lits ↔ l ∈ c

theorem Reordered.has_iff (h : s.Reordered s') : s'.Has c ↔ s.Has c := by
  constructor
  · rintro ⟨key, lits', hk, hc⟩
    obtain ⟨lits, hk, hp⟩ := h.stored hk
    exact ⟨key, lits, hk, fun l => hp.mem_iff.symm.trans (hc l)⟩
  · rintro ⟨key, lits, hk, hc⟩
    obtain ⟨lits', hk, hp⟩ := h.kept hk
    exact ⟨key, lits', hk, fun l => hp.mem_iff.trans (hc l)⟩

/-- All clauses are still stored, and there is one of which no clause of the same literals was. -/
structure Gains (s s' : ClauseStore) : Prop where
  kept : ∀ {c : Clause}, s.Has c → s'.Has c
  gained : ∃ c, s'.Has c ∧ ¬s.Has c

/-- The order of literals does not matter for what is gained. -/
theorem Gains.reorder {t t' : ClauseStore} (h : s.Gains s') (ht : t.Reordered s) (ht' : s'.Reordered t') :
    t.Gains t' where
  kept hc := ht'.has_iff.mpr (h.kept (ht.has_iff.mpr hc))
  gained := h.gained.imp fun _ ⟨hc, hn⟩ => ⟨ht'.has_iff.mpr hc, fun ht'' => hn (ht.has_iff.mpr ht'')⟩

/-! ## Reductions -/

/-- The store with the slot of a long learned clause emptied and its key free for the next use. -/
def remove (s : ClauseStore) (c : StoredClause) : ClauseStore :=
  { s with
    learnedSlots := s.learnedSlots.setIfInBounds c.key.index none
    learnedLongCount := s.learnedLongCount - 1
    free := c.key :: s.free }

/-- A clause that is removed is no longer found at its key, and nothing else changes. -/
theorem Keyed.remove {c : StoredClause} (h : s.Keyed) (hc : s.learnedSlots[c.key.index]? = some (some c)) :
    s.Later (s.remove c) ∧ ∀ k, (s.remove c).find k = if k = c.key then none else s.find k := by
  obtain ⟨token, hkey⟩ := h.learned hc
  have hslots : ∀ j : Nat, (s.remove c).learnedSlots[j]? = if j = c.key.index then some none else s.learnedSlots[j]? :=
    getElem?_setIfInBounds_of_lt (Array.getElem?_eq_some_iff.mp hc).1 none
  refine ⟨⟨{ h with learned := fun {j d} hd => ?_, free := fun {k} hk => ?_, free_nodup := ?_ }, fun {k} hk => ?_⟩,
    fun k => ?_⟩
  · rw [hslots] at hd
    split at hd
    · cases hd
    · exact h.learned hd
  · rcases List.mem_cons.mp hk with rfl | hk
    · exact ⟨c.key.index, token, hkey, by rw [hslots, if_pos rfl]⟩
    · obtain ⟨j, n, rfl, hj⟩ := h.free hk
      refine ⟨j, n, rfl, ?_⟩
      rw [hslots]
      split
      · rfl
      · exact hj
  · simp only [ClauseStore.remove, List.map_cons, List.nodup_cons]
    refine ⟨fun hm => ?_, h.free_nodup⟩
    obtain ⟨k, hk, heq⟩ := List.mem_map.mp hm
    obtain ⟨j, n, rfl, hj⟩ := h.free hk
    have heq : j = c.key.index := heq
    rw [heq, hc] at hj
    cases hj
  · cases k with
    | learned j n =>
      obtain ⟨h1, h2, h3⟩ := hk
      refine ⟨by simpa [ClauseStore.remove] using h1, fun d m hd hm => ?_, fun m hm => ?_⟩
      · rw [hslots] at hd
        split at hd
        · cases hd
        · exact h2 d m hd hm
      · rcases List.mem_cons.mp hm with hm | hm
        · have hj : c.key.index = j := by rw [← hm]; rfl
          exact h2 c m (hj ▸ hc) hm.symm
        · exact h3 m hm
    | _ => exact hk
  · cases k with
    | learned j n =>
      rw [find_learned, find_learned, hslots]
      by_cases hj : j = c.key.index
      · rw [if_pos hj, hj, hc]
        by_cases hk : c.key = .learned c.key.index n
        · rw [if_pos hk.symm]
          rfl
        · rw [if_neg (Ne.symm hk)]
          simp [Option.filter_some, hk]
      · have hk : ClauseKey.learned j n ≠ c.key := fun heq => hj (by rw [← heq]; rfl)
        rw [if_neg hj, if_neg hk]
    | _ => rw [if_neg (by rw [hkey]; simp)]; rfl

/-- The long learned clauses, one a slot, in order of their slots. -/
theorem Keyed.learnedLong (h : s.Keyed) :
    (∀ c ∈ s.learnedLong, s.learnedSlots[c.key.index]? = some (some c)) ∧
      (s.learnedLong.map (·.key.index)).Nodup := by
  constructor
  · intro c hc
    obtain ⟨slot, hm, rfl⟩ := List.mem_filterMap.mp hc
    obtain ⟨i, hi⟩ := Array.mem_iff_getElem?.mp (Array.mem_toList_iff.mp hm)
    obtain ⟨token, hk⟩ := h.learned hi
    rw [hk]
    exact hi
  · have hslots : ∀ (slots : List (Option StoredClause)) (n : Nat),
        (∀ i c, slots[i]? = some (some c) → c.key.index = n + i) →
        (∀ x ∈ (slots.filterMap id).map (·.key.index), n ≤ x) ∧ ((slots.filterMap id).map (·.key.index)).Nodup := by
      intro slots
      induction slots with
      | nil => intro n _; simp
      | cons slot slots ih =>
        intro n hn
        obtain ⟨hge, hnd⟩ := ih (n + 1) fun i c hc => by
          have := hn (i + 1) c (by simpa using hc)
          omega
        cases slot with
        | none => exact ⟨fun x hx => Nat.le_of_succ_le (hge x hx), hnd⟩
        | some c =>
          have h0 := hn 0 c rfl
          simp only [List.filterMap_cons, id_eq, List.map_cons, List.mem_cons, List.nodup_cons]
          refine ⟨?_, fun hm => ?_, hnd⟩
          · rintro x (rfl | hx)
            · omega
            · exact Nat.le_of_succ_le (hge x hx)
          · have := hge _ hm
            omega
    refine (hslots s.learnedSlots.toList 0 fun i c hc => ?_).2
    rw [Array.getElem?_toList] at hc
    obtain ⟨token, hk⟩ := h.learned hc
    rw [hk]
    simp [ClauseKey.index]

/-- A removal leaves the clauses of other slots. -/
theorem getElem?_remove_of_ne {c d : StoredClause} (hne : c.key.index ≠ d.key.index)
    (hd : s.learnedSlots[d.key.index]? = some (some d)) : (s.remove c).learnedSlots[d.key.index]? = some (some d) := by
  rw [remove, Array.getElem?_setIfInBounds_ne hne, hd]

/-- Clauses of distinct slots are removed, each from its key. -/
theorem Keyed.foldl_remove (h : s.Keyed) {cs : List StoredClause}
    (hc : ∀ c ∈ cs, s.learnedSlots[c.key.index]? = some (some c)) (hnd : (cs.map (·.key.index)).Nodup) :
    s.Later (cs.foldl ClauseStore.remove s) ∧
      ∀ k, (cs.foldl ClauseStore.remove s).find k = if k ∈ cs.map (·.key) then none else s.find k := by
  induction cs generalizing s with
  | nil => exact ⟨⟨h, id⟩, fun k => by simp⟩
  | cons c cs ih =>
    obtain ⟨hl, hf⟩ := h.remove (hc c List.mem_cons_self)
    rw [List.map_cons, List.nodup_cons] at hnd
    have hstay : ∀ d ∈ cs, (s.remove c).learnedSlots[d.key.index]? = some (some d) := fun d hd =>
      getElem?_remove_of_ne (fun heq => hnd.1 (heq ▸ List.mem_map.mpr ⟨d, hd, rfl⟩)) (hc d (List.mem_cons_of_mem c hd))
    obtain ⟨hl', hf'⟩ := ih hl.keyed hstay hnd.2
    refine ⟨hl.trans hl', fun k => ?_⟩
    rw [List.foldl_cons, hf', hf, List.map_cons]
    grind

/-- Slots that hold clauses are emptied, all of them. -/
theorem removeSlots_eq {cs : List StoredClause} (hc : ∀ c ∈ cs, s.learnedSlots[c.key.index]? = some (some c))
    (hnd : (cs.map (·.key.index)).Nodup) :
    removeSlots (cs.map (·.key.index)) s = (.ok (), cs.foldl ClauseStore.remove s) := by
  induction cs generalizing s with
  | nil => rfl
  | cons c cs ih =>
    rw [List.map_cons, List.nodup_cons] at hnd
    have hremove : s.removeSlot c.key.index = (.ok (), s.remove c) := by
      rw [removeSlot, hc c List.mem_cons_self]
      rfl
    rw [List.map_cons, removeSlots, hremove]
    refine ih (fun d hd => ?_) hnd.2
    exact getElem?_remove_of_ne (fun heq => hnd.1 (heq ▸ List.mem_map.mpr ⟨d, hd, rfl⟩))
      (hc d (List.mem_cons_of_mem c hd))

/-- The clauses that a reduction removes, the least active first. -/
def leastActive (s : ClauseStore) (reason : Nat → Option ClauseKey) (count : Nat) : List StoredClause :=
  ((s.unlocked reason).mergeSort StoredClause.leActivity).take count

theorem leastActive_subset (s : ClauseStore) (reason : Nat → Option ClauseKey) (count : Nat) :
    s.leastActive reason count ⊆ s.unlocked reason := fun _ hc =>
  (List.mergeSort_perm (s.unlocked reason) StoredClause.leActivity).mem_iff.mp (List.mem_of_mem_take hc)

/-- The clauses that a reduction removes stand in distinct slots. -/
theorem Keyed.leastActive (h : s.Keyed) (reason : Nat → Option ClauseKey) (count : Nat) :
    (∀ c ∈ s.leastActive reason count, s.learnedSlots[c.key.index]? = some (some c)) ∧
      ((s.leastActive reason count).map (·.key.index)).Nodup := by
  obtain ⟨hslot, hnd⟩ := h.learnedLong
  have hperm := List.mergeSort_perm (s.unlocked reason) StoredClause.leActivity
  constructor
  · exact fun c hc => hslot c (List.mem_filter.mp (s.leastActive_subset reason count hc)).1
  · rw [ClauseStore.leastActive, List.map_take]
    refine List.Nodup.sublist (List.take_sublist _ _) ((hperm.map _).nodup_iff.mpr ?_)
    exact hnd.sublist (List.filter_sublist.map _)

/-- A reduction succeeds, and removes the least active clauses. -/
theorem Keyed.reduceBy_eq (h : s.Keyed) (reason : Nat → Option ClauseKey) (count : Nat) :
    s.reduceBy reason count =
      (.ok (s.leastActive reason count).length, (s.leastActive reason count).foldl ClauseStore.remove s) := by
  obtain ⟨hslot, hnd⟩ := h.leastActive reason count
  have hremoved : (((s.unlocked reason).mergeSort StoredClause.leActivity).map (·.key.index)).take count =
      (s.leastActive reason count).map (·.key.index) := by rw [← List.map_take, ClauseStore.leastActive]
  simp only [ClauseStore.reduceBy, hremoved, removeSlots_eq hslot hnd, List.length_map]
  rfl

/-- A clause is locked as the antecedent of one of its first two literals. -/
theorem isLocked_iff {c : StoredClause} {reason : Nat → Option ClauseKey} : c.isLocked reason = true ↔
    ∃ (i : Nat) (l : Literal), i < 2 ∧ c.literals[i]? = some l ∧ reason l.atom = some c.key := by
  simp only [StoredClause.isLocked, StoredClause.clause, List.any_eq_true, beq_iff_eq, List.mem_take_iff_getElem]
  constructor
  · rintro ⟨_, ⟨i, hi, rfl⟩, hr⟩
    rw [Array.length_toList] at hi
    exact ⟨i, _, by omega, Array.getElem?_eq_getElem (by omega), hr⟩
  · rintro ⟨i, l, hi, hl, hr⟩
    obtain ⟨hlt, rfl⟩ := Array.getElem?_eq_some_iff.mp hl
    exact ⟨_, ⟨i, by rw [Array.length_toList]; omega, rfl⟩, hr⟩

/-- A reduction keeps what it does not remove, and removes long learned clauses only, none of them the antecedent of a
literal that it watches. -/
theorem Keyed.reduceBy (h : s.Keyed) (reason : Nat → Option ClauseKey) (count : Nat) :
    s.Later (s.reduceBy reason count).2 ∧
      ∀ k, (s.reduceBy reason count).2.find k = s.find k ∨ (s.reduceBy reason count).2.find k = none ∧
        (∃ i token, k = .learned i token) ∧ ∀ lits, s.find k = some lits →
          ∀ i l, i < 2 → lits[i]? = some l → reason l.atom ≠ some k := by
  obtain ⟨hslot, hnd⟩ := h.leastActive reason count
  obtain ⟨hl, hf⟩ := h.foldl_remove hslot hnd
  rw [h.reduceBy_eq]
  refine ⟨hl, fun k => ?_⟩
  have hfk := hf k
  split at hfk
  · rename_i hm
    obtain ⟨c, hc, rfl⟩ := List.mem_map.mp hm
    have hlock : c.isLocked reason = false := by
      simpa using (List.mem_filter.mp (s.leastActive_subset reason count hc)).2
    obtain ⟨token, hkey⟩ := h.learned (hslot c hc)
    refine Or.inr ⟨hfk, ⟨_, token, hkey⟩, fun lits hlits i l hi hl heq => ?_⟩
    have hget : s.get c.key = .ok c := by
      rw [hkey, get_learned_iff, ← hkey]
      exact ⟨hslot c hc, rfl⟩
    rw [find_of_get hget] at hlits
    cases hlits
    rw [isLocked_iff.mpr ⟨i, l, hi, hl, heq⟩] at hlock
    cases hlock
  · exact Or.inl hfk

/-- The derived clauses are found at their keys. -/
theorem Keyed.find_of_mem_learnedClauses {c : StoredClause} (h : s.Keyed) (hc : c ∈ s.learnedClauses) :
    s.find c.key = some c.literals ∧ c.key.isGiven = false := by
  simp only [learnedClauses, List.mem_append, List.mem_map] at hc
  rcases hc with (⟨l, hl, rfl⟩ | hc) | hc
  · simp only [find_learnedUnit, Std.TreeSet.mem_toList] at hl ⊢
    exact ⟨if_pos hl, rfl⟩
  · obtain ⟨i, hi⟩ := Array.mem_iff_getElem?.mp (Array.mem_toList_iff.mp hc)
    rw [h.learnedBinary hi, find_learnedBinary, hi]
    exact ⟨rfl, rfl⟩
  · have hslot := h.learnedLong.1 c hc
    obtain ⟨token, hk⟩ := h.learned hslot
    rw [hk, find_learned_iff]
    exact ⟨⟨c, hslot, hk, rfl⟩, rfl⟩

end ClauseStore

end ClauseLearning
