import ClauseLearning.Proofs.ClauseStore.Changes

/-!
# Slots of long learned clauses

The slots, the keys of the clauses in them and the free keys are the `SlotPart` of a store, from which the keys of
new long learned clauses come. A change that only reorders literals or changes activities leaves it alone; a
removal empties a slot and frees its key, and names no key that was not named before (`Lessened`); a new clause
takes a key that follows a free one, or that of a new slot (`Keyed.insert_slots`). The count that the store keeps
is the number of slots in use (`Counted`).
-/

namespace ClauseLearning

/-- Whether a clause with the key may be removed. -/
def ClauseKey.isRemovable : ClauseKey → Bool
  | learned _ _ => true
  | givenUnit _ | learnedUnit _ | givenBinary _ | learnedBinary _ | given _ => false

/-- What the keys of new learned clauses depend on. -/
structure SlotPart where
  /-- The keys of the long learned clauses, by slot. -/
  slots : Array (Option ClauseKey)
  /-- The last keys of the empty slots. -/
  free : List ClauseKey
  /-- The number of long learned clauses, as the store counts it. -/
  count : Nat
  /-- The number of learned clauses of two literals. -/
  binaries : Nat

namespace SlotPart

variable {p q r : SlotPart} {key : ClauseKey}

/-- The key is free, or that of a clause in a slot. -/
def Names (p : SlotPart) (key : ClauseKey) : Prop := key ∈ p.free ∨ some key ∈ p.slots

/-- The count is the number of slots in use. -/
def Counted (p : SlotPart) : Prop := p.count = p.slots.countP Option.isSome

/-- There are no more slots and clauses of two literals, and no other key is named. -/
structure Narrows (p q : SlotPart) : Prop where
  size : q.slots.size = p.slots.size
  binaries : q.binaries = p.binaries
  names : ∀ {key : ClauseKey}, q.Names key → p.Names key
  counted : p.Counted → q.Counted

theorem Narrows.refl (p : SlotPart) : p.Narrows p := ⟨rfl, rfl, id, id⟩

theorem Narrows.trans (h : p.Narrows q) (h' : q.Narrows r) : p.Narrows r :=
  ⟨h'.size.trans h.size, h'.binaries.trans h.binaries, fun hk => h.names (h'.names hk),
    fun hc => h'.counted (h.counted hc)⟩

/-- The key is named, and maybe of a new slot. Otherwise it follows one that was named before. -/
structure Takes (p : SlotPart) (key : ClauseKey) (q : SlotPart) : Prop where
  names : ∀ {k : ClauseKey}, q.Names k → k = key ∨ p.Names k
  size : q.slots.size = p.slots.size ∨ q.slots.size = p.slots.size + 1 ∧ key = .learned p.slots.size 0
  binaries : q.binaries ≤ p.binaries + 1
  follows : ∀ {i token : Nat}, key = .learned i (token + 1) → p.Names (.learned i token)
  counted : p.Counted → q.Counted

/-- A free key that is not free any more is not named. -/
theorem narrows_tail (p : SlotPart) : p.Narrows { p with free := p.free.tail } :=
  ⟨rfl, rfl, fun hk => hk.imp_left List.mem_of_mem_tail, id⟩

end SlotPart

namespace ClauseStore

section Entries

variable {α : Type} {xs : Array α} {i : Nat} {v w : α}

theorem setIfInBounds_self (h : xs[i]? = some v) : xs.setIfInBounds i v = xs := by
  obtain ⟨hi, rfl⟩ := Array.getElem?_eq_some_iff.mp h
  simp [Array.setIfInBounds, hi]

theorem countP_setIfInBounds (f : α → Bool) (h : xs[i]? = some v) :
    (xs.setIfInBounds i w).countP f + (if f v then 1 else 0) = xs.countP f + if f w then 1 else 0 := by
  obtain ⟨hi, rfl⟩ := Array.getElem?_eq_some_iff.mp h
  have hpos : f xs[i] = true → 0 < xs.countP f := fun hv =>
    Array.countP_pos_iff.mpr ⟨xs[i], Array.getElem_mem hi, hv⟩
  rw [Array.setIfInBounds, dif_pos hi, Array.countP_set]
  split
  · have := hpos ‹_›
    omega
  · omega

theorem mem_of_mem_setIfInBounds (h : v ∈ xs.setIfInBounds i w) : v = w ∨ v ∈ xs := by
  obtain ⟨j, hj⟩ := Array.mem_iff_getElem?.mp h
  refine forall_setIfInBounds (P := fun _ x => x = w ∨ x ∈ xs) (Or.inl rfl) (fun hx => Or.inr ?_) hj
  exact Array.mem_of_getElem? hx

end Entries

variable {s s' : ClauseStore} {key k : ClauseKey} {c : Clause} {d e : StoredClause} {source : ClauseSource}

def slotPart (s : ClauseStore) : SlotPart where
  slots := s.learnedSlots.map (Option.map (·.key))
  free := s.free
  count := s.learnedLongCount
  binaries := s.learnedBinaries.size

theorem countP_slotPart (s : ClauseStore) :
    s.slotPart.slots.countP Option.isSome = s.learnedSlots.countP Option.isSome := by
  rw [slotPart, Array.countP_map]
  congr 1
  funext slot
  cases slot <;> rfl

/-- The slots in use are those of the long learned clauses. -/
theorem length_learnedLong (s : ClauseStore) : s.learnedLong.length = s.learnedSlots.countP Option.isSome := by
  rw [learnedLong, List.length_filterMap_eq_countP, Array.countP_toList]
  rfl

theorem slotPart_slots (s : ClauseStore) (i : Nat) :
    s.slotPart.slots[i]? = s.learnedSlots[i]?.map (Option.map (·.key)) := Array.getElem?_map

theorem names_of_slot {i : Nat} (h : s.learnedSlots[i]? = some (some d)) : s.slotPart.Names d.key := by
  refine Or.inr (Array.mem_of_getElem? (i := i) ?_)
  rw [slotPart_slots, h]
  rfl

/-! ## Changes that leave the slots alone -/

theorem map_key_setIfInBounds {slots : Array (Option StoredClause)} {i : Nat} (h : slots[i]? = some (some d))
    (he : e.key = d.key) :
    (slots.setIfInBounds i (some e)).map (Option.map (·.key)) = slots.map (Option.map (·.key)) := by
  rw [Array.map_setIfInBounds]
  refine setIfInBounds_self ?_
  rw [Array.getElem?_map, h, Option.map_some, Option.map_some, Option.map_some, he]

theorem slotPart_put (hd : s.get d.key = .ok e) : (s.put d).slotPart = s.slotPart := by
  unfold put
  cases hk : d.key with
  | givenUnit l => rfl
  | learnedUnit l => rfl
  | givenBinary i => rfl
  | learnedBinary i => simp [slotPart]
  | given i => rfl
  | learned i token =>
    rw [hk, get_learned_iff] at hd
    simp only [slotPart, map_key_setIfInBounds hd.1 (hk.trans hd.2.symm)]

theorem slotPart_rescale (s : ClauseStore) : s.rescale.slotPart = s.slotPart := by
  simp only [slotPart, rescale, Array.map_map]
  congr 2
  funext slot
  cases slot <;> rfl

theorem slotPart_bumpActivity (s : ClauseStore) (key : ClauseKey) : (s.bumpActivity key).slotPart = s.slotPart := by
  unfold bumpActivity
  split
  · split
    · rename_i d hd
      have hset := map_key_setIfInBounds (e := { d with activity := d.activity + s.bump.value }) hd rfl
      split
      · simp only
        split
        · rw [slotPart_rescale, slotPart, hset, slotPart]
        · rw [slotPart, hset, slotPart]
      · rfl
    · rfl
  · rfl

theorem slotPart_foldl_bumpActivity (s : ClauseStore) (keys : List ClauseKey) :
    (keys.foldl bumpActivity s).slotPart = s.slotPart := by
  induction keys generalizing s with
  | nil => rfl
  | cons key keys ih => exact (ih _).trans (s.slotPart_bumpActivity key)

theorem slotPart_decayActivity (s : ClauseStore) : s.decayActivity.slotPart = s.slotPart := by
  unfold decayActivity
  simp only
  split
  · rw [slotPart_rescale]
    rfl
  · rfl

/-! ## Changes without a new clause -/

/-- No clause is new, and none is gone but long learned ones. -/
structure Lessened (s s' : ClauseStore) : Prop extends s.Later s' where
  kept : ∀ {k : ClauseKey} {lits : Array Literal}, k.isRemovable = false → s.find k = some lits →
    ∃ lits', s'.find k = some lits'
  stored : ∀ {k : ClauseKey} {lits' : Array Literal}, s'.find k = some lits' →
    ∃ lits, s.find k = some lits ∧ lits'.Perm lits
  narrows : s.slotPart.Narrows s'.slotPart

theorem Lessened.of_reordered (hl : s.Later s') (hr : s.Reordered s') (hp : s'.slotPart = s.slotPart) :
    s.Lessened s' where
  toLater := hl
  kept _ hk := (hr.kept hk).imp fun _ h => h.1
  stored := hr.stored
  narrows := hp ▸ .refl _

theorem Keyed.lessened_refl (h : s.Keyed) : s.Lessened s := .of_reordered ⟨h, id⟩ (.refl s) rfl

theorem SameClauses.lessened (h : s.SameClauses s') (hs : s.Keyed) (hp : s'.slotPart = s.slotPart) : s.Lessened s' :=
  .of_reordered (h.later hs) h.reordered hp

theorem Lessened.trans {s'' : ClauseStore} (h : s.Lessened s') (h' : s'.Lessened s'') : s.Lessened s'' where
  toLater := h.toLater.trans h'.toLater
  kept hr hk := by
    obtain ⟨_, hk⟩ := h.kept hr hk
    exact h'.kept hr hk
  stored hk := by
    obtain ⟨_, hk, hp⟩ := h'.stored hk
    obtain ⟨_, hk, hp'⟩ := h.stored hk
    exact ⟨_, hk, hp.trans hp'⟩
  narrows := h.narrows.trans h'.narrows

/-- Literals may be put in another order. -/
theorem Keyed.lessened_put (h : s.Keyed) (hd : s.get d.key = .ok e) (hp : d.literals.Perm e.literals) :
    s.Lessened (s.put d) := by
  cases hu : d.key.isUnit with
  | true =>
    -- such a clause has nothing to replace
    have hput : s.put d = s := by
      unfold ClauseStore.put
      cases hk : d.key with
      | givenUnit l | learnedUnit l => rfl
      | _ => rw [hk] at hu; cases hu
    rw [hput]
    exact h.lessened_refl
  | false =>
    exact .of_reordered ⟨h.put hd, fun hk => issued_put hd hk⟩ (reordered_of_find (find_of_get hd) hp (find_put hd hu))
      (slotPart_put hd)

/-- A key that is taken from the free ones without success is lost. -/
theorem Keyed.lessened_takeFree (h : s.Keyed) (c : Clause) (source : ClauseSource) :
    s.Lessened (s.takeFree c source) where
  toLater := Later.takeFree h c source
  kept _ hk := ⟨_, by rw [find_takeFree, hk]⟩
  stored hk := ⟨_, by rwa [find_takeFree] at hk, .rfl⟩
  narrows := by
    unfold takeFree
    split
    · exact SlotPart.narrows_tail _
    · exact .refl _

/-- A removal empties a slot and frees its key. -/
theorem Keyed.lessened_remove (h : s.Keyed) (hd : s.learnedSlots[d.key.index]? = some (some d)) :
    s.Lessened (s.remove d) := by
  obtain ⟨hl, hf⟩ := h.remove hd
  obtain ⟨token, hkey⟩ := h.learned hd
  refine ⟨hl, fun {k lits} hr hk => ⟨lits, ?_⟩, fun {k lits} hk => ⟨lits, ?_, .rfl⟩,
    ?_, rfl, fun {k} hk => ?_, fun hc => ?_⟩
  · rw [hf, if_neg, hk]
    rintro rfl
    rw [hkey] at hr
    cases hr
  · rw [hf] at hk
    split at hk
    · cases hk
    · exact hk
  · simp [slotPart, ClauseStore.remove]
  · rcases hk with hk | hk
    · rcases List.mem_cons.mp hk with rfl | hk
      · exact names_of_slot hd
      · exact Or.inl hk
    · simp only [slotPart, ClauseStore.remove, Array.map_setIfInBounds, Option.map_none] at hk
      exact Or.inr ((mem_of_mem_setIfInBounds hk).resolve_left (by simp))
  · have hslot : s.slotPart.slots[d.key.index]? = some (some d.key) := by
      rw [slotPart_slots, hd]
      rfl
    have hslots : (s.remove d).slotPart.slots = s.slotPart.slots.setIfInBounds d.key.index none :=
      Array.map_setIfInBounds
    have hcount := countP_setIfInBounds (w := none) Option.isSome hslot
    simp only [Option.isSome_some, Option.isSome_none, if_true, Bool.false_eq_true, if_false] at hcount
    rw [SlotPart.Counted] at hc ⊢
    rw [hslots]
    show s.slotPart.count - 1 = _
    omega

theorem Keyed.lessened_foldl_remove (h : s.Keyed) {ds : List StoredClause}
    (hd : ∀ d ∈ ds, s.learnedSlots[d.key.index]? = some (some d)) (hnd : (ds.map (·.key.index)).Nodup) :
    s.Lessened (ds.foldl ClauseStore.remove s) := by
  induction ds generalizing s with
  | nil => exact h.lessened_refl
  | cons d ds ih =>
    have hl := h.lessened_remove (hd d List.mem_cons_self)
    rw [List.map_cons, List.nodup_cons] at hnd
    refine hl.trans (ih hl.keyed (fun e he => ?_) hnd.2)
    exact getElem?_remove_of_ne (fun heq => hnd.1 (heq ▸ List.mem_map.mpr ⟨e, he, rfl⟩))
      (hd e (List.mem_cons_of_mem d he))

theorem Keyed.lessened_reduceBy (h : s.Keyed) (reason : Nat → Option ClauseKey) (count : Nat) :
    s.Lessened (s.reduceBy reason count).2 := by
  obtain ⟨hslot, hnd⟩ := h.leastActive reason count
  rw [h.reduceBy_eq]
  exact h.lessened_foldl_remove hslot hnd

theorem Keyed.lessened_swapLiterals {i j : Nat} (h : s.Keyed) (hs : s.swapLiterals key i j = .ok s') :
    s.Lessened s' := by
  unfold swapLiterals at hs
  split at hs
  · cases hs
  · rename_i e he
    split at hs
    · cases hs
    · rename_i d hd
      cases hs
      unfold StoredClause.swap at hd
      split at hd
      · rename_i hij
        cases hd
        have hkey := h.key_eq he
        exact h.lessened_put (d := { e with literals := e.literals.swap i j hij.1 hij.2 }) (e := e) (hkey ▸ he)
          (Array.swap_perm hij.1 hij.2)
      · cases hd

/-! ## New clauses -/

/-- The key of a long learned clause follows the first of the free keys, or it is that of a new slot if none is free. -/
theorem freshKey_learned {i token : Nat} (hk : s.freshKey c source = .ok (.learned i token)) :
    (s.free = [] ∧ i = s.learnedSlots.size ∧ token = 0) ∨ ∃ n rest, s.free = .learned i n :: rest ∧ token = n + 1 := by
  unfold freshKey at hk
  split at hk
  · cases hk
  · cases hk
  · cases hk
  · unfold slotKey at hk
    split at hk <;> cases hk
  · unfold slotKey at hk
    split at hk <;> cases hk
  · unfold slotKey at hk
    split at hk <;> cases hk
  · split at hk
    · rename_i key rest hfree
      cases key with
      | learned j n =>
        simp only [ClauseKey.retoken] at hk
        split at hk <;> cases hk
        exact Or.inr ⟨n, rest, hfree, rfl⟩
      | _ => cases hk
    · rename_i hfree
      unfold slotKey at hk
      split at hk <;> cases hk
      exact Or.inl ⟨hfree, rfl, rfl⟩

theorem slotPart_place_fresh {i token : Nat} (hi : i = s.learnedSlots.size) (c : Clause) :
    (s.place (.learned i token) c).slotPart = { s.slotPart with
      slots := s.slotPart.slots.push (some (.learned i token))
      count := s.slotPart.count + 1 } := by
  simp [slotPart, place, hi]

theorem slotPart_place_reused {i token : Nat} (hi : s.learnedSlots[i]? = some none) (c : Clause) :
    (s.place (.learned i token) c).slotPart = { s.slotPart with
      slots := s.slotPart.slots.setIfInBounds i (some (.learned i token))
      count := s.slotPart.count + 1 } := by
  have hlt := (Array.getElem?_eq_some_iff.mp hi).1
  simp [slotPart, place, hlt]

/-- The key of a new learned clause depends on the slots only. -/
theorem freshKey_of_slotPart (h : s'.slotPart = s.slotPart) (c : Clause) :
    s'.freshKey c .learned = s.freshKey c .learned := by
  have hfree : s'.free = s.free := congrArg SlotPart.free h
  have hbinaries : s'.learnedBinaries.size = s.learnedBinaries.size := congrArg SlotPart.binaries h
  have hsize : s'.learnedSlots.size = s.learnedSlots.size := by
    simpa [slotPart] using congrArg (fun p => p.slots.size) h
  match c with
  | [] => rfl
  | [l] => rfl
  | [k, l] => simp only [freshKey, hbinaries]
  | k :: l :: m :: c => simp only [freshKey, hfree, hsize]

/-- A long learned clause takes the slot of the free key that comes first, or a new one. -/
theorem Keyed.takes_learned {i token : Nat} (h : s.Keyed) (hc : 3 ≤ c.length)
    (hk : s.freshKey c .learned = .ok (.learned i token)) :
    s.slotPart.Takes (.learned i token) ((s.takeFree c .learned).place (.learned i token) c).slotPart := by
  have htake : s.takeFree c .learned = { s with free := s.free.tail } := if_pos ⟨rfl, hc⟩
  have htail : ∀ {k}, k ∈ s.free.tail → s.slotPart.Names k := fun hk => Or.inl (List.mem_of_mem_tail hk)
  rw [htake]
  rcases freshKey_learned hk with ⟨hfree, hi, rfl⟩ | ⟨n, rest, hfree, rfl⟩
  · have hsize : s.slotPart.slots.size = i := by rw [hi]; exact Array.size_map
    rw [slotPart_place_fresh (s := { s with free := s.free.tail }) hi]
    refine ⟨fun {k} hk => ?_, Or.inr ⟨Array.size_push _, by rw [hsize]⟩,
      Nat.le_succ _, fun he => (by cases he), fun hc => ?_⟩
    · rcases hk with hk | hk
      · exact Or.inr (htail hk)
      · rcases Array.mem_push.mp hk with hk | hk
        · exact Or.inr (Or.inr hk)
        · exact Or.inl (Option.some.inj hk)
    · rw [SlotPart.Counted] at hc ⊢
      rw [Array.countP_push]
      exact congrArg (· + 1) hc
  · obtain ⟨j, m, hj, hnone⟩ := h.free (by rw [hfree]; exact List.mem_cons_self)
    cases hj
    rw [slotPart_place_reused (s := { s with free := s.free.tail }) hnone]
    refine ⟨fun {k} hk => ?_, Or.inl Array.size_setIfInBounds, Nat.le_succ _, fun he => ?_, fun hc => ?_⟩
    · rcases hk with hk | hk
      · exact Or.inr (htail hk)
      · rcases mem_of_mem_setIfInBounds hk with hk | hk
        · exact Or.inl (Option.some.inj hk)
        · exact Or.inr (Or.inr hk)
    · cases he
      exact Or.inl (by rw [slotPart, hfree]; exact List.mem_cons_self)
    · have hslot : s.slotPart.slots[i]? = some none := by
        rw [slotPart_slots, hnone]
        rfl
      have hcount := countP_setIfInBounds (w := some (.learned i (n + 1))) Option.isSome hslot
      simp only [Option.isSome_some, Option.isSome_none, if_true, Bool.false_eq_true, if_false] at hcount
      rw [SlotPart.Counted] at hc ⊢
      show s.slotPart.count + 1 = Array.countP _ (s.slotPart.slots.setIfInBounds _ _)
      omega

/-- A clause whose key cannot be removed takes no free key, and goes to no slot. -/
theorem Keyed.slotPart_place (h : s.Keyed) (hk : s.freshKey c source = .ok key) (hr : key.isRemovable = false) :
    ((s.takeFree c source).place key c).slotPart =
      { s.slotPart with binaries := s.slotPart.binaries + if key.isGiven || key.isUnit then 0 else 1 } := by
  obtain ⟨hfit, hgiven, -⟩ := h.freshKey_ok hk
  have htake : s.takeFree c source = s := by
    refine if_neg fun ⟨hs, hc⟩ => ?_
    cases key with
    | given i =>
      have := hgiven.mp rfl
      rw [hs] at this
      cases this
    | learned i token => cases hr
    | givenUnit l | learnedUnit l => simp [List.toArray_eq_iff.mp hfit] at hc
    | givenBinary i | learnedBinary i =>
      have h2 : c.length = 2 := hfit
      omega
  rw [htake]
  cases key with
  | learned i token => cases hr
  | learnedBinary i => simp [slotPart, ClauseStore.place, ClauseKey.isGiven, ClauseKey.isUnit]
  | _ => rfl

/-- A clause of the formula does not go to a slot, and the key of a learned clause is taken. -/
theorem Keyed.insert_slots (h : s.Keyed) (hi : s.insert c source = (.ok key, s')) :
    (source = .given → s'.slotPart = s.slotPart) ∧ s.slotPart.Takes key s'.slotPart := by
  unfold ClauseStore.insert at hi
  split at hi
  swap
  · cases hi
  rename_i key' hk
  cases hi
  obtain ⟨hfit, hgiven, -⟩ := h.freshKey_ok hk
  cases hr : key.isRemovable with
  | true =>
    cases key with
    | learned i token =>
      have hs : source ≠ .given := fun hs => absurd (hgiven.mpr hs) (by simp [ClauseKey.isGiven])
      have hs : source = .learned := by
        cases source
        · exact absurd rfl hs
        · rfl
      subst hs
      exact ⟨fun he => (by cases he), h.takes_learned hfit hk⟩
    | _ => cases hr
  | false =>
    rw [h.slotPart_place hk hr]
    refine ⟨fun hs => ?_, Or.inr, Or.inl rfl, ?_, fun he => ?_, id⟩
    · rw [hgiven.mpr hs]
      rfl
    · show s.slotPart.binaries + _ ≤ _
      split <;> omega
    · rw [he] at hr
      cases hr

end ClauseStore

end ClauseLearning
