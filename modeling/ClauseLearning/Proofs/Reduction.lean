import ClauseLearning.Proofs.Exhaustion

/-!
# Reductions

A reduction succeeds and removes the least active of the long learned clauses that are not locked, as many as it is told
to or all of them (`Reduced`). The candidates are chosen before any slot is emptied, and what was removed is told from
the slots afterwards (`learnedSlots_foldl_remove`). That a removal empties a slot in use, and the number of clauses is
the right one afterwards, takes that the keys are those of the slots and that the slots in use are counted (`Filed`); so
it is in every store that can come about (`reduction_removes_least_active`).
-/

namespace ClauseLearning

namespace ClauseStore

variable {s t : ClauseStore} {c d : StoredClause} {key : ClauseKey} {removed : List StoredClause}

/-! ## What a removal leaves -/

/-- The slots are those that hold no removed clause, and the keys of the removed ones are free, the last one first. -/
theorem foldl_remove_eq (s : ClauseStore) (removed : List StoredClause) : removed.foldl remove s = { s with
    learnedSlots := (removed.foldl remove s).learnedSlots
    learnedLongCount := s.learnedLongCount - removed.length
    free := (removed.map (·.key)).reverse ++ s.free } := by
  induction removed generalizing s with
  | nil => rfl
  | cons c removed ih =>
    rw [List.foldl_cons, ih]
    simp only [remove, List.map_cons, List.reverse_cons, List.append_assoc, List.singleton_append, List.length_cons,
      Nat.sub_sub, Nat.add_comm 1]

/-- A removal empties the slot of the clause with the key. -/
theorem Keyed.learnedSlots_remove (h : s.Keyed) (hc : s.learnedSlots[c.key.index]? = some (some c)) :
    (s.remove c).learnedSlots = s.learnedSlots.map (Option.filter fun d => d.key ≠ c.key) := by
  refine Array.ext_getElem? fun i => ?_
  rw [ClauseStore.remove, getElem?_setIfInBounds_of_lt (Array.getElem?_eq_some_iff.mp hc).1, Array.getElem?_map]
  split
  · rename_i hi
    rw [hi, hc]
    simp [Option.filter_some]
  · rename_i hi
    cases hslot : s.learnedSlots[i]? with
    | none => rfl
    | some slot =>
      cases slot with
      | none => rfl
      | some d =>
        obtain ⟨token, hd⟩ := h.learned hslot
        have hne : d.key ≠ c.key := fun heq => hi (by rw [← heq, hd]; rfl)
        simp [Option.filter_some, hne]

section Removals

variable (h : s.Keyed) (hslot : ∀ c ∈ removed, s.learnedSlots[c.key.index]? = some (some c))

include h hslot

theorem Keyed.isRemovable_of_removed (hk : key ∈ removed.map (·.key)) : key.isRemovable = true := by
  obtain ⟨c, hc, rfl⟩ := List.mem_map.mp hk
  obtain ⟨token, hkey⟩ := h.learned (hslot c hc)
  rw [hkey]
  rfl

/-- The keys of derived clauses of at most two literals are not those of removed clauses. -/
theorem Keyed.filter_learnedClauses : s.learnedClauses.filter (·.key ∉ removed.map (·.key)) =
    (s.learnedUnits.toList.map fun l => ⟨.learnedUnit l, #[l], 0⟩) ++ s.learnedBinaries.toList ++
      s.learnedLong.filter (·.key ∉ removed.map (·.key)) := by
  have hother : ∀ {d : StoredClause}, d.key.isRemovable = false → decide (d.key ∉ removed.map (·.key)) = true :=
    fun {d} hd => decide_eq_true fun hm => by rw [h.isRemovable_of_removed hslot hm] at hd; cases hd
  rw [learnedClauses, List.filter_append, List.filter_append]
  congr 2
  · refine List.filter_eq_self.mpr fun d hd => hother ?_
    obtain ⟨l, -, rfl⟩ := List.mem_map.mp hd
    rfl
  · refine List.filter_eq_self.mpr fun d hd => hother ?_
    obtain ⟨i, hi⟩ := Array.mem_iff_getElem?.mp (Array.mem_toList_iff.mp hd)
    rw [h.learnedBinary hi]
    rfl

variable (hnd : (removed.map (·.key.index)).Nodup)

include hnd

/-- Clauses of distinct slots are removed, and no others. -/
theorem Keyed.learnedSlots_foldl_remove : (removed.foldl ClauseStore.remove s).learnedSlots =
    s.learnedSlots.map (Option.filter fun d => d.key ∉ removed.map (·.key)) := by
  induction removed generalizing s with
  | nil =>
    have hid : (Option.filter fun d : StoredClause => d.key ∉ ([] : List StoredClause).map (·.key)) = id := by
      funext slot
      cases slot <;> simp
    rw [hid, Array.map_id, List.foldl_nil]
  | cons c removed ih =>
    have hc := hslot c List.mem_cons_self
    rw [List.map_cons, List.nodup_cons] at hnd
    have hstay : ∀ d ∈ removed, (s.remove c).learnedSlots[d.key.index]? = some (some d) := fun d hd =>
      getElem?_remove_of_ne (fun heq => hnd.1 (heq ▸ List.mem_map.mpr ⟨d, hd, rfl⟩))
        (hslot d (List.mem_cons_of_mem c hd))
    rw [List.foldl_cons, ih (h.remove hc).1.keyed hstay hnd.2, h.learnedSlots_remove hc, Array.map_map]
    congr 1
    funext slot
    simp only [Function.comp_apply, Option.filter_filter]
    congr 1
    funext d
    rw [List.map_cons, ← Bool.decide_and]
    simp only [List.mem_cons, not_or]

theorem Keyed.learnedLong_foldl_remove : (removed.foldl ClauseStore.remove s).learnedLong =
    s.learnedLong.filter (·.key ∉ removed.map (·.key)) := by
  rw [ClauseStore.learnedLong, h.learnedSlots_foldl_remove hslot hnd, Array.toList_map, List.filterMap_map,
    ClauseStore.learnedLong, List.filter_filterMap]
  rfl

/-- A clause is found at its key as it was, unless it was removed. -/
theorem Keyed.get_foldl_remove : (removed.foldl ClauseStore.remove s).get key = .ok c ↔
    s.get key = .ok c ∧ key ∉ removed.map (·.key) := by
  cases hr : key.isRemovable with
  | false =>
    have hsame : (removed.foldl ClauseStore.remove s).get key = s.get key := by
      rw [foldl_remove_eq]
      cases key with
      | learned i token => cases hr
      | _ => rfl
    have hkept : key ∉ removed.map (·.key) := fun hm => by
      rw [h.isRemovable_of_removed hslot hm] at hr
      cases hr
    rw [hsame]
    exact (and_iff_left hkept).symm
  | true =>
    cases key with
    | learned i token =>
      rw [get_learned_iff, get_learned_iff, h.learnedSlots_foldl_remove hslot hnd, Array.getElem?_map]
      have hfilter : ∀ slot : Option (Option StoredClause),
          slot.map (Option.filter fun d => d.key ∉ removed.map (·.key)) = some (some c) ↔
            slot = some (some c) ∧ c.key ∉ removed.map (·.key) := by
        intro slot
        simp only [Option.map_eq_some_iff, Option.filter_eq_some_iff, decide_eq_true_iff]
        constructor
        · rintro ⟨_, rfl, rfl, hkept⟩
          exact ⟨rfl, hkept⟩
        · rintro ⟨rfl, hkept⟩
          exact ⟨_, rfl, rfl, hkept⟩
      rw [hfilter]
      constructor
      · rintro ⟨⟨hc, hkept⟩, hk⟩
        exact ⟨⟨hc, hk⟩, hk ▸ hkept⟩
      · rintro ⟨⟨hc, hk⟩, hkept⟩
        exact ⟨⟨hc, hk ▸ hkept⟩, hk⟩
    | _ => cases hr

theorem Keyed.get_of_removed (hc : c ∈ removed) :
    (removed.foldl ClauseStore.remove s).get c.key = .error .missing := by
  have hgone : (removed.foldl ClauseStore.remove s).learnedSlots[c.key.index]? = some none := by
    have hm : c.key ∈ removed.map (·.key) := List.mem_map_of_mem hc
    rw [h.learnedSlots_foldl_remove hslot hnd, Array.getElem?_map, hslot c hc, Option.map_some,
      Option.filter_some_neg (by simpa using hm)]
  obtain ⟨token, hk⟩ := h.learned (hslot c hc)
  rw [hk]
  simp only [ClauseStore.get]
  rw [hgone]

end Removals

/-! ## Least active clauses -/

/-- Activities are compared in a total order. -/
theorem pairwise_mergeSort_leActivity (clauses : List StoredClause) :
    (clauses.mergeSort StoredClause.leActivity).Pairwise fun c d => floatRank c.activity ≤ floatRank d.activity := by
  have htrans : ∀ b c d : StoredClause, b.leActivity c = true → c.leActivity d = true → b.leActivity d = true := by
    simp only [StoredClause.leActivity, decide_eq_true_iff]
    exact fun _ _ _ => Int.le_trans
  have htotal : ∀ c d : StoredClause, (c.leActivity d || d.leActivity c) = true := by
    simp only [StoredClause.leActivity, Bool.or_eq_true, decide_eq_true_iff]
    exact fun _ _ => Int.le_total _ _
  exact (List.pairwise_mergeSort htrans htotal clauses).imp fun hle => by simpa [StoredClause.leActivity] using hle

theorem length_leastActive (s : ClauseStore) (reason : Nat → Option ClauseKey) (count : Nat) :
    (s.leastActive reason count).length = min count (s.unlocked reason).length := by
  rw [leastActive, List.length_take, List.length_mergeSort]

/-- A clause that is left out when the least active ones are taken is at least as active as those. -/
theorem leastActive_le {reason : Nat → Option ClauseKey} {count : Nat} (hc : c ∈ s.leastActive reason count)
    (hd : d ∈ s.unlocked reason) (hnd : d ∉ s.leastActive reason count) :
    floatRank c.activity ≤ floatRank d.activity := by
  have hsorted := pairwise_mergeSort_leActivity (s.unlocked reason)
  rw [← List.take_append_drop count (List.mergeSort _ _), List.pairwise_append] at hsorted
  have hmem : d ∈ (s.unlocked reason).mergeSort StoredClause.leActivity := (List.mergeSort_perm _ _).mem_iff.mpr hd
  rw [← List.take_append_drop count (List.mergeSort _ _), List.mem_append] at hmem
  exact hsorted.2.2 c hc d (hmem.resolve_left hnd)

/-! ## Reductions -/

/-- The second store is the first one without some of its unlocked long learned clauses, the least active ones. -/
structure Reduced (reason : Nat → Option ClauseKey) (removed : List StoredClause) (s t : ClauseStore) : Prop where
  /-- The removed clauses are distinct. -/
  distinct : (removed.map (·.key)).Nodup
  /-- They are long learned clauses, and not the antecedents of values. -/
  unlocked : ∀ c ∈ removed, c ∈ s.learnedLong ∧ c.isLocked reason = false
  /-- None of them is more active than one that could have been removed and was not. -/
  least : ∀ c ∈ removed, ∀ d ∈ t.learnedLong, d.isLocked reason = false → floatRank c.activity ≤ floatRank d.activity
  /-- The clauses of the formula are the same. -/
  given : t.givenClauses = s.givenClauses
  /-- The derived clauses are the same but for the removed ones, and in the same order. -/
  learned : t.learnedClauses = s.learnedClauses.filter (·.key ∉ removed.map (·.key))
  /-- A clause is found at its key as it was, unless it was removed. -/
  get_ok : ∀ key c, t.get key = .ok c ↔ s.get key = .ok c ∧ key ∉ removed.map (·.key)
  /-- The key of a removed clause names no clause. -/
  get_removed : ∀ c ∈ removed, t.get c.key = .error .missing
  /-- There are as many clauses less as were removed. -/
  count : t.count + removed.length = s.count
  /-- The keys of the removed clauses can be used again, besides those that could be before. -/
  free : t.free = (removed.map (·.key)).reverse ++ s.free
  /-- No two keys that can be used again are of one slot. -/
  slots : (t.free.map (·.index)).Nodup
  /-- The slots of such keys are empty. -/
  empty : ∀ key ∈ t.free, ∃ slot token, key = .learned slot token ∧ t.learnedSlots[slot]? = some none

/-- The keys are those of the slots, and the slots in use are counted. -/
structure Filed (s : ClauseStore) : Prop where
  keyed : s.Keyed
  counted : s.slotPart.Counted

theorem Filed.lessened (h : s.Filed) (hl : s.Lessened t) : t.Filed := ⟨hl.keyed, hl.narrows.counted h.counted⟩

theorem Filed.insert (h : s.Filed) (c : Clause) (source : ClauseSource) : (s.insert c source).2.Filed := by
  cases hi : s.insert c source with
  | mk answer t =>
    cases answer with
    | ok key => exact ⟨(h.keyed.insert_ok hi).1.keyed, (h.keyed.insert_slots hi).2.counted h.counted⟩
    | error e =>
      rw [takeFree_of_refused hi]
      exact h.lessened (h.keyed.lessened_takeFree c source)

/-- A reduction removes the least active clauses, and nothing else. -/
theorem Filed.reduced (h : s.Filed) (reason : Nat → Option ClauseKey) (count : Nat) :
    Reduced reason (s.leastActive reason count) s ((s.leastActive reason count).foldl remove s) := by
  obtain ⟨hslot, hnd⟩ := h.keyed.leastActive reason count
  have hunlocked := s.leastActive_subset reason count
  have hkeyed := (h.keyed.foldl_remove hslot hnd).1.keyed
  refine ⟨List.Nodup.of_map ClauseKey.index (by rwa [List.map_map]), fun c hc => ?_, fun c hc d hd hlock => ?_, ?_, ?_,
    fun _ _ => h.keyed.get_foldl_remove hslot hnd, fun _ => h.keyed.get_of_removed hslot hnd, ?_, ?_, hkeyed.free_nodup,
    fun key hk => hkeyed.free hk⟩
  · simpa using List.mem_filter.mp (hunlocked hc)
  · rw [h.keyed.learnedLong_foldl_remove hslot hnd, List.mem_filter, decide_eq_true_iff] at hd
    have hcandidate : d ∈ s.unlocked reason := List.mem_filter.mpr ⟨hd.1, by simpa using hlock⟩
    exact leastActive_le hc hcandidate fun hm => hd.2 (List.mem_map_of_mem hm)
  · rw [foldl_remove_eq]
    rfl
  · rw [h.keyed.filter_learnedClauses hslot, ← h.keyed.learnedLong_foldl_remove hslot hnd, foldl_remove_eq]
    rfl
  · have hcount : s.learnedLongCount = s.learnedLong.length := by
      rw [length_learnedLong, ← countP_slotPart]
      exact h.counted
    have hle : (s.unlocked reason).length ≤ s.learnedLong.length := List.length_filter_le _ _
    have hlength := s.length_leastActive reason count
    rw [foldl_remove_eq]
    simp only [ClauseStore.count, givenCount, learnedCount]
    omega
  · rw [foldl_remove_eq]

end ClauseStore

/-! ## Stores that can come about -/

namespace Solver

variable {s : Solver}

theorem keptByChanges_filed :
    KeptByChanges (fun s => InStep s ∧ s.clauses.Filed) fun _ s => InStep s ∧ s.clauses.Filed :=
  keptByChanges_of_lessened Iff.rfl (fun h => h.keyed) (fun h hl _ => h.lessened hl) fun h _ => h

theorem keptByLearning_filed :
    KeptByLearning (fun s => InStep s ∧ s.clauses.Filed) (fun s => InStep s ∧ s.clauses.Filed)
    fun _ s => InStep s ∧ s.clauses.Filed where
  before := keptByChanges_filed.toKeptByWork
  after := keptByChanges_filed.toKeptByWork
  stored {s c _ _} h hi := ⟨keptByLearning_inStep.stored h.1 hi, by simpa [hi] using h.2.insert c .learned⟩
  refused {s c _ _} h hc hi := ⟨keptByLearning_inStep.refused h.1 hc hi, by simpa [hi] using h.2.insert c .learned⟩
  noted h hn := ⟨keptByLearning_inStep.noted h.1 hn, h.2⟩
  advanced := keptByChanges_filed.advance fun h => h

theorem keptByAdditions_filed : KeptByAdditions fun s => InStep s ∧ s.clauses.Filed where
  work := keptByChanges_filed.toKeptByWork
  grown previous h hroom hd := ⟨keptByAdditions_inStep.grown previous h.1 hroom hd, h.2⟩
  inserted c h := ⟨keptByAdditions_inStep.inserted c h.1, h.2.insert c .given⟩

end Solver

namespace ClauseStore

/-- A store after any edits from outside, or that of a solver after any operations. -/
inductive Reachable : ClauseStore → Prop
  | edited (config : Config) (edits : List Edit) : Reachable ((Ledger.ofConfig config).makeAll edits).store
  | solved (config : Config) (operations : List Solver.Operation) :
    Reachable ((Solver.ofConfig config).performEach operations).clauses

theorem filed_ofConfig (config : Config) : (ofConfig config).Filed :=
  ⟨(Ledger.exact_ofConfig config).keyed, (Ledger.exact_ofConfig config).counted⟩

theorem Reachable.filed {s : ClauseStore} (h : s.Reachable) : s.Filed := by
  cases h with
  | edited config edits =>
    have hexact := (Ledger.exact_ofConfig config).makeAll edits
    exact ⟨hexact.keyed, hexact.counted⟩
  | solved config operations =>
    exact (Solver.holds_performEach Solver.keptByLearning_filed Solver.keptByAdditions_filed
      ⟨inStep_ofConfig config, filed_ofConfig config⟩ operations).2

/-! ## Main result -/

/-- In every store that can come about, a reduction succeeds, whatever the antecedents are. It removes as many clauses
as it is told to, or all that are not locked if those are fewer, the least active ones, and nothing else. -/
theorem reduction_removes_least_active {s : ClauseStore} (h : s.Reachable)
    (reason : Nat → Option ClauseKey) (count : Nat) :
    ∃ removed t, s.reduceBy reason count = (.ok removed.length, t) ∧
      removed.length = min count (s.unlocked reason).length ∧ Reduced reason removed s t :=
  ⟨_, _, h.filed.keyed.reduceBy_eq reason count, s.length_leastActive reason count, h.filed.reduced reason count⟩

/-- Of three clauses, the first one is locked and the second one was of use. -/
theorem reduction_removes_least_active_locked :
    let edits : List Edit := [.insert [⟨1, true⟩, ⟨2, true⟩, ⟨3, true⟩] .learned,
      .insert [⟨2, true⟩, ⟨3, true⟩, ⟨4, true⟩] .learned, .insert [⟨1, true⟩, ⟨3, true⟩, ⟨4, true⟩] .learned,
      .bumpActivity (.learned 1 0)]
    let s := ((Ledger.ofConfig default).makeAll edits).store
    let reason := fun x => if x = 1 then some (.learned 0 0) else none
    (s.unlocked reason).map (·.key) = [.learned 1 0, .learned 2 0] ∧
      ∃ removed t, s.reduceBy reason 1 = (.ok removed.length, t) ∧
        removed.length = min 1 (s.unlocked reason).length ∧ Reduced reason removed s t :=
  ⟨by decide +kernel, reduction_removes_least_active (.edited default _) _ 1⟩

end ClauseStore

end ClauseLearning
