import ClauseLearning.Proofs.ClauseStore.Ledger

/-!
# Exhaustion of a clause store

A long learned clause is refused only for lack of a key. The keys of a slot are given out in order of their tokens
(`Ledger.Traced`), so all keys of one slot were given out then, or the first key of every slot was
(`Ledger.Traced.insert_error`), which takes as many long learned clauses as a slot has tokens. Without a ledger, the
number of learned clauses bounds the slots and the tokens in use (`Spent`), and the same follows
(`Spent.le_of_refused`). It does not take that all keys were given out: the slot that was emptied last is used first,
and when its tokens are spent a clause is refused while most slots were never used (`exhausted_early`).
-/

namespace ClauseLearning

namespace ClauseStore

variable {s s' : ClauseStore} {c : Clause} {key : ClauseKey} {n : Nat}

/-- A long learned clause is refused if the first of the free keys has the last token, or there is
no free key and no new slot. -/
theorem insert_error_of_long {e : StoreError} (h : s.Keyed) (hc : 3 ≤ c.length)
    (he : (s.insert c .learned).1 = .error e) :
    (∃ i token, .learned i token ∈ s.free ∧ ClauseKey.tokenCount ≤ token + 1) ∨
      ClauseKey.slotCount ≤ s.learnedSlots.size := by
  unfold ClauseStore.insert at he
  split at he
  · cases he
  · rename_i e' hk
    unfold freshKey at hk
    split at hk
    · simp at hc
    · cases hk
    · cases hk
    · simp at hc
    · simp at hc
    · rename_i hs
      cases hs
    · split at hk
      · rename_i key rest hfree
        have hm : key ∈ s.free := by rw [hfree]; exact List.mem_cons_self
        obtain ⟨i, token, rfl, -⟩ := h.free hm
        simp only [ClauseKey.retoken] at hk
        split at hk
        · cases hk
        · exact Or.inl ⟨i, token, hm, by omega⟩
      · unfold slotKey at hk
        split at hk
        · cases hk
        · exact Or.inr (by omega)

/-! ## A bound on what was given out -/

/-- There are at most `n` slots and `n` learned clauses of two literals, and no slot is used more often. -/
structure Spent (n : Nat) (s : ClauseStore) : Prop where
  keyed : s.Keyed
  slots : s.slotPart.slots.size ≤ n
  binaries : s.slotPart.binaries ≤ n
  tokens : ∀ {i token : Nat}, s.slotPart.Names (.learned i token) → token < n

theorem spent_ofConfig (config : Config) : (ofConfig config).Spent 0 where
  keyed := keyed_ofConfig config
  slots := by simp [slotPart, ofConfig]
  binaries := by simp [slotPart, ofConfig]
  tokens h := by simp [SlotPart.Names, slotPart, ofConfig] at h

theorem Spent.lessened (h : s.Spent n) (hl : s.Lessened s') : s'.Spent n where
  keyed := hl.keyed
  slots := hl.narrows.size ▸ h.slots
  binaries := hl.narrows.binaries ▸ h.binaries
  tokens hk := h.tokens (hl.narrows.names hk)

/-- A learned clause takes one key. -/
theorem Spent.insert (h : s.Spent n) (hi : s.insert c .learned = (.ok key, s')) : s'.Spent (n + 1) := by
  obtain ⟨-, ht⟩ := h.keyed.insert_slots hi
  refine ⟨(h.keyed.insert_ok hi).1.keyed, ?_, Nat.le_trans ht.binaries (Nat.succ_le_succ h.binaries),
    fun {i token} hk => ?_⟩
  · have := h.slots
    rcases ht.size with hsize | ⟨hsize, -⟩ <;> omega
  · rcases ht.names hk with hkey | hk
    · cases token with
      | zero => exact Nat.succ_pos n
      | succ token => exact Nat.succ_lt_succ (h.tokens (ht.follows hkey.symm))
    · exact Nat.lt_succ_of_lt (h.tokens hk)

/-- A clause that is refused leaves the slots as they are, and so does one of the formula. -/
theorem Spent.insert_given (h : s.Spent n) (c : Clause) : (s.insert c .given).2.Spent n := by
  cases hi : s.insert c .given with
  | mk answer s' =>
    cases answer with
    | ok key =>
      have hs := (h.keyed.insert_slots hi).1 rfl
      exact ⟨(h.keyed.insert_ok hi).1.keyed, hs ▸ h.slots, hs ▸ h.binaries, fun hk => h.tokens (hs ▸ hk)⟩
    | error e =>
      have htake : s.takeFree c .given = s := if_neg (by simp)
      rwa [takeFree_of_refused hi, htake]

theorem Spent.refused {e : StoreError} (h : s.Spent n) (hi : s.insert c .learned = (.error e, s')) : s'.Spent n := by
  rw [takeFree_of_refused hi]
  exact h.lessened (h.keyed.lessened_takeFree c .learned)

/-- A learned clause is refused only if as many were stored as a slot has tokens. -/
theorem Spent.le_of_refused {e : StoreError} (h : s.Spent n) (hc : c ≠ []) (hi : s.insert c .learned = (.error e, s')) :
    ClauseKey.tokenCount ≤ n := by
  have he : (s.insert c .learned).1 = .error e := by rw [hi]
  have hslots : ClauseKey.tokenCount ≤ ClauseKey.slotCount := by decide
  match c, hc with
  | [l], _ => simp [ClauseStore.insert, freshKey] at he
  | [k, l], _ =>
    have hbinaries : s.learnedBinaries.size ≤ n := h.binaries
    by_contra hn
    have hlt : s.learnedBinaries.size < ClauseKey.slotCount := by omega
    simp [ClauseStore.insert, freshKey, slotKey, hlt] at he
  | k :: l :: m :: c, _ =>
    rcases insert_error_of_long h.keyed (by simp) he with ⟨i, token, hm, hlast⟩ | hfull
    · have := h.tokens (Or.inl hm)
      omega
    · have := h.slots
      rw [slotPart, Array.size_map] at this
      omega

/-- Before as many learned clauses as a slot has tokens, there is a key for another one. -/
theorem Spent.exists_freshKey (h : s.Spent n) (hc : c ≠ []) (hn : n < ClauseKey.tokenCount) :
    ∃ key, s.freshKey c .learned = .ok key := by
  cases hk : s.freshKey c .learned with
  | ok key => exact ⟨key, rfl⟩
  | error e =>
    have hi : (s.insert c .learned).1 = .error e := by rw [insert_fst, hk]
    have hle := h.le_of_refused hc (Prod.ext hi rfl)
    omega

/-! ## Keys that were given out -/

namespace Ledger

variable {m m' : Ledger} {x : Entry}

/-- The keys that were given out. -/
def keys (m : Ledger) : List ClauseKey := m.entries.map (·.key)

/-- The number of long learned clauses that were stored. -/
def longStored (m : Ledger) : Nat := m.entries.countP fun x => x.source = .learned ∧ 3 ≤ x.clause.length

/-- The keys of a slot were given out in order of their tokens, up to the one that the store names. -/
structure Traced (m : Ledger) : Prop extends m.Exact where
  named : ∀ {i token : Nat}, m.store.slotPart.Names (.learned i token) → ∀ n ≤ token, .learned i n ∈ m.keys
  first : ∀ i < m.store.slotPart.slots.size, .learned i 0 ∈ m.keys

theorem traced_ofConfig (config : Config) : (ofConfig config).Traced where
  toExact := exact_ofConfig config
  named hk := by simp [SlotPart.Names, slotPart, ofConfig, ClauseStore.ofConfig] at hk
  first := by simp [slotPart, ofConfig, ClauseStore.ofConfig]

theorem Traced.lessened (h : m.Traced) (he : m'.entries = m.entries) (hl : m.store.Lessened m'.store) : m'.Traced where
  toExact := h.toExact.lessened he hl
  named hk := by
    rw [keys, he]
    exact h.named (hl.narrows.names hk)
  first := by
    rw [keys, he, hl.narrows.size]
    exact h.first

theorem Traced.enter (h : m.Traced) (hi : m.store.insert x.clause x.source = (.ok x.key, m'.store))
    (he : m'.entries = m.entries ++ [x]) : m'.Traced := by
  obtain ⟨-, ht⟩ := h.keyed.insert_slots hi
  have hkeys : ∀ {k}, k = x.key ∨ k ∈ m.keys → k ∈ m'.keys := by
    intro k hk
    simp only [keys, he, List.map_append, List.mem_append, List.map_cons, List.map_nil, List.mem_singleton]
    exact hk.symm
  refine ⟨h.toExact.enter hi he, fun {i token} hk n hn => ?_, fun i hi => ?_⟩
  · rcases ht.names hk with hkey | hk
    · rcases Nat.lt_or_eq_of_le hn with hlt | rfl
      · -- the key follows one that was named, and so up to it all were given out
        obtain ⟨before, rfl⟩ : ∃ before, token = before + 1 := ⟨token - 1, by omega⟩
        exact hkeys (Or.inr (h.named (ht.follows hkey.symm) n (by omega)))
      · exact hkeys (Or.inl hkey)
    · exact hkeys (Or.inr (h.named hk n hn))
  · rcases ht.size with hsize | ⟨hsize, hkey⟩
    · exact hkeys (Or.inr (h.first i (hsize ▸ hi)))
    · rcases Nat.lt_or_ge i m.store.slotPart.slots.size with hlt | hge
      · exact hkeys (Or.inr (h.first i hlt))
      · obtain rfl : i = m.store.slotPart.slots.size := by omega
        exact hkeys (Or.inl hkey.symm)

theorem Traced.makeAll (h : m.Traced) (edits : List Edit) : (m.makeAll edits).Traced := by
  induction edits generalizing m with
  | nil => exact h
  | cons edit edits ih =>
    refine ih ?_
    rcases make_cases h.keyed edit with ⟨x, hi, he⟩ | ⟨he, hl⟩
    · exact h.enter hi he
    · exact h.lessened he hl

/-- A long learned clause is refused only if all keys of one slot, or the first keys of all slots, were given out. -/
theorem Traced.insert_error {e : StoreError} (h : m.Traced) (hc : 3 ≤ c.length)
    (he : (m.store.insert c .learned).1 = .error e) :
    (∃ i, ∀ token < ClauseKey.tokenCount, .learned i token ∈ m.keys) ∨
    ∀ i < ClauseKey.slotCount, .learned i 0 ∈ m.keys := by
  rcases insert_error_of_long h.keyed hc he with ⟨i, token, hm, hlast⟩ | hfull
  · exact Or.inl ⟨i, fun n hn => h.named (Or.inl hm) n (by omega)⟩
  · refine Or.inr fun i hi => h.first i ?_
    rw [slotPart, Array.size_map]
    omega

/-- Distinct keys of long learned clauses are those of as many entries. -/
theorem Exact.le_longStored (h : m.Exact) {f : Nat → ClauseKey} (hf : Function.Injective f) {n : Nat}
    (hm : ∀ i < n, f i ∈ m.keys) (hr : ∀ i, (f i).isRemovable = true) : n ≤ m.longStored := by
  have hsub : (List.range n).map f ⊆
      (m.entries.filter fun x => x.source = .learned ∧ 3 ≤ x.clause.length).map (·.key) := by
    intro k hk
    obtain ⟨i, hi, rfl⟩ := List.mem_map.mp hk
    obtain ⟨x, hx, hkey⟩ := List.mem_map.mp (hm i (List.mem_range.mp hi))
    refine List.mem_map.mpr ⟨x, List.mem_filter.mpr ⟨hx, ?_⟩, hkey⟩
    have hrx := hr i
    rw [← hkey] at hrx
    have hfits := h.fits x hx
    have hgiven := h.given x hx
    cases hk : x.key with
    | learned slot token =>
      rw [hk] at hfits hgiven
      have hlen : 3 ≤ x.clause.length := hfits
      cases hs : x.source with
      | given => exact absurd (hgiven.mpr hs) (by simp [ClauseKey.isGiven])
      | learned => simpa using hlen
    | _ => rw [hk] at hrx; cases hrx
  have hle := (List.nodup_range.map hf).length_le_of_subset hsub
  rwa [List.length_map, List.length_range, List.length_map, ← List.countP_eq_length_filter] at hle

/-- To refuse a long learned clause takes as many of them as a slot has tokens. -/
theorem Traced.le_longStored {e : StoreError} (h : m.Traced) (hc : 3 ≤ c.length)
    (he : (m.store.insert c .learned).1 = .error e) : ClauseKey.tokenCount ≤ m.longStored := by
  rcases h.insert_error hc he with ⟨i, hi⟩ | hi
  · exact h.toExact.le_longStored (f := .learned i) (fun a b hab => by cases hab; rfl) hi fun _ => rfl
  · refine h.toExact.le_longStored (f := (.learned · 0)) (fun a b hab => by cases hab; rfl)
      (fun n hn => hi n ?_) fun _ => rfl
    simp only [ClauseKey.tokenCount, ClauseKey.slotCount] at hn ⊢
    omega

/-! ## A slot with spent tokens -/

/-- A learned clause is stored and removed. -/
def churn (c : Clause) : List Edit := [.insert c .learned, .reduceBy (fun _ => none) 1]

theorem makeAll_append (m : Ledger) (edits edits' : List Edit) :
    m.makeAll (edits ++ edits') = (m.makeAll edits).makeAll edits' := List.foldl_append

/-- The ledger after the only slot was used with all tokens up to one, the last time without a clause that stays. -/
structure Churned (c : Clause) (token : Nat) (m : Ledger) : Prop where
  slots : m.store.learnedSlots = #[none]
  free : m.store.free = [.learned 0 token]
  entries : m.entries = (List.range (token + 1)).map fun n => ⟨.learned 0 n, c, .learned⟩

theorem freshKey_learned_eq (s : ClauseStore) (hc : 3 ≤ c.length) : s.freshKey c .learned =
    match s.free with
    | key :: _ => key.retoken
    | [] => slotKey (.learned · 0) s.learnedSlots.size := by
  match c, hc with
  | _ :: _ :: _ :: _, _ => rfl

/-- The only clause is removed. -/
theorem reduceBy_singleton {d : StoredClause} (hd : s.learnedSlots = #[some d]) (hkey : d.key.index = 0) :
    (s.reduceBy (fun _ => none) 1).2 = s.remove d := by
  have hlock : d.isLocked (fun _ => none) = false := by simp [StoredClause.isLocked]
  have hun : s.unlocked (fun _ => none) = [d] := by simp [unlocked, learnedLong, hd, hlock]
  simp [reduceBy, hun, removeSlots, removeSlot, hkey, hd, ClauseStore.remove]

theorem churned_of_insert {token : Nat} {d : StoredClause}
    (hi : m.store.insert c .learned = (.ok (.learned 0 token), s)) (hslots : s.learnedSlots = #[some d])
    (hd : d.key = .learned 0 token) (hfree : s.free = [])
    (he : m.entries = (List.range token).map fun n => ⟨.learned 0 n, c, .learned⟩) :
    Churned c token (m.makeAll (churn c)) := by
  have hmake : m.makeAll (churn c) =
      ⟨(s.reduceBy (fun _ => none) 1).2, m.entries ++ [⟨.learned 0 token, c, .learned⟩]⟩ := by
    simp [makeAll, churn, make, hi]
  rw [hmake, reduceBy_singleton hslots (by rw [hd]; rfl)]
  refine ⟨?_, ?_, ?_⟩
  · simp [ClauseStore.remove, hslots, hd, ClauseKey.index]
  · simp [ClauseStore.remove, hfree, hd]
  · simp [he, List.range_succ]

theorem churned_first (config : Config) (hc : 3 ≤ c.length) : Churned c 0 ((ofConfig config).makeAll (churn c)) := by
  have hkey : (ClauseStore.ofConfig config).freshKey c .learned = .ok (.learned 0 0) := by
    rw [freshKey_learned_eq _ hc]
    rfl
  refine churned_of_insert (d := ⟨.learned 0 0, c.toArray, 0⟩)
    (s := ((ClauseStore.ofConfig config).takeFree c .learned).place (.learned 0 0) c) ?_ ?_ rfl ?_ rfl
  · simp [ofConfig, ClauseStore.insert, hkey]
  · simp [ClauseStore.takeFree, hc, place, ClauseStore.ofConfig]
  · simp [ClauseStore.takeFree, hc, place, ClauseStore.ofConfig]

theorem Churned.next {token : Nat} (h : Churned c token m) (hc : 3 ≤ c.length) (ht : token + 1 < ClauseKey.tokenCount) :
    Churned c (token + 1) (m.makeAll (churn c)) := by
  have hkey : m.store.freshKey c .learned = .ok (.learned 0 (token + 1)) := by
    rw [freshKey_learned_eq _ hc, h.free]
    exact if_pos ht
  refine churned_of_insert (d := ⟨.learned 0 (token + 1), c.toArray, 0⟩)
    (s := (m.store.takeFree c .learned).place (.learned 0 (token + 1)) c) ?_ ?_ rfl ?_ h.entries
  · simp [ClauseStore.insert, hkey]
  · simp [ClauseStore.takeFree, hc, place, h.slots]
  · simp [ClauseStore.takeFree, hc, place, h.free]

theorem churned (config : Config) (hc : 3 ≤ c.length) {token : Nat} (ht : token < ClauseKey.tokenCount) :
    Churned c token ((ofConfig config).makeAll (List.replicate (token + 1) (churn c)).flatten) := by
  induction token with
  | zero => exact churned_first config hc
  | succ token ih =>
    rw [List.replicate_succ', List.flatten_append, makeAll_append]
    simpa using (ih (by omega)).next hc ht

/-- With its tokens spent, the only slot is still the one to use next. -/
theorem Churned.insert_error {token : Nat} (h : Churned c token m) (hc : 3 ≤ c.length)
    (ht : ClauseKey.tokenCount ≤ token + 1) : (m.store.insert c .learned).1 = .error .storageExhausted := by
  have hkey : m.store.freshKey c .learned = .error .storageExhausted := by
    rw [freshKey_learned_eq _ hc, h.free]
    exact if_neg (by omega)
  simp [ClauseStore.insert, hkey]

end Ledger

open Ledger in
/-- A clause of three literals is stored and removed as often as a slot has tokens. Then it is refused for lack of a
key, while no slot but the first was used. -/
theorem exhausted_early :
    let c : Clause := [⟨1, true⟩, ⟨2, true⟩, ⟨3, true⟩]
    let m := (Ledger.ofConfig default).makeAll (List.replicate 65536 (churn c)).flatten
    (m.store.insert c .learned).1 = .error .storageExhausted ∧ m.longStored = 65536 ∧
      m.keys = (List.range 65536).map (.learned 0) := by
  intro c m
  have h : Churned c 65535 m := churned default (by decide) (by decide)
  refine ⟨h.insert_error (by decide) (by decide), ?_, ?_⟩
  · simp [longStored, h.entries, List.countP_map, Function.comp_def, c]
  · simp [keys, h.entries, Function.comp_def]

end ClauseStore

end ClauseLearning
