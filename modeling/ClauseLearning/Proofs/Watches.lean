import ClauseLearning.Proofs.ClauseStore.Changes
import ClauseLearning.Watches

/-!
# Watch lists and stored clauses

The watched literals of a clause are its first two (`IsWatch`, `Pair`). `Watched` says that the watch lists are
those of the stored clauses: each binary clause is on the lists of both of its literals, once on each, and each
longer one is once on the list of each of its watched literals and on no other. Keys on the lists of longer clauses
may be those of removed clauses. New clauses (`Watched.insert`), a watch moved to another literal (`Watched.move`),
reductions and new atoms keep this.
-/

namespace ClauseLearning

/-- The literal is one of the first two. -/
def IsWatch (d : Array Literal) (l : Literal) : Prop := d[0]? = some l ∨ d[1]? = some l

instance (d : Array Literal) (l : Literal) : Decidable (IsWatch d l) := inferInstanceAs (Decidable (_ ∨ _))

/-- The first two literals are the given ones, in one order or the other. -/
def Pair (d : Array Literal) (k l : Literal) : Prop := d[0]? = some k ∧ d[1]? = some l ∨ d[0]? = some l ∧ d[1]? = some k

section Pair

variable {d e : Array Literal} {k l m : Literal}

theorem Pair.symm (h : Pair d k l) : Pair d l k := Or.symm h

theorem Pair.isWatch (h : Pair d k l) : IsWatch d k := h.imp And.left And.right

theorem Pair.isWatch_iff (h : Pair d k l) : IsWatch d m ↔ m = k ∨ m = l := by
  rcases h with ⟨h0, h1⟩ | ⟨h0, h1⟩
  · simp only [IsWatch, h0, h1, Option.some.injEq, eq_comm]
  · simp only [IsWatch, h0, h1, Option.some.injEq, eq_comm, or_comm]

theorem IsWatch.mem (h : IsWatch d l) : l ∈ d := by
  rcases h with h | h <;> exact Array.mem_of_getElem? h

theorem Pair.mem (h : Pair d k l) : k ∈ d := h.isWatch.mem

/-- All literals of a short clause are watched. -/
theorem isWatch_of_mem (h : l ∈ d) (h2 : d.size ≤ 2) : IsWatch d l := by
  obtain ⟨i, hi⟩ := Array.mem_iff_getElem?.mp h
  have hlt := (Array.getElem?_eq_some_iff.mp hi).1
  match i with
  | 0 => exact Or.inl hi
  | 1 => exact Or.inr hi
  | i + 2 => omega

/-- A watched literal has another one beside it. -/
theorem IsWatch.exists_pair (h : IsWatch d l) (h2 : 2 ≤ d.size) : ∃ m, Pair d l m := by
  rcases h with h | h
  · exact ⟨d[1], Or.inl ⟨h, Array.getElem?_eq_getElem h2⟩⟩
  · exact ⟨d[0], Or.inr ⟨Array.getElem?_eq_getElem (Nat.lt_of_lt_of_le Nat.zero_lt_two h2), h⟩⟩

/-- The first two literals may be swapped. -/
def Faced (d e : Array Literal) : Prop := e = d ∨ 2 ≤ d.size ∧ e = d.swapIfInBounds 0 1

theorem swapIfInBounds_perm (d : Array Literal) (i j : Nat) : (d.swapIfInBounds i j).Perm d := by
  rw [Array.swapIfInBounds_def]
  split
  · split
    · exact Array.swap_perm _ _
    · exact Array.Perm.rfl
  · exact Array.Perm.rfl

theorem Faced.perm (h : Faced d e) : e.Perm d := by
  rcases h with rfl | ⟨-, rfl⟩
  · exact Array.Perm.rfl
  · exact swapIfInBounds_perm d 0 1

theorem getElem?_swap_first (h2 : 2 ≤ d.size) :
    (d.swapIfInBounds 0 1)[0]? = d[1]? ∧ (d.swapIfInBounds 0 1)[1]? = d[0]? := by
  have h0 : 0 < d.size := by omega
  have h1 : 1 < d.size := by omega
  rw [Array.swapIfInBounds_def, dif_pos h0, dif_pos h1, Array.getElem?_swap, Array.getElem?_swap]
  exact ⟨(Array.getElem?_eq_getElem h1).symm, (Array.getElem?_eq_getElem h0).symm⟩

theorem Faced.pair_iff (h : Faced d e) : Pair e k l ↔ Pair d k l := by
  rcases h with rfl | ⟨h2, rfl⟩
  · rfl
  · obtain ⟨h0, h1⟩ := getElem?_swap_first h2
    rw [Pair, Pair, h0, h1, or_comm, and_comm, and_comm (a := d[1]? = some k)]

theorem Faced.isWatch_iff (h : Faced d e) : IsWatch e l ↔ IsWatch d l := by
  rcases h with rfl | ⟨h2, rfl⟩
  · rfl
  · obtain ⟨h0, h1⟩ := getElem?_swap_first h2
    rw [IsWatch, IsWatch, h0, h1, or_comm]

end Pair

namespace Watches

variable {w : Watches} {l m : Literal} {x : Nat}

/-! ## Lists after a change -/

theorem covers_iff : w.covers l = true ↔ l.index < w.lists.size := by simp [covers]

@[simp] theorem size_addBinary (w : Watches) (l : Literal) (b : BinaryWatch) :
    (w.addBinary l b).lists.size = w.lists.size := by simp [addBinary]

@[simp] theorem size_addLong (w : Watches) (l : Literal) (key : ClauseKey) :
    (w.addLong l key).lists.size = w.lists.size := by simp [addLong]

@[simp] theorem covers_setLong (w : Watches) (l : Literal) (keys : Array ClauseKey) (m : Literal) :
    (w.setLong l keys).covers m = w.covers m := by simp [covers, setLong]

@[simp] theorem covers_restoreLong (w : Watches) (l : Literal) (front : Array ClauseKey) (m : Literal) :
    (w.restoreLong l front).covers m = w.covers m := by simp [covers, restoreLong]

/-- A list after a change of the list of one literal. -/
theorem getElem?_modify (hl : w.covers l) (f : WatchList → WatchList) (m : Literal) :
    ((w.lists.modify l.index f)[m.index]?.getD {}) =
      if m = l then f (w.lists[m.index]?.getD {}) else w.lists[m.index]?.getD {} := by
  rw [covers_iff] at hl
  rw [Array.getElem?_modify]
  by_cases h : m = l
  · rw [h, if_pos rfl, if_pos rfl, Array.getElem?_eq_getElem hl]
    rfl
  · rw [if_neg h, if_neg fun he => h (Literal.index_inj he.symm)]

theorem binary_addBinary (hl : w.covers l) (b : BinaryWatch) (m : Literal) :
    (w.addBinary l b).binary m = if m = l then (w.binary m).push b else w.binary m := by
  unfold binary addBinary
  rw [getElem?_modify hl]
  split <;> rfl

theorem mem_binary_addBinary (hl : w.covers l) (b : BinaryWatch) (m : Literal) (b' : BinaryWatch) :
    b' ∈ (w.addBinary l b).binary m ↔ b' ∈ w.binary m ∨ m = l ∧ b' = b := by
  rw [binary_addBinary hl]
  split
  · rename_i hm
    rw [Array.mem_push, and_iff_right hm]
  · rename_i hm
    exact (or_iff_left fun h => hm h.1).symm

theorem long_addBinary (hl : w.covers l) (b : BinaryWatch) (m : Literal) : (w.addBinary l b).long m = w.long m := by
  unfold long addBinary
  rw [getElem?_modify hl]
  split <;> rfl

theorem binary_addLong (hl : w.covers l) (key : ClauseKey) (m : Literal) :
    (w.addLong l key).binary m = w.binary m := by
  unfold binary addLong
  rw [getElem?_modify hl]
  split <;> rfl

theorem long_addLong (hl : w.covers l) (key : ClauseKey) (m : Literal) :
    (w.addLong l key).long m = if m = l then (w.long m).push key else w.long m := by
  unfold long addLong
  rw [getElem?_modify hl]
  split <;> rfl

theorem binary_restoreLong (hl : w.covers l) (front : Array ClauseKey) (m : Literal) :
    (w.restoreLong l front).binary m = w.binary m := by
  unfold binary restoreLong
  rw [getElem?_modify hl]
  split <;> rfl

theorem long_restoreLong (hl : w.covers l) (front : Array ClauseKey) (m : Literal) :
    (w.restoreLong l front).long m = if m = l then front ++ w.long m else w.long m := by
  unfold long restoreLong
  rw [getElem?_modify hl]
  split <;> rfl

/-- How often a key is on a list after it was put on one. -/
theorem count_addLong (hl : w.covers l) (key : ClauseKey) (m : Literal) (k : ClauseKey) :
    ((w.addLong l key).long m).count k = (w.long m).count k + if k = key ∧ m = l then 1 else 0 := by
  rw [long_addLong hl]
  split
  · rename_i hm
    rw [Array.count_push]
    simp only [beq_iff_eq, hm, and_true, eq_comm (a := key)]
  · rename_i hm
    rw [if_neg fun h => hm h.2, Nat.add_zero]

theorem count_restoreLong (hl : w.covers l) (front : Array ClauseKey) (m : Literal) (k : ClauseKey) :
    ((w.restoreLong l front).long m).count k = (if m = l then front.count k else 0) + (w.long m).count k := by
  rw [long_restoreLong hl]
  split
  · exact Array.count_append
  · exact (Nat.zero_add _).symm

/-- How often a key is on a list that was put back without one of its keys. -/
theorem count_restoreLong_drop (hl : w.covers l) {front front' : Array ClauseKey} {key : ClauseKey}
    (hp : (key :: front'.toList).Perm front.toList) (m : Literal) (k : ClauseKey) :
    ((w.restoreLong l front').long m).count k + (if k = key ∧ m = l then 1 else 0) =
      ((w.restoreLong l front).long m).count k := by
  have hcount : front.count k = front'.count k + if k = key then 1 else 0 := by
    rw [← Array.count_toList, ← hp.count_eq, List.count_cons, Array.count_toList]
    simp only [beq_iff_eq, eq_comm (a := key)]
  rw [count_restoreLong hl, count_restoreLong hl, hcount]
  by_cases hm : m = l
  · simp only [hm, if_true, and_true]
    omega
  · simp only [hm, if_false, and_false, Nat.add_zero]

theorem mem_long_restoreLong (hl : w.covers l) {front front' : Array ClauseKey} {key : ClauseKey}
    (hp : (key :: front'.toList).Perm front.toList) : key ∈ (w.restoreLong l front).long l := by
  rw [long_restoreLong hl, if_pos rfl]
  exact Array.mem_append_left _ (Array.mem_toList_iff.mp (hp.subset List.mem_cons_self))

theorem binary_setLong (hl : w.covers l) (keys : Array ClauseKey) (m : Literal) :
    (w.setLong l keys).binary m = w.binary m := by
  unfold binary setLong
  rw [getElem?_modify hl]
  split <;> rfl

/-- A list that is taken away and put back is as it was. -/
theorem restoreLong_setLong (w : Watches) (l : Literal) : (w.setLong l #[]).restoreLong l (w.long l) = w := by
  obtain ⟨lists⟩ := w
  simp only [restoreLong, setLong, long, Watches.mk.injEq]
  ext i hi hi'
  · simp
  · simp only [Array.getElem_modify]
    split
    · rename_i h
      subst h
      simp [Array.getElem?_eq_getElem hi']
    · rfl

theorem ensure_lists (w : Watches) (x : Nat) (i : Nat) : (w.ensure x).lists[i]?.getD {} = w.lists[i]?.getD {} := by
  unfold ensure
  grind

theorem size_ensure (w : Watches) (h : w.lists.size ≤ 2 * (x + 1)) : (w.ensure x).lists.size = 2 * (x + 1) := by
  unfold ensure
  rw [Array.size_append, Array.size_replicate]
  omega

theorem covers_addLong (key : ClauseKey) (h : w.covers m) : (w.addLong l key).covers m := by
  rw [covers_iff, size_addLong]
  exact covers_iff.mp h

theorem covers_addBinary {b : BinaryWatch} (h : w.covers m) : (w.addBinary l b).covers m := by
  rw [covers_iff, size_addBinary]
  exact covers_iff.mp h

/-- The lists with the watches of a new clause. -/
def watched (w : Watches) (c : Clause) (key : ClauseKey) : Watches :=
  match c with
  | [k, l] => (w.addBinary k ⟨l, key⟩).addBinary l ⟨k, key⟩
  | k :: l :: _ :: _ => (w.addLong k key).addLong l key
  | _ => w

theorem size_watched (w : Watches) (c : Clause) (key : ClauseKey) : (w.watched c key).lists.size = w.lists.size := by
  rcases c with _ | ⟨k, _ | ⟨l, _ | ⟨m, c⟩⟩⟩ <;> simp [watched]

section Watched

variable {c : Clause} (hw : ∀ l ∈ c, w.covers l) (key : ClauseKey)
include hw

/-- The watches of a new clause of two literals are on the lists of both. -/
theorem mem_binary_watched (l : Literal) (b : BinaryWatch) : b ∈ (w.watched c key).binary l ↔
    b ∈ w.binary l ∨ b.key = key ∧ c.toArray.size = 2 ∧ Pair c.toArray l b.other := by
  rcases c with _ | ⟨k, _ | ⟨m, _ | ⟨o, c⟩⟩⟩
  · simp [watched]
  · simp [watched]
  · have hk := hw k List.mem_cons_self
    have hm : (w.addBinary k ⟨m, key⟩).covers m := covers_addBinary (hw m (by simp))
    obtain ⟨other, bkey⟩ := b
    have hpair : Pair [k, m].toArray l other ↔ l = k ∧ other = m ∨ l = m ∧ other = k := by
      simp [Pair, eq_comm, and_comm]
    rw [watched, mem_binary_addBinary hm, mem_binary_addBinary hk, hpair]
    simp only [BinaryWatch.mk.injEq, List.size_toArray, List.length_cons, List.length_nil, true_and]
    constructor
    · rintro ((hb | ⟨h1, h2, h3⟩) | ⟨h1, h2, h3⟩)
      · exact Or.inl hb
      · exact Or.inr ⟨h3, Or.inl ⟨h1, h2⟩⟩
      · exact Or.inr ⟨h3, Or.inr ⟨h1, h2⟩⟩
    · rintro (hb | ⟨h3, ⟨h1, h2⟩ | ⟨h1, h2⟩⟩)
      · exact Or.inl (Or.inl hb)
      · exact Or.inl (Or.inr ⟨h1, h2, h3⟩)
      · exact Or.inr ⟨h1, h2, h3⟩
  · have hk := hw k List.mem_cons_self
    have hm : (w.addLong k key).covers m := covers_addLong key (hw m (by simp))
    rw [watched, binary_addLong hm, binary_addLong hk]
    simp

/-- The key of a longer new clause is put once on the lists of its first two literals, which must differ. -/
theorem count_watched (hne : ∀ k l rest, c = k :: l :: rest → k ≠ l) (l : Literal) (k : ClauseKey) :
    ((w.watched c key).long l).count k =
      (w.long l).count k + if k = key ∧ 3 ≤ c.toArray.size ∧ IsWatch c.toArray l then 1 else 0 := by
  rcases c with _ | ⟨l₁, _ | ⟨l₂, _ | ⟨o, c⟩⟩⟩
  · simp [watched]
  · simp [watched]
  · have h1 := hw l₁ List.mem_cons_self
    have h2 : (w.addBinary l₁ ⟨l₂, key⟩).covers l₂ := covers_addBinary (hw l₂ (by simp))
    rw [watched, long_addBinary h2, long_addBinary h1]
    simp
  · have h1 := hw l₁ List.mem_cons_self
    have h2 : (w.addLong l₁ key).covers l₂ := covers_addLong key (hw l₂ (by simp))
    have h12 : l₁ ≠ l₂ := hne l₁ l₂ _ rfl
    have hiff : 3 ≤ (l₁ :: l₂ :: o :: c).toArray.size ∧ IsWatch (l₁ :: l₂ :: o :: c).toArray l ↔ l = l₁ ∨ l = l₂ := by
      simp [IsWatch, eq_comm]
    rw [watched, count_addLong h2, count_addLong h1]
    simp only [hiff]
    by_cases hk : k = key
    · by_cases hl : l = l₁
      · have hl' : l ≠ l₂ := hl ▸ h12
        simp [hk, hl, h12]
      · simp [hk, hl]
    · simp [hk]

/-- No watch of a clause of two literals is put twice on a list, if its key is new and its literals differ. -/
theorem nodup_watched (hne : ∀ k l rest, c = k :: l :: rest → k ≠ l) (h : ∀ l, (w.binary l).toList.Nodup)
    (hn : 2 ≤ c.toArray.size → ∀ l, ∀ b ∈ w.binary l, b.key ≠ key) (l : Literal) :
    ((w.watched c key).binary l).toList.Nodup := by
  rcases c with _ | ⟨l₁, _ | ⟨l₂, _ | ⟨o, c⟩⟩⟩
  · exact h l
  · exact h l
  · have h1 := hw l₁ List.mem_cons_self
    have h2 : (w.addBinary l₁ ⟨l₂, key⟩).covers l₂ := covers_addBinary (hw l₂ (by simp))
    have h12 : l₁ ≠ l₂ := hne l₁ l₂ _ rfl
    have hpush : ∀ m o, ((w.binary m).push ⟨o, key⟩).toList.Nodup := by
      intro m o
      rw [Array.toList_push, List.nodup_append]
      refine ⟨h m, List.nodup_singleton _, fun b hb b' hb' heq => ?_⟩
      rw [List.mem_singleton.mp hb'] at heq
      exact hn (Nat.le_refl 2) m b (Array.mem_toList_iff.mp hb) (congrArg BinaryWatch.key heq)
    rw [watched, binary_addBinary h2, binary_addBinary h1]
    split
    · rename_i hl
      rw [hl, if_neg h12.symm]
      exact hpush _ _
    · split
      · rename_i hl
        rw [hl]
        exact hpush _ _
      · exact h l
  · have h1 := hw l₁ List.mem_cons_self
    have h2 : (w.addLong l₁ key).covers l₂ := covers_addLong key (hw l₂ (by simp))
    rw [watched, binary_addLong h2, binary_addLong h1]
    exact h l

end Watched

end Watches

/-- The watch lists are those of the stored clauses, for so many atoms. -/
structure Watched (w : Watches) (s : ClauseStore) (n : Nat) : Prop where
  size : w.lists.size = 2 * n
  binary : ∀ {l : Literal} {b : BinaryWatch}, b ∈ w.binary l ↔
    ∃ c, s.find b.key = some c ∧ c.size = 2 ∧ Pair c l b.other
  long : ∀ {l : Literal} {key : ClauseKey} {c : Array Literal}, s.find key = some c →
    (w.long l).count key = if 3 ≤ c.size ∧ IsWatch c l then 1 else 0
  issued : ∀ {l : Literal} {key : ClauseKey}, key ∈ w.long l → s.Issued key ∧ key.isUnit = false
  nodup : ∀ l : Literal, (w.binary l).toList.Nodup

namespace Watched

variable {w : Watches} {s s' : ClauseStore} {n : Nat} {l : Literal} {key : ClauseKey} {c : Array Literal}

theorem covers (h : Watched w s n) (hl : l.atom < n) : w.covers l := by
  rw [Watches.covers_iff, h.size]
  unfold Literal.index
  cases l.polarity <;> simp <;> omega

/-- A clause on a list of longer clauses watches the literal of the list. -/
theorem isWatch (h : Watched w s n) (hk : key ∈ w.long l) (hf : s.find key = some c) : 3 ≤ c.size ∧ IsWatch c l := by
  by_contra hn
  have := h.long (l := l) hf
  rw [if_neg hn] at this
  exact Array.count_eq_zero.mp this hk

theorem mem_long (h : Watched w s n) (hf : s.find key = some c) (hc : 3 ≤ c.size) (hw : IsWatch c l) :
    key ∈ w.long l := by
  have := h.long (l := l) hf
  rw [if_pos ⟨hc, hw⟩] at this
  exact Array.count_pos_iff.mp (by omega)

/-- Nothing is watched where nothing is stored. -/
theorem of_empty (hs : ∀ k, s.find k = none) : Watched {} s 0 where
  size := rfl
  binary := by simp [Watches.binary, hs]
  long hf := by simp [hs] at hf
  issued hm := by simp [Watches.long] at hm
  nodup l := by simp [Watches.binary]

/-- What is watched does not change with the activities. -/
theorem of_sameClauses (h : Watched w s n) (hk : s.Keyed) (hs : s.SameClauses s') : Watched w s' n where
  size := h.size
  binary := by rw [hs.find]; exact h.binary
  long hf := h.long (by rwa [hs.find] at hf)
  issued hm := ⟨(hs.later hk).issued (h.issued hm).1, (h.issued hm).2⟩
  nodup := h.nodup

/-! ## New clauses -/

section Insert

variable {d : Clause} {source : ClauseSource}

/-- A key that was not issued is on no list. -/
theorem count_eq_zero (h : Watched w s n) (hn : key.isUnit = false → ¬s.Issued key) (l : Literal) :
    (w.long l).count key = 0 :=
  Array.count_eq_zero.mpr fun hm => hn (h.issued hm).2 (h.issued hm).1

/-- A new clause is watched by its first two literals, which must differ. -/
theorem insert (h : Watched w s n) (hs : s.Keyed) (hi : s.insert d source = (.ok key, s'))
    (hd : ∀ l ∈ d, l.atom < n) (hne : ∀ k l rest, d = k :: l :: rest → k ≠ l) :
    Watched (w.watched d key) s' n := by
  obtain ⟨hl, hfit, -, hnew, hiss, hf⟩ := hs.insert_ok hi
  have hw : ∀ l ∈ d, w.covers l := fun l hl => h.covers (hd l hl)
  have hcount := Watches.count_watched hw key hne
  -- a key that was in use before is that of a clause of one literal
  have hold : ∀ c, s.find key = some c → c.size = 1 := fun c hc => by
    by_cases hu : key.isUnit = true
    · exact ClauseStore.size_of_isUnit hu hc
    · exact absurd (hs.issued hc) (hnew (by simpa using hu))
  -- no watch of a clause of two literals has the new key before
  have hfresh : key.isUnit = false → ∀ l, ∀ b ∈ w.binary l, b.key ≠ key := by
    intro hu l b hb heq
    obtain ⟨c, hc, -⟩ := h.binary.mp hb
    exact hnew hu (hs.issued (heq ▸ hc))
  refine ⟨(Watches.size_watched w d key).trans h.size, fun {l b} => ?_, fun {l k c} hk => ?_, fun {l k} hm => ?_,
    Watches.nodup_watched hw key hne h.nodup fun h2 => hfresh (ClauseStore.isUnit_of_fits hfit h2)⟩
  · rw [Watches.mem_binary_watched hw, h.binary, hf]
    split
    · rename_i hb
      simp only [hb, true_and, Option.some.injEq, exists_eq_left']
      refine or_iff_right ?_
      rintro ⟨c, hc, h2, -⟩
      have := hold c hc
      omega
    · rename_i hb
      exact or_iff_left fun h => hb h.1
  · rw [hcount]
    rw [hf] at hk
    split at hk
    · rename_i hkey
      cases hk
      rw [hkey, h.count_eq_zero hnew, Nat.zero_add]
      simp only [true_and]
    · rename_i hkey
      rw [if_neg fun h => hkey h.1, Nat.add_zero, h.long hk]
  · have hpos := Array.count_pos_iff.mpr hm
    rw [hcount] at hpos
    split at hpos
    · rename_i hkey
      exact ⟨hkey.1 ▸ hiss, hkey.1 ▸ ClauseStore.isUnit_of_fits hfit (by omega)⟩
    · obtain ⟨hk, hu⟩ := h.issued (Array.count_pos_iff.mp hpos)
      exact ⟨hl.issued hk, hu⟩

end Insert

/-! ## Other changes -/

/-- Without some of the longer clauses, the watch lists are those of the other clauses. -/
theorem reduce (h : Watched w s n) (hl : s.Later s')
    (hf : ∀ k, s'.find k = s.find k ∨ s'.find k = none ∧ ∀ c, s.find k = some c → 3 ≤ c.size) : Watched w s' n where
  size := h.size
  binary {l b} := by
    rw [h.binary]
    rcases hf b.key with he | ⟨he, hc⟩
    · rw [he]
    · rw [he]
      refine ⟨fun ⟨c, hb, h2, _⟩ => ?_, by simp⟩
      have := hc c hb
      omega
  long {l k c} hk := by
    rcases hf k with he | ⟨he, -⟩
    · exact h.long (he ▸ hk)
    · rw [he] at hk
      cases hk
  issued hm := ⟨hl.issued (h.issued hm).1, (h.issued hm).2⟩
  nodup := h.nodup

/-- A new atom comes with two empty lists. -/
theorem ensure (h : Watched w s n) : Watched (w.ensure n) s (n + 1) where
  size := Watches.size_ensure w (by rw [h.size]; omega)
  binary := by
    intro l b
    rw [Watches.binary, Watches.ensure_lists]
    exact h.binary
  long := by
    intro l k c
    rw [Watches.long, Watches.ensure_lists]
    exact h.long
  issued := by
    intro l k
    rw [Watches.long, Watches.ensure_lists]
    exact h.issued
  nodup l := by
    rw [Watches.binary, Watches.ensure_lists]
    exact h.nodup l

section Replace

variable {d : Array Literal} (hl : s.Later s') (hc : s.find key = some c)
  (hf : ∀ k, s'.find k = if k = key then some d else s.find k)
include hl hc hf

/-- A clause may have its first two literals swapped. -/
theorem face (h : Watched w s n) (hd : Faced c d) : Watched w s' n := by
  have hsize : d.size = c.size := hd.perm.size_eq
  refine ⟨h.size, fun {l b} => ?_, fun {l k e} hk => ?_,
    fun hm => ⟨hl.issued (h.issued hm).1, (h.issued hm).2⟩, h.nodup⟩
  · rw [h.binary, hf]
    split
    · rename_i hb
      simp only [hb, hc, Option.some.injEq, exists_eq_left', hsize, hd.pair_iff]
    · rfl
  · rw [hf] at hk
    split at hk
    · rename_i hb
      cases hk
      subst hb
      rw [h.long hc, hsize]
      simp only [hd.isWatch_iff]
    · exact h.long hk

variable {f target : Literal} {front front' : Array ClauseKey}

/-- A longer clause is taken off the list of a literal that it stops to watch, and put on the list of the one that it
watches instead. -/
theorem move (h : Watched (w.restoreLong f front) s n) (hwf : w.covers f) (hwt : w.covers target) (h3 : 3 ≤ c.size)
    (hsize : d.size = c.size) (hft : target ≠ f) (htc : ¬IsWatch c target)
    (hwatch : ∀ x, IsWatch d x ↔ x = target ∨ IsWatch c x ∧ x ≠ f)
    (hp : (key :: front'.toList).Perm front.toList) :
    Watched ((w.addLong target key).restoreLong f front') s' n := by
  have hwf' : (w.addLong target key).covers f := Watches.covers_addLong _ hwf
  have hcount : ∀ l k, (((w.addLong target key).restoreLong f front').long l).count k +
      (if k = key ∧ l = f then 1 else 0) =
        ((w.restoreLong f front).long l).count k + if k = key ∧ l = target then 1 else 0 := fun l k => by
    have := Watches.count_restoreLong_drop hwf' hp l k
    rw [this, Watches.count_restoreLong hwf', Watches.count_restoreLong hwf, Watches.count_addLong hwt, Nat.add_assoc]
  refine ⟨by simpa [Watches.restoreLong] using h.size, fun {l b} => ?_, fun {l k e} hk => ?_, fun {l k} hm => ?_,
    fun l => ?_⟩
  · have hb := h.binary (l := l) (b := b)
    rw [Watches.binary_restoreLong hwf] at hb
    rw [Watches.binary_restoreLong hwf', Watches.binary_addLong hwt, hb, hf]
    split
    · rename_i hb
      simp only [hb, hc, Option.some.injEq, exists_eq_left']
      constructor <;> rintro ⟨h2, -⟩ <;> omega
    · rfl
  · have hlk := hcount l k
    rw [hf] at hk
    split at hk
    · rename_i hkk
      cases hk
      subst hkk
      rw [h.long hc] at hlk
      simp only [h3, true_and] at hlk
      simp only [hsize, hwatch, h3, true_and]
      by_cases hlf : l = f
      · subst hlf
        have hwl : IsWatch c l := (h.isWatch (Watches.mem_long_restoreLong hwf hp) hc).2
        simp only [hwl, Ne.symm hft, if_true, if_false, ne_eq, not_true, and_false, or_false] at hlk ⊢
        omega
      · by_cases hlt : l = target
        · subst hlt
          simp only [htc, hlf, if_true, if_false, true_or] at hlk ⊢
          omega
        · simpa only [hlf, hlt, if_false, Nat.add_zero, false_or, ne_eq, not_false_eq_true, and_true] using hlk
    · rename_i hkk
      simp only [hkk, false_and, if_false, Nat.add_zero] at hlk
      rw [hlk, h.long hk]
  · have hpos := Array.count_pos_iff.mpr hm
    have hlk := hcount l k
    have hold : s.Issued k ∧ k.isUnit = false := by
      by_cases hk : k = key ∧ l = target
      · exact hk.1 ▸ h.issued (Watches.mem_long_restoreLong hwf hp)
      · rw [if_neg hk] at hlk
        exact h.issued (l := l) (Array.count_pos_iff.mp (by omega))
    exact ⟨hl.issued hold.1, hold.2⟩
  · rw [Watches.binary_restoreLong hwf', Watches.binary_addLong hwt, ← Watches.binary_restoreLong hwf front]
    exact h.nodup l

end Replace

/-- The key of a removed clause may be taken off a list. -/
theorem drop {f : Literal} {front front' : Array ClauseKey} (h : Watched (w.restoreLong f front) s n)
    (hwf : w.covers f) (hp : (key :: front'.toList).Perm front.toList) (hn : s.find key = none) :
    Watched (w.restoreLong f front') s n := by
  have hcount := Watches.count_restoreLong_drop hwf hp
  refine ⟨by simpa [Watches.restoreLong] using h.size, fun {l b} => ?_, fun {l k c} hk => ?_, fun {l k} hm => ?_,
    fun l => ?_⟩
  · rw [Watches.binary_restoreLong hwf, ← Watches.binary_restoreLong hwf front]
    exact h.binary
  · have hne : k ≠ key := fun he => by
      rw [he, hn] at hk
      cases hk
    rw [← h.long hk, ← hcount, if_neg fun h => hne h.1, Nat.add_zero]
  · have hpos := Array.count_pos_iff.mpr hm
    have hlk := hcount l k
    exact h.issued (l := l) (Array.count_pos_iff.mp (by omega))
  · rw [Watches.binary_restoreLong hwf, ← Watches.binary_restoreLong hwf front]
    exact h.nodup l

end Watched

end ClauseLearning
