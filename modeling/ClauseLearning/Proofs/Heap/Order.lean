import Mathlib.Order.Lattice
import ClauseLearning.Proofs.Heap.Sifting

/-!
# Order on an index heap

On a heap in order no index has a greater value than its parent (`Ordered`), so that a greatest value stands on top
(`Ordered.le_top`). A change of one value, or of what stands at one position, leaves a heap that is in order apart from
the pairs of this position (`Nearly`). Of these, a sift down sets right the pairs with the children and a sift up the
pair with the parent, and neither spoils what the other sets right.

The values are compared by their ranks in a linear order, as a comparison of values need not be one by itself: those of
floating-point numbers is only linear apart from what is not a number.
-/

namespace ClauseLearning

namespace IndexHeap

/-! ## Trees of keys -/

section Trees

variable {β : Type} [LinearOrder β] {k k' : Nat → β} {n lo p q : Nat}

/-- No position below `n` has a greater key than its parent. -/
def Ordered (k : Nat → β) (n : Nat) : Prop := ∀ q, 0 < q → q < n → k q ≤ k ((q - 1) / 2)

/-- The children of a position have no greater keys. -/
def OverChildren (k : Nat → β) (n p : Nat) : Prop := ∀ q, 0 < q → q < n → (q - 1) / 2 = p → k q ≤ k p

/-- The parent of a position, if there is one, has no smaller key. -/
def UnderParent (k : Nat → β) (p : Nat) : Prop := 0 < p → k p ≤ k ((p - 1) / 2)

/-- Below the parents from `lo` on, all pairs are in order that do not touch a position, and so are the children of the
position and its parent. -/
structure Nearly (k : Nat → β) (n lo p : Nat) : Prop where
  apart : ∀ q, 0 < q → q < n → lo ≤ (q - 1) / 2 → q ≠ p → (q - 1) / 2 ≠ p → k q ≤ k ((q - 1) / 2)
  across : ∀ q, 0 < q → q < n → (q - 1) / 2 = p → 0 < p → lo ≤ (p - 1) / 2 → k q ≤ k ((p - 1) / 2)

/-- The greatest key is on top. -/
theorem Ordered.le_top (h : Ordered k n) (hq : q < n) : k q ≤ k 0 := by
  induction q using Nat.strongRecOn with
  | ind q ih =>
    rcases Nat.eq_zero_or_pos q with rfl | hpos
    · exact le_refl _
    · exact (h q hpos hq).trans (ih ((q - 1) / 2) (by omega) (by omega))

theorem Ordered.nearly (h : Ordered k n) (lo p : Nat) : Nearly k n lo p :=
  ⟨fun q h0 hq _ _ _ => h q h0 hq, fun q h0 hq hp h0' _ => (h q h0 hq).trans (hp ▸ h p h0' (by omega))⟩

/-- A change of the key at one position leaves the others in order. -/
theorem Ordered.nearly_of_eq (h : Ordered k n) (hk : ∀ q, q ≠ p → q < n → k' q = k q) : Nearly k' n 0 p := by
  refine ⟨fun q h0 hq _ hqp hpp => ?_, fun q h0 hq hpp h0' _ => ?_⟩
  · rw [hk q hqp hq, hk _ hpp (by omega)]
    exact h q h0 hq
  · rw [hk q (by omega) hq, hk _ (by omega) (by omega)]
    exact (h.nearly 0 p).across q h0 hq hpp h0' (Nat.zero_le _)

theorem ordered_iff : Ordered k n ↔ Nearly k n 0 p ∧ OverChildren k n p ∧ (p < n → UnderParent k p) := by
  constructor
  · intro h
    exact ⟨h.nearly 0 p, fun q h0 hq hp => hp ▸ h q h0 hq, fun hp h0 => h p h0 hp⟩
  · rintro ⟨hn, hc, hp⟩ q h0 hq
    by_cases hqp : q = p
    · subst hqp
      exact hp hq h0
    · by_cases hpp : (q - 1) / 2 = p
      · rw [hpp]
        exact hc q h0 hq hpp
      · exact hn.apart q h0 hq (Nat.zero_le _) hqp hpp

/-- A step down: a position swaps its key with that of its greatest child. -/
theorem Nearly.down (h : Nearly k n lo p) (hc : (q - 1) / 2 = p) (h0 : 0 < q) (hlo : lo ≤ p)
    (hlt : k p < k q) (hmax : ∀ r, 0 < r → r < n → (r - 1) / 2 = p → k r ≤ k q)
    (hk : ∀ r, k' r = if r = q then k p else if r = p then k q else k r) (hq : q < n) :
    Nearly k' n lo q ∧ UnderParent k' q := by
  have hqp : q ≠ p := by omega
  have hkq : k' q = k p := by rw [hk, if_pos rfl]
  have hkp : k' p = k q := by rw [hk, if_neg hqp.symm, if_pos rfl]
  have hother : ∀ r, r ≠ q → r ≠ p → k' r = k r := fun r h1 h2 => by rw [hk, if_neg h1, if_neg h2]
  refine ⟨⟨fun r hr0 hr hrlo hrq hrq' => ?_, fun r hr0 hr hrq _ _ => ?_⟩, fun _ => ?_⟩
  · by_cases hrp : r = p
    · subst hrp
      rw [hkp, hother _ (by omega) (by omega)]
      exact h.across q h0 hq hc hr0 hrlo
    · by_cases hrp' : (r - 1) / 2 = p
      · rw [hrp', hkp, hother r hrq hrp]
        exact hmax r hr0 hr hrp'
      · rw [hother r hrq hrp, hother _ hrq' hrp']
        exact h.apart r hr0 hr hrlo hrp hrp'
  · rw [hc, hkp, hother r (by omega) (by omega), ← hrq]
    exact h.apart r hr0 hr (by omega) (by omega) (by omega)
  · rw [hc, hkq, hkp]
    exact hlt.le

/-- A step up: a position swaps its key with that of its parent. -/
theorem Nearly.up (h : Nearly k n 0 p) (h0 : 0 < p) (hp : p < n) (hlt : k ((p - 1) / 2) < k p)
    (hk : ∀ r, k' r = if r = (p - 1) / 2 then k p else if r = p then k ((p - 1) / 2) else k r) :
    Nearly k' n 0 ((p - 1) / 2) ∧ OverChildren k' n ((p - 1) / 2) := by
  have hne : p ≠ (p - 1) / 2 := by omega
  have hkq : k' ((p - 1) / 2) = k p := by rw [hk, if_pos rfl]
  have hkp : k' p = k ((p - 1) / 2) := by rw [hk, if_neg hne, if_pos rfl]
  have hother : ∀ r, r ≠ (p - 1) / 2 → r ≠ p → k' r = k r := fun r h1 h2 => by rw [hk, if_neg h1, if_neg h2]
  -- the sibling of the position
  have hsibling : ∀ r, 0 < r → r < n → (r - 1) / 2 = (p - 1) / 2 → r ≠ p → k r ≤ k ((p - 1) / 2) := by
    intro r hr0 hr hrp hne'
    have := h.apart r hr0 hr (Nat.zero_le _) hne' (by omega)
    rwa [hrp] at this
  refine ⟨⟨fun r hr0 hr _ hrq hrq' => ?_, fun r hr0 hr hrq hq0 _ => ?_⟩, fun r hr0 hr hrq => ?_⟩
  · by_cases hrp' : (r - 1) / 2 = p
    · rw [hrp', hkp, hother r hrq (by omega)]
      exact h.across r hr0 hr hrp' h0 (Nat.zero_le _)
    · by_cases hrp : r = p
      · exact absurd (by rw [hrp]) hrq'
      · rw [hother r hrq hrp, hother _ hrq' hrp']
        exact h.apart r hr0 hr (Nat.zero_le _) hrp hrp'
  · have hup : k ((p - 1) / 2) ≤ k (((p - 1) / 2 - 1) / 2) :=
      h.apart _ hq0 (by omega) (Nat.zero_le _) (by omega) (by omega)
    rw [hother (((p - 1) / 2 - 1) / 2) (by omega) (by omega)]
    by_cases hrp : r = p
    · rw [hrp, hkp]
      exact hup
    · rw [hother r (by omega) hrp]
      exact (hsibling r hr0 hr hrq hrp).trans hup
  · rw [hkq]
    by_cases hrp : r = p
    · rw [hrp, hkp]
      exact hlt.le
    · rw [hother r (by omega) hrp]
      exact (hsibling r hr0 hr hrq hrp).trans hlt.le

end Trees

/-! ## Ranks of values -/

/-- A comparison of the values of a domain by their ranks in a linear order. -/
structure Ranking (α β : Type) [LT α] [LinearOrder β] where
  domain : α → Prop
  rank : α → β
  lt_iff : ∀ {a b : α}, domain a → domain b → (a < b ↔ rank a < rank b)

/-- A linear order is a comparison by rank. -/
def Ranking.ofLinearOrder (α : Type) [LinearOrder α] : Ranking α α := ⟨fun _ => True, id, fun _ _ => Iff.rfl⟩

variable {α β : Type} [Inhabited α] [LT α] [LinearOrder β] (r : Ranking α β) {h h' : IndexHeap α} {i lo p q : Nat}

/-- All values of the heap can be compared by rank. -/
def Ranking.Covers (h : IndexHeap α) : Prop := ∀ v ∈ h.values, r.domain v

/-- The rank of the value of the index at a position. -/
def Ranking.ranks (h : IndexHeap α) (p : Nat) : β := r.rank (h.key p)

/-- No active index has a greater value than its parent. -/
abbrev Ranking.InOrder (h : IndexHeap α) : Prop := Ordered (r.ranks h) h.limit

variable {r}

omit [Inhabited α] in
theorem Ranking.Covers.of_values_eq (hc : r.Covers h) (hv : h'.values = h.values) : r.Covers h' := by
  unfold Covers
  rw [hv]
  exact hc

omit [LT α] in
theorem Linked.key_mem (hl : h.Linked) (hp : p < h.limit) : h.key p ∈ h.values := by
  obtain ⟨i, hi, hlt, -⟩ := hl.index_below hp
  rw [key, index, hi]
  show h.valueAt i ∈ h.values
  rw [valueAt, Array.getElem?_eq_getElem hlt]
  exact Array.getElem_mem hlt

theorem Linked.key_lt_iff (hl : h.Linked) (hc : r.Covers h) (hp : p < h.limit) (hq : q < h.limit) :
    h.key p < h.key q ↔ r.ranks h p < r.ranks h q := r.lt_iff (hc _ (hl.key_mem hp)) (hc _ (hl.key_mem hq))

theorem Linked.ranks_swapped (hl : h.Linked) (hp : p < h.limit) (hq : q < h.limit) (n : Nat) :
    r.ranks (h.swapped p q) n = if n = q then r.ranks h p else if n = p then r.ranks h q else r.ranks h n := by
  rw [Ranking.ranks, hl.key_swapped hp hq]
  split
  · rfl
  · split <;> rfl

/-! ## Sifts -/

variable [DecidableLT α]

/-- The greater of two positions, as a sift down finds it. -/
def better (h : IndexHeap α) (p q : Nat) : Nat := if q < h.limit ∧ h.key p < h.key q then q else p

omit [LinearOrder β] in
theorem greatest_eq (h : IndexHeap α) (p : Nat) :
    h.greatest p = h.better (h.better p (2 * p + 1)) (2 * p + 2) := rfl

theorem Linked.better_spec (hl : h.Linked) (hc : r.Covers h) (hp : p < h.limit) (q : Nat) :
    h.better p q < h.limit ∧ r.ranks h p ≤ r.ranks h (h.better p q) ∧
      (q < h.limit → r.ranks h q ≤ r.ranks h (h.better p q)) ∧
      (h.better p q ≠ p → r.ranks h p < r.ranks h (h.better p q)) := by
  unfold better
  by_cases hq : q < h.limit
  · by_cases hlt : h.key p < h.key q
    · have hlt' := (hl.key_lt_iff hc hp hq).mp hlt
      rw [if_pos ⟨hq, hlt⟩]
      exact ⟨hq, hlt'.le, fun _ => le_refl _, fun _ => hlt'⟩
    · rw [if_neg fun h => hlt h.2]
      exact ⟨hp, le_refl _, fun _ => not_lt.mp fun h => hlt ((hl.key_lt_iff hc hp hq).mpr h), fun h => absurd rfl h⟩
  · rw [if_neg fun h => hq h.1]
    exact ⟨hp, le_refl _, fun h => absurd h hq, fun h => absurd rfl h⟩

/-- What a sift down compares with is a greatest of a position and its children. -/
theorem Linked.greatest_spec (hl : h.Linked) (hc : r.Covers h) (hp : p < h.limit) :
    (∀ q, 0 < q → q < h.limit → (q - 1) / 2 = p → r.ranks h q ≤ r.ranks h (h.greatest p)) ∧
      (h.greatest p ≠ p → r.ranks h p < r.ranks h (h.greatest p)) := by
  obtain ⟨hb, hpb, hleft, hne⟩ := hl.better_spec hc hp (2 * p + 1)
  obtain ⟨-, hbg, hright, hne'⟩ := hl.better_spec hc hb (2 * p + 2)
  rw [greatest_eq]
  refine ⟨fun q h0 hq hqp => ?_, fun hg => ?_⟩
  · rcases (by omega : q = 2 * p + 1 ∨ q = 2 * p + 2) with rfl | rfl
    · exact (hleft hq).trans hbg
    · exact hright hq
  · by_cases hbp : h.better p (2 * p + 1) = p
    · rw [hbp] at hg hne' ⊢
      exact hne' hg
    · exact (hne hbp).trans_le hbg

/-- After a sift down all pairs are in order but the one of the position and its parent, which stays in order. -/
theorem Linked.nearly_siftDown (hl : h.Linked) (hc : r.Covers h) (hlo : lo ≤ p)
    (hn : Nearly (r.ranks h) h.limit lo p) :
    Returns (siftDown p) h fun _ h' => h.Resorted h' ∧ ∃ q, lo ≤ q ∧ Nearly (r.ranks h') h.limit lo q ∧
      OverChildren (r.ranks h') h.limit q ∧ (UnderParent (r.ranks h) p ∨ q ≠ p → UnderParent (r.ranks h') q) := by
  refine (hl.returns_siftDown (p := p) (fun h' q => r.Covers h' ∧ h'.limit = h.limit ∧ lo ≤ q ∧
    Nearly (r.ranks h') h.limit lo q ∧ (UnderParent (r.ranks h) p ∨ q ≠ p → UnderParent (r.ranks h') q))
    ⟨hc, rfl, hlo, hn, fun hu => hu.elim id fun hne => absurd rfl hne⟩ ?_).imp ?_
  · rintro h' q hl' ⟨hc', hlim, hq, hn', -⟩ hg
    obtain ⟨hlt, hgl, hparent⟩ := (h'.greatest_cases q).resolve_left hg
    have hql := Nat.lt_trans hlt hgl
    obtain ⟨hmax, hless⟩ := hl'.greatest_spec hc' hql
    rw [hlim] at hmax
    obtain ⟨hd, hu⟩ := hn'.down hparent (by omega) hq (hless hg) hmax (hl'.ranks_swapped hql hgl) (by rwa [← hlim])
    exact ⟨hc'.of_values_eq rfl, hlim, by omega, hd, fun _ => hu⟩
  · rintro - h' ⟨hr, q, ⟨hc', hlim, hq, hn', hu⟩, hg⟩
    refine ⟨hr, q, hq, hn', fun c h0 hcl hcq => ?_, hu⟩
    have hql : q < h'.limit := by omega
    have := (hr.linked.greatest_spec hc' hql).1 c h0 (by rwa [hlim]) hcq
    rwa [hg] at this

/-- After a sift up all pairs are in order but those of the position and its children, which stay in order. -/
theorem Linked.nearly_siftUp (hl : h.Linked) (hc : r.Covers h) (hp : p < h.limit)
    (hn : Nearly (r.ranks h) h.limit 0 p) :
    Returns (siftUp p) h fun _ h' => h.Resorted h' ∧ ∃ q, q < h.limit ∧ Nearly (r.ranks h') h.limit 0 q ∧
      UnderParent (r.ranks h') q ∧
      (OverChildren (r.ranks h) h.limit p ∨ q ≠ p → OverChildren (r.ranks h') h.limit q) := by
  refine (hl.returns_siftUp hp (fun h' q => r.Covers h' ∧ h'.limit = h.limit ∧
    Nearly (r.ranks h') h.limit 0 q ∧
    (OverChildren (r.ranks h) h.limit p ∨ q ≠ p → OverChildren (r.ranks h') h.limit q))
    ⟨hc, rfl, hn, fun hu => hu.elim id fun hne => absurd rfl hne⟩ ?_).imp ?_
  · rintro h' q hl' ⟨hc', hlim, hn', -⟩ hq hlt
    have hparent : q / 2 < h'.limit := by omega
    have hlt' := (hl'.key_lt_iff hc' hparent hq).mp hlt
    obtain ⟨hu, ho⟩ := hn'.up (Nat.succ_pos q) (by rwa [← hlim]) hlt' (hl'.ranks_swapped hq hparent)
    exact ⟨hc'.of_values_eq rfl, hlim, hu, fun _ => ho⟩
  · rintro - h' ⟨hr, q, ⟨hc', hlim, hn', ho⟩, hq, hstop⟩
    refine ⟨hr, q, hq, hn', fun h0 => ?_, ho⟩
    have hparent : (q - 1) / 2 < h'.limit := by omega
    exact not_lt.mp fun hlt => hstop h0 ((hr.linked.key_lt_iff hc' hparent (by omega)).mpr hlt)

section Repairs

variable (hl : h.Linked) (hc : r.Covers h) (hp : p < h.limit) (hn : Nearly (r.ranks h) h.limit 0 p)
include hl hc hp hn

/-- A sift up puts in order what is in order but for the pair with the parent. -/
theorem Linked.ordered_siftUp (ho : OverChildren (r.ranks h) h.limit p) :
    Returns (siftUp p) h fun _ h' => r.InOrder h' := by
  refine (hl.nearly_siftUp hc hp hn).imp fun _ h' ⟨hr, q, _, hn', hu, ho'⟩ => ?_
  rw [Ranking.InOrder, hr.limit]
  exact ordered_iff.mpr ⟨hn', ho' (Or.inl ho), fun _ => hu⟩

omit hp in
/-- A sift down puts in order what is in order but for the pairs with the children. -/
theorem Linked.ordered_siftDown (hu : UnderParent (r.ranks h) p) :
    Returns (siftDown p) h fun _ h' => r.InOrder h' := by
  refine (hl.nearly_siftDown hc (Nat.zero_le p) hn).imp fun _ h' ⟨hr, q, _, hn', ho, hu'⟩ => ?_
  rw [Ranking.InOrder, hr.limit]
  exact ordered_iff.mpr ⟨hn', ho, fun _ => hu' (Or.inl hu)⟩

/-- A sift down and then one up from the same position put in order what is in order apart from it. -/
theorem Linked.ordered_down_up :
    Returns (siftDown p) h fun _ h' => Returns (siftUp p) h' fun _ h'' => r.InOrder h'' := by
  refine (hl.nearly_siftDown hc (Nat.zero_le p) hn).imp fun _ h' ⟨hr, q, _, hn', ho, hu⟩ => ?_
  have hboth : Nearly (r.ranks h') h'.limit 0 p ∧ OverChildren (r.ranks h') h'.limit p := by
    rw [hr.limit]
    by_cases hqp : q = p
    · exact hqp ▸ ⟨hn', ho⟩
    · have := (ordered_iff (p := p)).mp (ordered_iff.mpr ⟨hn', ho, fun _ => hu (Or.inr hqp)⟩)
      exact ⟨this.1, this.2.1⟩
  exact hr.linked.ordered_siftUp (hc.of_values_eq hr.values) (by rwa [hr.limit]) hboth.1 hboth.2

/-- A sift up and then one down from the same position put in order what is in order apart from it. -/
theorem Linked.ordered_up_down :
    Returns (siftUp p) h fun _ h' => Returns (siftDown p) h' fun _ h'' => r.InOrder h'' := by
  refine (hl.nearly_siftUp hc hp hn).imp fun _ h' ⟨hr, q, _, hn', hu, ho⟩ => ?_
  have hboth : Nearly (r.ranks h') h'.limit 0 p ∧ UnderParent (r.ranks h') p := by
    rw [hr.limit]
    by_cases hqp : q = p
    · exact hqp ▸ ⟨hn', hu⟩
    · have := (ordered_iff (p := p)).mp (ordered_iff.mpr ⟨hn', ho (Or.inr hqp), fun _ => hu⟩)
      exact ⟨this.1, this.2.2 hp⟩
  exact hr.linked.ordered_siftDown (hc.of_values_eq hr.values) hboth.1 hboth.2

end Repairs

/-! ## Operations -/

omit [DecidableLT α] in
/-- What stands below the limit, and with which values, decides the order. -/
theorem Ranking.InOrder.of_eq (ho : r.InOrder h) (hlim : h'.limit = h.limit)
    (hk : ∀ p, p < h.limit → r.ranks h' p = r.ranks h p) : r.InOrder h' := by
  intro q h0 hq
  rw [hlim] at hq
  rw [hk q hq, hk _ (by omega)]
  exact ho q h0 hq

theorem Linked.ordered_activate (hl : h.Linked) (hc : r.Covers h) (ho : r.InOrder h) (hi : i < h.size) :
    Returns (activate i) h fun _ h' => r.InOrder h' := by
  rcases hl.position_of_lt hi with hx | ⟨p, hx⟩
  · rw [hl.returns_activate_of_inactive hx]
    have hh := hl.appended hi hx
    have hk : ∀ q, q ≠ h.limit → q < h.limit + 1 → r.ranks (h.appended i) q = r.ranks h q := fun q hne hq => by
      simp only [Ranking.ranks, key, index, IndexHeap.appended, valueAt]
      rw [Array.getElem?_setIfInBounds_ne hne.symm]
    refine hh.linked.ordered_siftUp (hc.of_values_eq rfl) (Nat.lt_succ_self _) ?_ fun q _ hq hqp => ?_
    · refine ⟨fun q h0 hq _ hne hne' => ?_, fun q _ hq hqp _ _ => ?_⟩
      · have hq' : q < h.limit + 1 := hq
        rw [hk q hne hq', hk _ hne' (by omega)]
        exact ho q h0 (by omega)
      · have hq' : q < h.limit + 1 := hq
        omega
    · have hq' : q < h.limit + 1 := hq
      omega
  · rw [returns_activate_of_active hx]
    obtain ⟨hn, ho', -⟩ := (ordered_iff (p := p)).mp ho
    exact hl.ordered_siftUp hc (hl.position_iff.mp hx).1 hn ho'

/-- Whether or not there is such an index. -/
theorem Linked.ordered_after_activate (hl : h.Linked) (hc : r.Covers h) (ho : r.InOrder h) (i : Nat) :
    r.InOrder (h.after (activate i)) := by
  by_cases hi : i < h.size
  · exact (hl.ordered_activate hc ho hi).holds_after
  · have hx : h.position[i]? = none := Array.getElem?_eq_none (by rw [hl.position_size]; omega)
    rw [activate, positionOf, after_entry_of_none hx]
    exact ho

theorem Linked.ordered_remove (hl : h.Linked) (hc : r.Covers h) (ho : r.InOrder h) (hi : i < h.size) :
    Returns (remove i) h fun _ h' => r.InOrder h' := by
  rcases hl.position_of_lt hi with hx | ⟨p, hx⟩
  · rw [returns_remove_of_inactive hx]
    exact ho
  · rw [hl.returns_remove_of_active hx]
    have hp := (hl.position_iff.mp hx).1
    have hh := hl.cut hx
    -- the last index stands in the gap, the others where they were
    have hk : ∀ q, q ≠ p → q < h.limit - 1 → r.ranks (h.cut i p) q = r.ranks h q := fun q hne hq => by
      have := hl.ranks_swapped (r := r) hp (q := h.limit - 1) (by omega) q
      rw [if_neg (by omega), if_neg hne] at this
      exact this
    have ho' : Ordered (r.ranks h) (h.limit - 1) := fun q h0 hq => ho q h0 (by omega)
    split
    · rename_i hlt
      exact hh.linked.ordered_down_up (hc.of_values_eq rfl) hlt (ho'.nearly_of_eq hk)
    · rename_i hge
      refine fun q h0 hq => ?_
      have hq' : q < h.limit - 1 := hq
      rw [hk q (by omega) hq', hk _ (by omega) (by omega)]
      exact ho' q h0 hq'

theorem Linked.ordered_pop (hl : h.Linked) (hc : r.Covers h) (ho : r.InOrder h) :
    Returns pop h fun _ h' => r.InOrder h' := by
  rw [pop, returns_bind, hl.returns_peek]
  by_cases h0 : h.limit = 0
  · rw [if_pos h0]
    exact ho
  · rw [if_neg h0]
    simp only [returns_bind, returns_discard, returns_pure]
    exact hl.ordered_remove hc ho (hl.lt_size (hl.isActive_index (Nat.pos_of_ne_zero h0)))

omit [DecidableLT α] in
/-- More indices leave the heap in order. -/
theorem Linked.ordered_grown (hl : h.Linked) (ho : r.InOrder h) (i : Nat) (v : α) : r.InOrder (h.grown i v) := by
  refine ho.of_eq rfl fun p hp => ?_
  obtain ⟨j, hj, hlt, -⟩ := hl.index_below hp
  have hheap : (h.grown i v).heap[p]? = some j := by
    simp only [IndexHeap.grown, Array.getElem?_append, hl.lt_heap hp, if_true, hj]
  have hvalue : (h.grown i v).values[j]? = h.values[j]? := by
    have hlt' : j < h.values.size := hlt
    simp only [IndexHeap.grown, Array.getElem?_push, Array.getElem?_append, Array.size_append, Array.size_replicate]
    rw [if_neg (by omega), if_pos hlt']
  simp only [Ranking.ranks, key, index, valueAt, hheap, hj, Option.getD_some, hvalue]

/-- The next index, which becomes active. -/
theorem Linked.ordered_add_activate (hl : h.Linked) (hc : r.Covers h) (ho : r.InOrder h) {v : α} (hv : r.domain v) :
    Returns (do discard (add h.size v); activate h.size) h fun _ h' => r.InOrder h' := by
  have hh := hl.grown h.size v
  have hvalues : (h.grown h.size v).values = h.values.push v := by simp [IndexHeap.grown]
  have hcovers : r.Covers (h.grown h.size v) := by
    intro w hw
    rw [hvalues, Array.mem_push] at hw
    rcases hw with hw | rfl
    · exact hc w hw
    · exact hv
  rw [returns_bind, returns_discard, add, returns_bind, returns_get,
    if_neg (Nat.lt_irrefl _), returns_bind, returns_modify]
  refine hh.linked.ordered_activate hcovers (hl.ordered_grown ho h.size v) ?_
  have hsize : (h.grown h.size v).size = h.size + 1 := (congrArg Array.size hvalues).trans (Array.size_push v)
  rw [hsize]
  exact Nat.lt_succ_self _

omit [DecidableLT α] in
/-- A monotone function of all values leaves the heap in order. -/
theorem Linked.ordered_mapValues (hl : h.Linked) (ho : r.InOrder h) {f : α → α}
    (hf : ∀ a b, r.rank a ≤ r.rank b → r.rank (f a) ≤ r.rank (f b)) :
    r.InOrder { h with values := h.values.map f } := by
  have hk : ∀ p, p < h.limit → ({ h with values := h.values.map f } : IndexHeap α).key p = f (h.key p) := fun p hp => by
    obtain ⟨j, hj, hlt, -⟩ := hl.index_below hp
    have hlt' : j < h.values.size := hlt
    simp [key, index, valueAt, hj, hlt']
  intro q h0 hq
  have hq' : q < h.limit := hq
  rw [Ranking.ranks, Ranking.ranks, hk q hq', hk _ (by omega)]
  exact hf _ _ (ho q h0 hq')

omit [Inhabited α] [DecidableLT α] in
theorem Ranking.Covers.revalue (hc : r.Covers h) {v : α} (hv : r.domain v) (i : Nat) :
    r.Covers { h with values := h.values.setIfInBounds i v } := by
  intro w hw
  rcases Array.mem_or_eq_of_mem_setIfInBounds hw with hw | rfl
  · exact hc w hw
  · exact hv

omit [DecidableLT α] in
/-- A new value for an index changes no key but that of its position. -/
theorem Linked.ranks_revalue (hl : h.Linked) (v : α) (hp : p < h.limit) (hx : h.position[i]? ≠ some (some p)) :
    r.ranks { h with values := h.values.setIfInBounds i v } p = r.ranks h p := by
  obtain ⟨j, hj, -, hjp⟩ := hl.index_below hp
  have hij : i ≠ j := fun hij => hx (hij ▸ hjp)
  simp only [Ranking.ranks, key, index, valueAt, hj, Option.getD_some]
  rw [Array.getElem?_setIfInBounds_ne hij]

omit [DecidableLT α] in
/-- A new value for an index that is not active leaves the heap in order. -/
theorem Linked.ordered_revalue (hl : h.Linked) (ho : r.InOrder h) (hx : h.isActive i = false) (v : α) :
    r.InOrder { h with values := h.values.setIfInBounds i v } := by
  refine ho.of_eq rfl fun p hp => hl.ranks_revalue v hp fun hxp => ?_
  rw [isActive, hxp] at hx
  cases hx

omit [DecidableLT α] in
/-- To add an index that is not active leaves the heap in order. -/
theorem Linked.ordered_added (hl : h.Linked) (ho : r.InOrder h) (hx : h.isActive i = false) (v : α) :
    r.InOrder (h.added i v) := by
  rw [IndexHeap.added]
  split
  · exact hl.ordered_revalue ho hx v
  · exact hl.ordered_grown ho i v

theorem Linked.ordered_restore (hl : h.Linked) (hc : r.Covers h) (ho : r.InOrder h) (hi : i < h.size) :
    Returns (restore i) h fun _ h' => r.InOrder h' := by
  rcases hl.position_of_lt hi with hx | ⟨p, hx⟩
  · rw [returns_restore_of_inactive hx]
    exact ho
  · rw [returns_restore_of_active hx]
    exact hl.ordered_up_down hc (hl.position_iff.mp hx).1 (ho.nearly 0 p)

/-- A new value for an index, which then moves to its place. -/
theorem Linked.ordered_revalue_restore (hl : h.Linked) (hc : r.Covers h) (ho : r.InOrder h) (hi : i < h.size) {v : α}
    (hv : r.domain v) : Returns (do revalue i v; restore i) h fun _ h' => r.InOrder h' := by
  rw [returns_bind, returns_revalue]
  refine ⟨hi, ?_⟩
  have hh : ({ h with values := h.values.setIfInBounds i v } : IndexHeap α).Linked :=
    (hl.withValues Array.size_setIfInBounds).linked
  rcases hl.position_of_lt hi with hx | ⟨p, hx⟩
  · refine (returns_restore_of_inactive (h := { h with values := h.values.setIfInBounds i v }) hx).mpr ?_
    exact hl.ordered_revalue ho (by rw [isActive, hx]; rfl) v
  · refine (returns_restore_of_active (h := { h with values := h.values.setIfInBounds i v }) hx).mpr ?_
    refine hh.ordered_up_down (hc.revalue hv i) (hl.position_iff.mp hx).1 (ho.nearly_of_eq fun q hne hq => ?_)
    refine hl.ranks_revalue v hq fun hxq => hne ?_
    rw [hx] at hxq
    exact (Option.some.inj (Option.some.inj hxq)).symm

/-- Sifting down the positions below `n` puts all pairs in order if those of the parents from `n` on are. -/
theorem Linked.ordered_siftAll (hl : h.Linked) (hc : r.Covers h) (n : Nat)
    (ho : ∀ q, 0 < q → q < h.limit → n ≤ (q - 1) / 2 → r.ranks h q ≤ r.ranks h ((q - 1) / 2)) :
    Returns (siftAll n) h fun _ h' => r.InOrder h' := by
  induction n generalizing h with
  | zero => exact fun q h0 hq => ho q h0 hq (Nat.zero_le _)
  | succ n ih =>
    rw [siftAll, returns_bind]
    have hn : Nearly (r.ranks h) h.limit n n :=
      ⟨fun q h0 hq hlo _ hne => ho q h0 hq (by omega), fun q h0 hq hqp h0' hlo => absurd hlo (by omega)⟩
    refine (hl.nearly_siftDown hc (Nat.le_refl n) hn).imp fun _ h' hsifted => ?_
    obtain ⟨hr, p, hp, hn', hd, hu⟩ := hsifted
    refine ih hr.linked (hc.of_values_eq hr.values) fun q h0 hq hlo => ?_
    rw [hr.limit] at hq
    by_cases hqp : q = p
    · exact hqp ▸ hu (Or.inr (by omega)) (by omega)
    · by_cases hqp' : (q - 1) / 2 = p
      · rw [hqp']
        exact hd q h0 hq hqp'
      · exact hn'.apart q h0 hq hlo hqp hqp'

/-- Sifting down all positions, from the last parent on, puts any heap in order. -/
theorem Linked.ordered_reheap (hl : h.Linked) (hc : r.Covers h) : Returns reheap h fun _ h' => r.InOrder h' := by
  rw [reheap, returns_bind, returns_get]
  exact hl.ordered_siftAll hc _ fun q h0 hq hlo => absurd hlo (by omega)

omit [DecidableLT α] in
/-- The index on top has a greatest value of the active ones. -/
theorem Linked.le_top (hl : h.Linked) (ho : r.InOrder h) (hi : h.isActive i = true) :
    r.rank (h.valueAt i) ≤ r.rank (h.valueAt (h.index 0)) := by
  obtain ⟨p, hp, hpi⟩ := hl.isActive_iff.mp hi
  have := ho.le_top hp
  rwa [Ranking.ranks, key, index, hpi] at this

end IndexHeap

end ClauseLearning
