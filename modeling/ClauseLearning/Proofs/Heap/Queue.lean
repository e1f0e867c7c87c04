import ClauseLearning.Proofs.Heap.Order

/-!
# Index heaps as priority queues

An `Operation` is any of those of an index heap, and a heap is `Reached` if operations on indices already added lead to
it from the empty heap. All heaps that are reached are linked, and each operation on an index already added succeeds on
them and does what it says (`Operation.Effect`).

A heap is `Orderly` if what could break the order was repaired at once: a new value of an active index by moving the
index to its place, and new values of all indices, unless by a monotone function, by putting all in order. Then the heap
is in order, and the indices that are taken off it come by descending values.
-/

namespace ClauseLearning

namespace IndexHeap

/-! ## Taking indices off -/

section Draining

variable {α β : Type} [Inhabited α] [LT α] [DecidableLT α] [LinearOrder β]
    {r : Ranking α β} {h h' : IndexHeap α} {i n : Nat}

omit [Inhabited α] [LT α] [DecidableLT α] in
theorem Linked.isActive_of_limit (hl : h.Linked) (h0 : h.limit = 0) (i : Nat) : h.isActive i = false := by
  rw [← Bool.not_eq_true, hl.isActive_iff]
  rintro ⟨p, hp, -⟩
  omega

omit [Inhabited α] [LT α] [DecidableLT α] in
/-- An index less is active. -/
theorem Holds.limit_of_remove (hl : h.Linked) (hi : h.isActive i = true)
    (hh : h'.Holds h.values (Function.update h.isActive i false)) : h'.limit + 1 = h.limit := by
  have hperm : (i :: h'.actives).Perm h.actives := by
    rw [List.perm_ext_iff_of_nodup (List.nodup_cons.mpr ⟨?_, hh.linked.nodup_actives⟩) hl.nodup_actives]
    · intro j
      rw [List.mem_cons, hh.linked.mem_actives, hl.mem_actives, hh.active]
      by_cases hj : j = i
      · simp [hj, hi]
      · simp [hj]
    · rw [hh.linked.mem_actives, hh.active, Function.update_self]
      exact Bool.false_ne_true
  rw [← hh.linked.length_actives, ← hl.length_actives, ← hperm.length_eq, List.length_cons]

/-- An index that is taken off was active, and had a greatest value of the active ones. -/
theorem Linked.pop_greatest (hl : h.Linked) (ho : r.InOrder h) :
    Returns pop h fun o h' =>
      match o with
      | none => h.limit = 0 ∧ h'.Holds h.values h.isActive
      | some i => h.isActive i = true ∧ (∀ j, h.isActive j = true → r.rank (h.valueAt j) ≤ r.rank (h.valueAt i)) ∧
          h'.Holds h.values (Function.update h.isActive i false) := by
  refine hl.holds_pop.imp fun o h' ⟨ho', hh⟩ => ?_
  subst ho'
  by_cases h0 : h.limit = 0
  · rw [if_pos h0] at hh ⊢
    exact ⟨h0, hh⟩
  · rw [if_neg h0] at hh ⊢
    exact ⟨hl.isActive_index (Nat.pos_of_ne_zero h0), fun j hj => hl.le_top ho hj, hh⟩

omit [Inhabited α] in
/-- There is nothing to take off if no index is active. -/
theorem Linked.pop_of_inactive (hl : h.Linked) (hx : ∀ i, h.isActive i = false) : pop h = .ok none h := by
  have h0 : h.limit = 0 := Nat.eq_zero_of_not_pos fun hpos => by
    have := hl.isActive_index hpos
    rw [hx] at this
    cases this
  have hpop : Returns pop h fun o h' => o = none ∧ h' = h := by
    rw [pop, returns_bind, hl.returns_peek, if_pos h0]
    exact ⟨rfl, rfl⟩
  obtain ⟨o, h', hrun, rfl, rfl⟩ := returns_iff.mp hpop
  exact hrun

/-- Taking off as many indices as are active, or more, takes off each of them once, by descending values. -/
theorem Linked.popMany_spec (hl : h.Linked) (hc : r.Covers h) (ho : r.InOrder h) (hn : h.limit ≤ n) :
    Returns (popMany n) h fun is h' => is.Nodup ∧ (∀ i, i ∈ is ↔ h.isActive i = true) ∧
      is.Pairwise (fun i j => r.rank (h.valueAt j) ≤ r.rank (h.valueAt i)) ∧ h'.Holds h.values fun _ => false := by
  induction n generalizing h with
  | zero =>
    have hno := hl.isActive_of_limit (Nat.le_zero.mp hn)
    exact ⟨List.nodup_nil, fun i => by simp [hno i], List.Pairwise.nil, hl, rfl, funext hno⟩
  | succ n ih =>
    rw [popMany, returns_bind]
    refine ((hl.pop_greatest ho).and (hl.ordered_pop hc ho)).imp fun o h' hpop => ?_
    obtain ⟨hp, ho'⟩ := hpop
    cases o with
    | none =>
      have hno := hl.isActive_of_limit hp.1
      exact ⟨List.nodup_nil, fun i => by simp [hno i], List.Pairwise.nil, hp.2.linked, hp.2.values,
        hp.2.active.trans (funext hno)⟩
    | some i =>
      obtain ⟨hi, hmax, hh⟩ := hp
      have hlim := hh.limit_of_remove hl hi
      have hvalue : h'.valueAt = h.valueAt := by
        funext j
        rw [valueAt, hh.values, valueAt]
      rw [returns_bind]
      refine (ih hh.linked (hc.of_values_eq hh.values) ho' (by omega)).imp fun is h'' hrest => ?_
      obtain ⟨hd, hm, hs, hh'⟩ := hrest
      have hmem : ∀ j, j ∈ is ↔ j ≠ i ∧ h.isActive j = true := fun j => by
        rw [hm, hh.active]
        by_cases hj : j = i <;> simp [hj]
      rw [returns_pure, List.nodup_cons, List.pairwise_cons]
      refine ⟨⟨fun hi' => ((hmem i).mp hi').1 rfl, hd⟩, fun j => ?_, ⟨fun j hj => hmax j ((hmem j).mp hj).2, ?_⟩, ?_⟩
      · rw [List.mem_cons, hmem]
        by_cases hj : j = i <;> simp [hj, hi]
      · rwa [hvalue] at hs
      · rwa [hh.values] at hh'

/-- Taking all indices off takes off each active one once, by descending values, and leaves none. -/
theorem Linked.drain_spec (hl : h.Linked) (hc : r.Covers h) (ho : r.InOrder h) :
    Returns drain h fun is h' => is.Nodup ∧ (∀ i, i ∈ is ↔ h.isActive i = true) ∧
      is.Pairwise (fun i j => r.rank (h.valueAt j) ≤ r.rank (h.valueAt i)) ∧ h'.Holds h.values fun _ => false := by
  rw [drain, returns_bind, returns_get]
  exact hl.popMany_spec hc ho (Nat.le_refl _)

end Draining

/-! ## Operations -/

/-- An operation of an index heap. -/
inductive Operation (α : Type)
  | add (i : Nat) (v : α)
  | activate (i : Nat)
  | remove (i : Nat)
  | pop
  | revalue (i : Nat) (v : α)
  | restore (i : Nat)
  | mapValues (f : α → α)
  | reheap

/-- What an operation answers. -/
inductive Answer
  | done
  | flag (b : Bool)
  | index (i : Option Nat)
deriving DecidableEq

namespace Operation

section Meaning

variable {α : Type} [Inhabited α] [LT α] [DecidableLT α]

/-- The operation on the heap. -/
def run : Operation α → HeapM α Answer
  | .add i v => return .flag (← IndexHeap.add i v)
  | .activate i => return .flag (← IndexHeap.activate i)
  | .remove i => return .flag (← IndexHeap.remove i)
  | .pop => return .index (← IndexHeap.pop)
  | .revalue i v => do
    IndexHeap.revalue i v
    return .done
  | .restore i => do
    IndexHeap.restore i
    return .done
  | .mapValues f => do
    IndexHeap.mapValues f
    return .done
  | .reheap => do
    IndexHeap.reheap
    return .done

/-- The operation is on an index already added, unless it adds one. -/
def Admissible (h : IndexHeap α) : Operation α → Prop
  | .activate i | .remove i | .revalue i _ | .restore i => i < h.size
  | .add _ _ | .pop | .mapValues _ | .reheap => True

/-- What the operation says: its answer, and how the values and the active indices change. -/
def Effect (h : IndexHeap α) (a : Answer) (h' : IndexHeap α) : Operation α → Prop
  | .add i v => a = .flag (decide (h.size ≤ i)) ∧ h'.isActive = h.isActive ∧
      h'.values = if i < h.size then h.values.setIfInBounds i v
        else (h.values ++ Array.replicate (i - h.size) default).push v
  | .activate i => a = .flag (!h.isActive i) ∧ h'.isActive = Function.update h.isActive i true ∧ h'.values = h.values
  | .remove i => a = .flag (h.isActive i) ∧ h'.isActive = Function.update h.isActive i false ∧ h'.values = h.values
  | .pop => h'.values = h.values ∧
      ((a = .index none ∧ (∀ i, h.isActive i = false) ∧ h'.isActive = h.isActive) ∨
        ∃ i, a = .index (some i) ∧ h.isActive i = true ∧ h'.isActive = Function.update h.isActive i false)
  | .revalue i v => a = .done ∧ h'.isActive = h.isActive ∧ h'.values = h.values.setIfInBounds i v
  | .mapValues f => a = .done ∧ h'.isActive = h.isActive ∧ h'.values = h.values.map f
  | .restore _ | .reheap => a = .done ∧ h'.isActive = h.isActive ∧ h'.values = h.values

end Meaning

section Order

variable {α : Type} [LinearOrder α]

/-- The operation does not change the value of an active index, unless by a monotone function. -/
def Quiet (h : IndexHeap α) : Operation α → Prop
  | .add i _ | .revalue i _ => h.isActive i = false
  | .mapValues f => Monotone f
  | .activate _ | .remove _ | .pop | .restore _ | .reheap => True

end Order

end Operation

section Reach

variable {α : Type} [Inhabited α] [LT α] [DecidableLT α] {h h' : IndexHeap α}

/-- The operation succeeds on a linked heap, leaves it linked, and does what it says. -/
theorem Linked.run_spec (hl : h.Linked) (op : Operation α) (ha : op.Admissible h) :
    Returns op.run h fun a h' => h'.Linked ∧ op.Effect h a h' := by
  cases op with
  | add i v =>
    rw [Operation.run, returns_bind]
    exact (hl.holds_add i v).imp fun b h' ⟨hb, hh⟩ => ⟨hh.linked, by rw [hb], hh.active, hh.values⟩
  | activate i =>
    rw [Operation.run, returns_bind]
    exact (hl.holds_activate ha).imp fun b h' ⟨hb, hh⟩ => ⟨hh.linked, by rw [hb], hh.active, hh.values⟩
  | remove i =>
    rw [Operation.run, returns_bind]
    exact (hl.holds_remove ha).imp fun b h' ⟨hb, hh⟩ => ⟨hh.linked, by rw [hb], hh.active, hh.values⟩
  | pop =>
    rw [Operation.run, returns_bind]
    refine hl.holds_pop.imp fun o h' ⟨ho, hh⟩ => ⟨hh.linked, hh.values, ?_⟩
    subst ho
    by_cases h0 : h.limit = 0
    · rw [if_pos h0] at hh ⊢
      exact Or.inl ⟨rfl, hl.isActive_of_limit h0, hh.active⟩
    · rw [if_neg h0] at hh ⊢
      exact Or.inr ⟨h.index 0, rfl, hl.isActive_index (Nat.pos_of_ne_zero h0), hh.active⟩
  | revalue i v =>
    rw [Operation.run, returns_bind]
    exact (hl.holds_revalue ha v).imp fun _ h' hh => ⟨hh.linked, rfl, hh.active, hh.values⟩
  | restore i =>
    rw [Operation.run, returns_bind]
    exact (hl.resorted_restore ha).imp fun _ h' hr => ⟨hr.linked, rfl, hr.active, hr.values⟩
  | mapValues f =>
    rw [Operation.run, returns_bind, returns_mapValues]
    have hh : (IndexHeap.mk (h.values.map f) h.position h.heap h.limit).Holds _ _ := hl.withValues Array.size_map
    exact ⟨hh.linked, rfl, hh.active, hh.values⟩
  | reheap =>
    rw [Operation.run, returns_bind]
    exact hl.resorted_reheap.imp fun _ h' hr => ⟨hr.linked, rfl, hr.active, hr.values⟩

/-- Operations on indices already added lead from the empty heap to this one. -/
inductive Reached : IndexHeap α → Prop
  | empty : Reached {}
  | after {h h' : IndexHeap α} {a : Answer} (op : Operation α) (hr : Reached h) (ha : op.Admissible h)
      (hrun : op.run h = .ok a h') : Reached h'

theorem Reached.linked (hr : Reached h) : h.Linked := by
  induction hr with
  | empty => exact linked_empty
  | after op _ ha hrun ih => exact ((ih.run_spec op ha).of_ok hrun).1

end Reach

section Order

variable {α : Type} [LinearOrder α] [Inhabited α] {h h' : IndexHeap α}

/-- Operations lead from the empty heap to this one, with what could break the order repaired at once. -/
inductive Orderly : IndexHeap α → Prop
  | empty : Orderly {}
  | quiet {h h' : IndexHeap α} {a : Answer} (op : Operation α) (ho : Orderly h) (ha : op.Admissible h) (hq : op.Quiet h)
      (hrun : op.run h = .ok a h') : Orderly h'
  | revalued {h h' h'' : IndexHeap α} {a b : Answer} {i : Nat} {v : α} (ho : Orderly h)
      (ha : (Operation.revalue i v).Admissible h) (hrun : (Operation.revalue i v).run h = .ok a h')
      (hrun' : (Operation.restore i).run h' = .ok b h'') : Orderly h''
  | mapped {h h' h'' : IndexHeap α} {a b : Answer} {f : α → α} (ho : Orderly h)
      (hrun : (Operation.mapValues f).run h = .ok a h') (hrun' : Operation.reheap.run h' = .ok b h'') : Orderly h''

theorem Orderly.reached (ho : Orderly h) : Reached h := by
  induction ho with
  | empty => exact .empty
  | quiet op _ ha _ hrun ih => exact .after op ih ha hrun
  | @revalued h h' h'' a b i v _ ha hrun hrun' ih =>
    obtain ⟨-, -, -, hv⟩ := (ih.linked.run_spec (.revalue i v) ha).of_ok hrun
    have hi : i < h'.size := by
      rw [size, hv, Array.size_setIfInBounds]
      exact ha
    exact .after (.restore i) (.after (.revalue i v) ih ha hrun) hi hrun'
  | mapped _ hrun hrun' ih => exact .after .reheap (.after (.mapValues _) ih trivial hrun) trivial hrun'

/-- A quiet operation leaves a heap in order that is in order. -/
theorem Linked.ordered_run (hl : h.Linked) (ho : (Ranking.ofLinearOrder α).InOrder h) {op : Operation α}
    (ha : op.Admissible h) (hq : op.Quiet h) : Returns op.run h fun _ h' => (Ranking.ofLinearOrder α).InOrder h' := by
  have hc : (Ranking.ofLinearOrder α).Covers h := fun _ _ => trivial
  cases op with
  | add i v =>
    rw [Operation.run, returns_bind, returns_add]
    exact hl.ordered_added ho hq v
  | activate i =>
    rw [Operation.run, returns_bind]
    exact hl.ordered_activate hc ho ha
  | remove i =>
    rw [Operation.run, returns_bind]
    exact hl.ordered_remove hc ho ha
  | pop =>
    rw [Operation.run, returns_bind]
    exact hl.ordered_pop hc ho
  | revalue i v =>
    rw [Operation.run, returns_bind, returns_revalue]
    exact ⟨ha, hl.ordered_revalue ho hq v⟩
  | restore i =>
    rw [Operation.run, returns_bind]
    exact hl.ordered_restore hc ho ha
  | mapValues f => exact hl.ordered_mapValues ho fun _ _ hab => hq hab
  | reheap =>
    rw [Operation.run, returns_bind]
    exact hl.ordered_reheap hc

theorem Orderly.ordered (ho : Orderly h) : (Ranking.ofLinearOrder α).InOrder h := by
  induction ho with
  | empty => exact fun q _ hq => absurd hq (Nat.not_lt_zero q)
  | quiet op ho ha hq hrun ih => exact (ho.reached.linked.ordered_run ih ha hq).of_ok hrun
  | @revalued h h' h'' a b i v ho ha hrun hrun' ih =>
    have hrow := ho.reached.linked.ordered_revalue_restore (fun _ _ => trivial) ih ha (v := v) trivial
    have hruns : Returns (Operation.revalue i v).run h fun _ h' =>
        Returns (Operation.restore i).run h' fun _ h'' => (Ranking.ofLinearOrder α).InOrder h'' := by
      simpa only [Operation.run, returns_bind, returns_pure] using hrow
    exact (hruns.of_ok hrun).of_ok hrun'
  | @mapped h h' h'' a b f ho hrun hrun' ih =>
    have hl := ((ho.reached.linked.run_spec (.mapValues f) trivial).of_ok hrun).1
    have hsorted : Returns Operation.reheap.run h' fun _ h'' => (Ranking.ofLinearOrder α).InOrder h'' := by
      rw [Operation.run, returns_bind]
      exact hl.ordered_reheap fun _ _ => trivial
    exact hsorted.of_ok hrun'

/-- Whatever operations on indices already added lead to a heap, its table of positions and its heap refer to
each other, the limit counts the active indices, and each operation on an index already added succeeds and does
what it says. If what could break the order was repaired at once, no index has a greater value than its parent,
the index taken off next has a greatest value, and taking off indices until there is none gives each active one
once, by descending values. -/
theorem priority_queue (hr : Reached h) :
    ((∀ i p : Nat, h.position[i]? = some (some p) ↔ p < h.limit ∧ h.heap[p]? = some i) ∧
      h.limit = (List.range h.size).countP h.isActive ∧ h.limit ≤ h.size ∧
      ∀ op : Operation α, op.Admissible h → ∃ a h', op.run h = .ok a h' ∧ op.Effect h a h') ∧
    (Orderly h →
      (∀ p, 0 < p → p < h.limit → h.key p ≤ h.key ((p - 1) / 2)) ∧
      (∃ o h', pop h = .ok o h' ∧
        match o with
        | none => ∀ i, h.isActive i = false
        | some i => h.isActive i = true ∧ ∀ j, h.isActive j = true → h.valueAt j ≤ h.valueAt i) ∧
      ∃ is h', drain h = .ok is h' ∧ is.Nodup ∧ (∀ i, i ∈ is ↔ h.isActive i = true) ∧
        is.Pairwise (fun i j => h.valueAt j ≤ h.valueAt i) ∧ pop h' = .ok none h') := by
  have hl := hr.linked
  refine ⟨⟨fun i p => hl.position_iff, hl.limit_eq, hl.limit_le, fun op ha => ?_⟩, fun ho => ⟨ho.ordered, ?_, ?_⟩⟩
  · obtain ⟨a, h', hrun, -, he⟩ := returns_iff.mp (hl.run_spec op ha)
    exact ⟨a, h', hrun, he⟩
  · obtain ⟨o, h', hpop, hspec⟩ := returns_iff.mp (hl.pop_greatest ho.ordered)
    refine ⟨o, h', hpop, ?_⟩
    cases o with
    | none => exact hl.isActive_of_limit hspec.1
    | some i => exact ⟨hspec.1, hspec.2.1⟩
  · obtain ⟨is, h', hdrain, hd, hm, hs, hh⟩ := returns_iff.mp (hl.drain_spec (fun _ _ => trivial) ho.ordered)
    exact ⟨is, h', hdrain, hd, hm, hs, hh.linked.pop_of_inactive fun i => congrFun hh.active i⟩

/-- The heap after two indices were added and put on it, and the value of the first was then raised above the other. -/
def raised : IndexHeap Nat := ⟨#[7, 0, 9], #[some 1, none, some 0], #[2, 0, unused], 2⟩

theorem orderly_raised : Orderly raised := by
  have hadd : (Operation.add 2 5).run ({} : IndexHeap Nat) =
      .ok (.flag true) ⟨#[0, 0, 5], #[none, none, none], #[unused, unused, unused], 0⟩ := rfl
  have hactivate :
      (Operation.activate 2).run (IndexHeap.mk #[0, 0, 5] #[none, none, none] #[unused, unused, unused] 0) =
      .ok (.flag true) ⟨#[0, 0, 5], #[none, none, some 0], #[2, unused, unused], 1⟩ := by with_unfolding_all rfl
  have hadd' : (Operation.add 0 7).run (IndexHeap.mk #[0, 0, 5] #[none, none, some 0] #[2, unused, unused] 1) =
      .ok (.flag false) ⟨#[7, 0, 5], #[none, none, some 0], #[2, unused, unused], 1⟩ := rfl
  have hactivate' : (Operation.activate 0).run (IndexHeap.mk #[7, 0, 5] #[none, none, some 0] #[2, unused, unused] 1) =
      .ok (.flag true) ⟨#[7, 0, 5], #[some 0, none, some 1], #[0, 2, unused], 2⟩ := by with_unfolding_all rfl
  have hrevalue : (Operation.revalue 2 9).run (IndexHeap.mk #[7, 0, 5] #[some 0, none, some 1] #[0, 2, unused] 2) =
      .ok .done ⟨#[7, 0, 9], #[some 0, none, some 1], #[0, 2, unused], 2⟩ := rfl
  have hrestore : (Operation.restore 2).run (IndexHeap.mk #[7, 0, 9] #[some 0, none, some 1] #[0, 2, unused] 2) =
      .ok .done raised := by with_unfolding_all rfl
  have h1 := Orderly.empty.quiet (.add 2 5) trivial rfl hadd
  have h2 := h1.quiet (.activate 2) (show 2 < 3 by decide) trivial hactivate
  have h3 := h2.quiet (.add 0 7) trivial rfl hadd'
  have h4 := h3.quiet (.activate 0) (show 0 < 3 by decide) trivial hactivate'
  exact h4.revalued (show 2 < 3 by decide) hrevalue hrestore

theorem priority_queue_raised : Reached raised ∧ Orderly raised ∧ raised.limit = 2 ∧
    ∃ i h', pop raised = .ok (some i) h' ∧ ∀ j, raised.isActive j = true → raised.valueAt j ≤ raised.valueAt i := by
  refine ⟨orderly_raised.reached, orderly_raised, rfl, ?_⟩
  obtain ⟨-, horder⟩ := priority_queue orderly_raised.reached
  obtain ⟨-, ⟨o, h', hpop, ho⟩, -⟩ := horder orderly_raised
  cases o with
  | none => exact absurd (ho 0) (by decide)
  | some i => exact ⟨i, h', hpop, ho.2⟩

end Order

end IndexHeap

end ClauseLearning
