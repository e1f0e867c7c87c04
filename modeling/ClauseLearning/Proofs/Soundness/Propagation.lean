import ClauseLearning.Proofs.Soundness.Inspection

/-!
# Propagation keeps the invariant

`visitBinary_spec` and `visitLong_spec` go along the watch lists of a literal that became false: the trail gets longer
by forced literals until all clauses on the lists are true, or one of them is false. `Visiting` is the invariant of the
visit of the longer clauses, with one lemma for what each verdict leads to. `propagate_spec` sums this up: either
nothing is left to propagate, or the key of a false clause with a literal of the current level is given (`Conflict`),
and there is no error. The fuel of `propagate` suffices, as the trail is shorter than the atom table.
-/

namespace ClauseLearning

/-- The solver comes of another by assignments at the same level and changes of the order of literals in clauses. -/
structure Spread (s t : Solver) : Prop where
  steady : Steady s t
  starts : t.trail.starts = s.trail.starts
  literals : ∀ {i : Nat} {l : Literal}, s.trail.literals[i]? = some l → t.trail.literals[i]? = some l
  clauses : s.clauses.Reordered t.clauses

theorem Spread.refl (s : Solver) : Spread s s := ⟨.refl s, rfl, id, .refl _⟩

theorem Spread.trans {s t u : Solver} (h : Spread s t) (h' : Spread t u) : Spread s u :=
  ⟨h.steady.trans h'.steady, h'.starts.trans h.starts, fun hi => h'.literals (h.literals hi),
    h.clauses.trans h'.clauses⟩

/-- Moreover, no literal has been propagated meanwhile. -/
structure Longer (s t : Solver) : Prop extends Spread s t where
  head : t.trail.head = s.trail.head

theorem Longer.refl (s : Solver) : Longer s s := ⟨.refl s, rfl⟩

theorem Longer.trans {s t u : Solver} (h : Longer s t) (h' : Longer t u) : Longer s u :=
  ⟨h.toSpread.trans h'.toSpread, h'.head.trans h.head⟩

/-- Watch lists do not matter. -/
theorem Longer.rewatch {s t : Solver} (h : Longer s t) (w : Watches) : Longer s { t with watches := w } :=
  ⟨⟨⟨h.steady.config, h.steady.status, h.steady.size⟩, h.starts, h.literals, h.clauses⟩, h.head⟩

theorem Longer.lists {s t : Solver} {l : Literal} (h : Longer s t) (hl : s.trail.Lists l) : t.trail.Lists l :=
  hl.imp fun _ hi => h.literals hi

/-- The key is that of a clause that is false, and not all of it before the head. -/
structure Conflict (s : Solver) (key : ClauseKey) (c : Array Literal) : Prop where
  find : s.clauses.find key = some c
  falsified : ∀ l ∈ c, s.trail.Lists (-l)
  current : ∃ l ∈ c, ∃ i : Nat, s.trail.head ≤ i ∧ s.trail.literals[i]? = some (-l)

/-- What one visit of the watches of a literal comes to: every clause among those visited is true, or one is false. -/
def Visit (s : Solver) (done : Prop) : Option ClauseKey → Prop
  | none => done
  | some key => ∃ c, Conflict s key c

variable {F : List Clause} {s : Solver} {f l : Literal} {i n : Nat} {key : ClauseKey} {c d : Array Literal}

theorem longer_assigned (s : Solver) (l : Literal) (r : Option ClauseKey) : Longer s (s.assigned l r) :=
  ⟨⟨s.steady_assigned l r, rfl, Trail.literals_push_of_some, .refl _⟩, rfl⟩

/-! ## Clauses of two literals -/

/-- The other literal of a clause of two literals is forced if one is false. -/
theorem Pair.forces (hp : Pair c f l) (h2 : c.size = 2) (hf : s.trail.Lists (-f)) :
    Forces s.trail c s.trail.literals.size l where
  mem := hp.symm.mem
  others m hm hml := by
    have hmf : m = f := (hp.isWatch_iff.mp (isWatch_of_mem hm (Nat.le_of_eq h2))).resolve_right hml
    obtain ⟨j, hj⟩ := hf
    exact ⟨j, (Array.getElem?_eq_some_iff.mp hj).1, by rw [hmf, hj]⟩
  watched h3 := by omega

theorem visitBinary_spec {ws : List BinaryWatch} (h : Sound F s) (hws : ∀ b ∈ ws, b ∈ s.watches.binary f)
    (hf : s.trail.literals[s.trail.head]? = some (-f)) :
    Solver.Yields (Solver.visitBinary ws) s (fun r t => Sound F t ∧ Longer s t ∧ t.watches = s.watches ∧
      t.clauses = s.clauses ∧ Visit t (∀ b ∈ ws, t.trail.Lists b.other) r) fun _ _ => False := by
  induction ws generalizing s with
  | nil => simpa [Solver.visitBinary, Visit] using ⟨h, Longer.refl s⟩
  | cons b ws ih =>
    obtain ⟨c, hc, h2, hp⟩ := h.watched.binary.mp (hws b List.mem_cons_self)
    obtain ⟨hne, hk⟩ := (h.proper hc).known b.other hp.symm.mem
    have hrest : ∀ b ∈ ws, b ∈ s.watches.binary f := fun b hb => hws b (List.mem_cons_of_mem _ hb)
    simp only [Solver.visitBinary, Solver.yields_bind, Solver.yields_get]
    rcases h.agrees.isOpen_cases hne hk with ⟨ho, hv⟩ | ⟨ho, hv⟩ | ⟨ho, hv⟩ <;> simp only [ho]
    · have hl := longer_assigned s b.other (some b.key)
      rw [Solver.yields_bind, Solver.yields_assign h.agrees.aligned ho]
      refine (ih (h.assign hv hk hne hc (hp.forces h2 ⟨_, hf⟩)) hrest (hl.literals hf)).imp ?_ fun _ _ h => h
      rintro r t ⟨ht, hlt, hw, hcl, hr⟩
      refine ⟨ht, hl.trans hlt, hw, hcl, ?_⟩
      cases r with
      | some key => exact hr
      | none =>
        intro b' hb'
        rcases List.mem_cons.mp hb' with rfl | hb'
        · refine hlt.lists ⟨s.trail.literals.size, ?_⟩
          rw [Solver.assigned, Trail.literals_push, if_pos rfl]
        · exact hr b' hb'
    · refine (ih h hrest hf).imp ?_ fun _ _ h => h
      rintro r t ⟨ht, hlt, hw, hcl, hr⟩
      refine ⟨ht, hlt, hw, hcl, ?_⟩
      cases r with
      | some key => exact hr
      | none => exact List.forall_mem_cons.mpr ⟨hlt.lists hv, hr⟩
    · refine Solver.yields_pure.mpr ⟨h, Longer.refl s, rfl, rfl, c, hc, fun m hm => ?_, f, hp.mem, _, Nat.le_refl _, hf⟩
      by_cases hmo : m = b.other
      · rw [hmo]; exact hv
      · obtain ⟨j, -, hj⟩ := (hp.forces h2 ⟨_, hf⟩).others m hm hmo
        exact ⟨j, hj⟩

/-! ## Longer clauses -/

theorem perm_dropWatch {list : Array ClauseKey} (hi : list[i]? = some key) :
    (key :: (Solver.dropWatch list i).toList).Perm list.toList := by
  obtain ⟨hlt, hget⟩ := Array.getElem?_eq_some_iff.mp hi
  have hswap : (list.swapIfInBounds i (list.size - 1)).Perm list := by
    rw [Array.swapIfInBounds_def, dif_pos hlt, dif_pos (by omega)]
    exact Array.swap_perm _ _
  have hback : (Solver.dropWatch list i).push key = list.swapIfInBounds i (list.size - 1) := by
    unfold Solver.dropWatch
    grind
  have := Array.perm_iff_toList_perm.mp hswap
  rw [← hback, Array.toList_push] at this
  exact (List.perm_append_singleton _ _).symm.trans this

/-- A key that is not left from a position on was not there before, unless it is the one that was dropped. -/
theorem not_mem_of_dropWatch {list : Array ClauseKey} {k : ClauseKey} (hi : list[i]? = some key) (hk : k ≠ key)
    (hn : ∀ j, i ≤ j → (Solver.dropWatch list i)[j]? ≠ some k) {j : Nat} (hj : i ≤ j) : list[j]? ≠ some k := by
  intro hjk
  have h1 := hn j hj
  have h2 := hn i (Nat.le_refl i)
  unfold Solver.dropWatch at h1 h2
  grind

/-- The solver with a list put back in front of the longer clauses that watch a literal. -/
def Solver.restored (s : Solver) (f : Literal) (list : Array ClauseKey) : Solver :=
  { s with watches := s.watches.restoreLong f list }

/-- The clauses that watch a literal and are not on the list from the position on are true in their other watched
literal. -/
def Visited (s : Solver) (f : Literal) (list : Array ClauseKey) (i : Nat) : Prop :=
  ∀ ⦃k c m⦄, s.clauses.find k = some c → 3 ≤ c.size → Pair c f m → (∀ j, i ≤ j → list[j]? ≠ some k) → s.trail.Lists m

theorem Visited.step {t : Solver} {list list' : Array ClauseKey} {i' : Nat} (h : Visited s f list i) (key : ClauseKey)
    (hl : Longer s t)
    (hfind : ∀ {k c}, t.clauses.find k = some c →
      (k = key ∧ ∀ m, Pair c f m → t.trail.Lists m) ∨ k ≠ key ∧ s.clauses.find k = some c)
    (hlist : ∀ {k}, k ≠ key → (∀ j, i' ≤ j → list'[j]? ≠ some k) → ∀ j, i ≤ j → list[j]? ≠ some k) :
    Visited t f list' i' := by
  intro k c m hc h3 hp hk
  rcases hfind hc with ⟨-, hm⟩ | ⟨hne, hc'⟩
  · exact hm m hp
  · exact hl.lists (h hc' h3 hp (hlist hne hk))

/-- The other watched literal is determined. -/
theorem Proper.pair_unique {m : Literal} (h : Proper key c n) (hp : Pair c f l) (hm : Pair c f m) : l = m := by
  rcases hp with ⟨h0, h1⟩ | ⟨h0, h1⟩ <;> rcases hm with ⟨h0', h1'⟩ | ⟨h0', h1'⟩
  · rw [h1] at h1'
    exact Option.some.inj h1'
  · exact absurd (h.index_eq h0 h1' rfl) (by omega)
  · exact absurd (h.index_eq h1 h0' rfl) (by omega)
  · rw [h0] at h0'
    exact Option.some.inj h0'

/-- The longer clauses that watch a false literal are visited from a position of their list on. -/
structure Visiting (F : List Clause) (s : Solver) (f : Literal) (list : Array ClauseKey) (i : Nat) : Prop where
  sound : Sound F (s.restored f list)
  covers : s.watches.covers f
  front : s.trail.literals[s.trail.head]? = some (-f)
  visited : Visited s f list i

/-- The solver with the literals of a clause put back in another order. -/
def Solver.putBack (s : Solver) (e : StoredClause) (d : Array Literal) : Solver :=
  { s with clauses := s.clauses.put { e with literals := d } }

theorem Solver.yields_putBack {e : StoredClause} {ok : Unit → Solver → Prop} {err : Error → Solver → Prop} :
    Yields (onClauses fun clauses => ((), clauses.put { e with literals := d })) s ok err ↔ ok () (s.putBack e d) :=
  Iff.rfl

/-- The solver with a watch of one of the longer clauses at another literal. -/
def Solver.watching (s : Solver) (target : Literal) (key : ClauseKey) : Solver :=
  { s with watches := s.watches.addLong target key }

namespace Visiting

section

variable {list : Array ClauseKey} (h : Visiting F s f list i)
include h

theorem falsified : s.trail.Lists (-f) := ⟨_, h.front⟩

/-- The watch of a clause that is no longer stored is dropped. -/
theorem drop (hkey : list[i]? = some key) (hnone : s.clauses.find key = none) :
    Visiting F s f (Solver.dropWatch list i) i where
  sound := ⟨⟨h.sound.agrees, h.sound.keyed, h.sound.proper, h.sound.watched.drop h.covers (perm_dropWatch hkey) hnone,
    h.sound.justified, h.sound.entailed, h.sound.covered, h.sound.refuted, h.sound.clean⟩, h.sound.guarded⟩
  covers := h.covers
  front := h.front
  visited := by
    refine h.visited.step key (Longer.refl s) (fun {k c} hc => Or.inr ⟨?_, hc⟩) fun hne hk j hj =>
      not_mem_of_dropWatch hkey hne hk hj
    rintro rfl
    rw [hnone] at hc
    cases hc

section Stored

variable {e : StoredClause} (hkey : list[i]? = some key) (hg : s.clauses.get key = .ok e)
include hkey hg

theorem isWatch : 3 ≤ e.literals.size ∧ IsWatch e.literals f := by
  have hmem : key ∈ (s.watches.restoreLong f list).long f := by
    rw [Watches.long_restoreLong h.covers, if_pos rfl]
    exact Array.mem_append_left _ (Array.mem_of_getElem? hkey)
  exact h.sound.watched.isWatch hmem (ClauseStore.find_of_get hg)

omit hkey in
theorem proper : Proper key e.literals s.atoms.size := h.sound.proper (ClauseStore.find_of_get hg)

/-- The clauses of the store are the one that was put back and others. -/
theorem find_putBack {k : ClauseKey} :
    (s.putBack e d).clauses.find k = if k = key then some d else s.clauses.find k :=
  (later_put hg h.sound.keyed (by have := (h.isWatch hkey hg).1; omega)).2 k

theorem find_putBack_cases {k : ClauseKey} (hc : (s.putBack e d).clauses.find k = some c) :
    (k = key ∧ c = d) ∨ k ≠ key ∧ s.clauses.find k = some c := by
  rw [h.find_putBack hkey hg] at hc
  split at hc
  · exact Or.inl ⟨‹_›, (Option.some.inj hc).symm⟩
  · exact Or.inr ⟨‹_›, hc⟩

theorem longer_putBack (hd : d.Perm e.literals) : Longer s (s.putBack e d) :=
  ⟨⟨⟨rfl, rfl, rfl⟩, rfl, id, ClauseStore.reordered_of_find (ClauseStore.find_of_get hg) hd
    fun _ => h.find_putBack hkey hg⟩, rfl⟩

theorem sound_putBack (hd : Faced e.literals d) : Sound F ((s.putBack e d).restored f list) :=
  Sound.face (s := s.restored f list) hg h.sound (by have := (h.isWatch hkey hg).1; omega) hd

/-- The visit goes on where the clause is put back, true in its other watched literal. -/
theorem visited_next {t : Solver} (ht : t.clauses = (s.putBack e d).clauses) (hl : Longer s t)
    (hp : Pair e.literals l f) (hd : Faced e.literals d) (hlists : t.trail.Lists l) : Visited t f list (i + 1) := by
  refine h.visited.step key hl (fun {k c} hc => ?_) fun {k} hne hk j hj => ?_
  · rw [ht] at hc
    rcases h.find_putBack_cases hkey hg hc with ⟨hk, rfl⟩ | hc
    · refine Or.inl ⟨hk, fun m hm => ?_⟩
      rwa [← (h.proper hg).pair_unique hp.symm (hd.pair_iff.mp hm)]
    · exact Or.inr hc
  · rcases Nat.eq_or_lt_of_le hj with rfl | hj
    · rw [hkey]
      exact fun heq => hne (Option.some.inj heq).symm
    · exact hk j hj

/-- The watch of a clause that is true is kept. -/
theorem keep (hp : Pair e.literals l f) (hd : Faced e.literals d) (hlists : s.trail.Lists l) :
    Visiting F (s.putBack e d) f list (i + 1) where
  sound := h.sound_putBack hkey hg hd
  covers := h.covers
  front := h.front
  visited := h.visited_next hkey hg rfl (h.longer_putBack hkey hg hd.perm) hp hd hlists

omit hkey in
theorem covers_of_mem {target : Literal} (hmem : target ∈ e.literals) : s.watches.covers target := by
  simpa [Solver.restored] using h.sound.watched.covers ((h.proper hg).known target hmem).2

/-- The watch is moved to a literal that is not false, so the clause does not watch the old one any more. -/
theorem move {first target : Literal} (hp : Pair e.literals first f) (hd : d.Perm e.literals) (h0 : d[0]? = some first)
    (h1 : d[1]? = some target) (hfirst : ¬s.trail.Lists first) (hmem : target ∈ e.literals)
    (hwatch : ¬IsWatch e.literals target) (htarget : ¬s.trail.Lists (-target)) :
    Visiting F ((s.putBack e d).watching target key) f (Solver.dropWatch list i) i where
  sound := h.sound.move hg h.covers (h.isWatch hkey hg).1 h.falsified hp hd h0 h1 hfirst hmem hwatch htarget
    (perm_dropWatch hkey)
  covers := Watches.covers_addLong key h.covers
  front := h.front
  visited := by
    have hpair : ∀ m, ¬Pair d f m := fun m hm => by
      have hne : first ≠ f := fun heq => (h.proper hg).ne_of_pair hp (congrArg Literal.atom heq)
      rcases hm.isWatch with hf | hf
      · exact hne (Option.some.inj (h0.symm.trans hf))
      · exact hwatch (Option.some.inj (h1.symm.trans hf) ▸ hp.symm.isWatch)
    have hl : Longer s ((s.putBack e d).watching target key) := (h.longer_putBack hkey hg hd).rewatch _
    refine h.visited.step key hl (fun {k c} hc => ?_) fun hne hk j hj =>
      not_mem_of_dropWatch hkey hne hk hj
    rcases h.find_putBack_cases hkey hg hc with ⟨hk, rfl⟩ | hc
    · exact Or.inl ⟨hk, fun m hm => absurd hm (hpair m)⟩
    · exact Or.inr hc

/-- The other watched literal is assigned where it is the only one left. -/
theorem force {first : Literal} (hp : Pair e.literals first f) (hd : Faced e.literals d)
    (hfirst : s.atoms.valueOf first.atom = none) (hothers : ∀ m ∈ e.literals, m ≠ first → s.trail.Lists (-m)) :
    Visiting F ((s.putBack e d).assigned first (some key)) f list (i + 1) := by
  obtain ⟨hne, hk⟩ := (h.proper hg).known first hp.mem
  have hforces : Forces s.trail d s.trail.literals.size first := by
    refine ⟨hd.perm.mem_iff.mpr hp.mem, fun m hm hmf => ?_, fun _ => hd.isWatch_iff.mpr hp.isWatch⟩
    obtain ⟨j, hj⟩ := hothers m (hd.perm.mem_iff.mp hm) hmf
    exact ⟨j, (Array.getElem?_eq_some_iff.mp hj).1, hj⟩
  have hl : Longer s ((s.putBack e d).assigned first (some key)) :=
    (h.longer_putBack hkey hg hd.perm).trans (longer_assigned _ first _)
  have hfind : (s.putBack e d).clauses.find key = some d := by rw [h.find_putBack hkey hg, if_pos rfl]
  refine ⟨?_, h.covers, hl.literals h.front, ?_⟩
  · exact (h.sound_putBack hkey hg hd).assign hfirst hk hne hfind hforces
  · refine h.visited_next (d := d) hkey hg rfl hl hp hd ⟨s.trail.literals.size, ?_⟩
    rw [Solver.assigned, Trail.literals_push]
    exact if_pos rfl

/-- A clause without a true or open literal is false. -/
theorem conflict (hp : Pair e.literals l f) (hd : Faced e.literals d) (hall : ∀ m ∈ e.literals, s.trail.Lists (-m)) :
    Conflict (s.putBack e d) key d where
  find := by rw [h.find_putBack hkey hg, if_pos rfl]
  falsified m hm := hall m (hd.perm.mem_iff.mp hm)
  current := ⟨f, hd.perm.mem_iff.mpr hp.symm.mem, s.trail.head, Nat.le_refl _, h.front⟩

end Stored

end

end Visiting

/-- What the visit of the longer clauses that watch a literal comes to: the list that is left and a result. -/
structure LongVisit (F : List Clause) (s : Solver) (f : Literal)
    (r : Array ClauseKey × Except PropagationError (Option ClauseKey)) (t : Solver) : Prop where
  sound : Sound F (t.restored f r.1)
  covers : t.watches.covers f
  longer : Longer s t
  binary : ∀ l, t.watches.binary l = s.watches.binary l
  result : ∃ r', r.2 = .ok r' ∧
    Visit t (∀ {k c m}, t.clauses.find k = some c → 3 ≤ c.size → Pair c f m → t.trail.Lists m) r'

theorem LongVisit.trans {t u : Solver} {r : Array ClauseKey × Except PropagationError (Option ClauseKey)}
    (h : LongVisit F t f r u) (hl : Longer s t) (hb : ∀ l, t.watches.binary l = s.watches.binary l) :
    LongVisit F s f r u :=
  ⟨h.sound, h.covers, hl.trans h.longer, fun l => (h.binary l).trans (hb l), h.result⟩

theorem Visiting.last {list : Array ClauseKey} (h : Visiting F s f list i) (hi : list.size ≤ i) :
    LongVisit F s f (list, .ok none) s := by
  refine ⟨h.sound, h.covers, Longer.refl s, fun _ => rfl, none, rfl, fun hc h3 hp => ?_⟩
  refine h.visited hc h3 hp fun j hj hk => ?_
  have := (Array.getElem?_eq_some_iff.mp hk).1
  omega

/-- The visit of longer clauses ends, as a position is passed or a key dropped each time. -/
theorem visitLong_spec {list : Array ClauseKey} (h : Visiting F s f list i) :
    Solver.Yields (Solver.visitLong f list i) s (LongVisit F s f) fun _ _ => False := by
  induction hn : list.size - i using Nat.strongRecOn generalizing s list i with
  | _ n ih =>
    rw [Solver.visitLong]
    split
    · rename_i hi
      have hdrop : (Solver.dropWatch list i).size - i < n := by
        rw [Solver.size_dropWatch]
        omega
      have hnext : list.size - (i + 1) < n := by omega
      have hkey := Array.getElem?_eq_getElem hi
      simp only [Solver.yields_bind, Solver.yields_get]
      cases hg : s.clauses.get list[i] with
      | error e =>
        refine ih _ hdrop (h.drop hkey ?_) rfl
        rw [ClauseStore.find, hg]
        rfl
      | ok e =>
        obtain ⟨h3, hwatch⟩ := h.isWatch hkey hg
        obtain ⟨d, verdict, hins, hd⟩ := inspect_spec (a := s.atoms) h.sound.agrees (h.proper hg) h3 hwatch h.falsified
        have hl := h.longer_putBack hkey hg hd.perm
        simp only [hins, Solver.yields_bind, Solver.yields_get, Solver.yields_putBack]
        cases hd with
        | keep hp hd hfirst =>
          exact (ih _ hnext (h.keep hkey hg hp hd hfirst) rfl).ok_imp fun r t ht => ht.trans hl fun _ => rfl
        | @move first target hp hd h0 h1 hfirst hmem hnw htarget =>
          have hwt : (s.putBack e d).watches.covers target := h.covers_of_mem hg hmem
          simp only [Solver.watchLong, Solver.yields_bind, Solver.yields_get, Solver.yields_require, hwt, if_true,
            Solver.yields_onWatches]
          exact (ih _ hdrop (h.move hkey hg hp hd h0 h1 hfirst hmem hnw htarget) rfl).ok_imp fun r t ht =>
            ht.trans (hl.rewatch _) (Watches.binary_addLong hwt list[i])
        | @force first hp hd hfirst hothers =>
          have hopen : (s.putBack e d).atoms.isOpen first = .ok true :=
            Solver.isOpen_of_valueOf hfirst ((h.proper hg).known first hp.mem).2
          rw [Solver.yields_bind, Solver.yields_assign (s := s.putBack e d) h.sound.agrees.aligned hopen]
          exact (ih _ hnext (h.force hkey hg hp hd hfirst hothers) rfl).ok_imp fun r t ht =>
            ht.trans (hl.trans (longer_assigned _ first (some list[i]))) fun _ => rfl
        | conflict hp hd hall =>
          exact Solver.yields_pure.mpr ⟨h.sound_putBack hkey hg hd, h.covers, hl, fun _ => rfl, some list[i], rfl, d,
            h.conflict hkey hg hp hd hall⟩
    · rename_i hi
      exact Solver.yields_pure.mpr (h.last (by omega))

/-! ## The literals that wait -/

theorem propagateLiteral_spec (h : Sound F s) (hl : s.trail.literals[s.trail.head]? = some l) :
    Solver.Yields (Solver.propagateLiteral l) s (fun r t => Sound F t ∧ Longer s t ∧
      Visit t (∀ {k c m}, t.clauses.find k = some c → Pair c (-l) m → t.trail.Lists m) r) fun _ _ => False := by
  have hcov : s.watches.covers (-l) := h.watched.covers (by rw [Literal.atom_neg]; exact h.agrees.lt_size hl)
  have hf : s.trail.literals[s.trail.head]? = some (- -l) := by rw [Literal.neg_neg, hl]
  simp only [Solver.propagateLiteral, Solver.binaryWatches, Solver.yields_bind,
    Solver.yields_get, Solver.yields_require, hcov, if_true, Solver.yields_pure]
  refine (visitBinary_spec h (fun b hb => Array.mem_toList_iff.mp hb) hf).ok_imp fun r t hbinary => ?_
  obtain ⟨ht, hlt, hw, hc, hr⟩ := hbinary
  cases r with
  | some key => exact ⟨ht, hlt, hr⟩
  | none =>
    have hcov' : t.watches.covers (-l) := by rw [hw]; exact hcov
    simp only [Solver.takeLong, Solver.yields_bind, Solver.yields_get, Solver.yields_require, hcov', if_true,
      Solver.yields_modifyGet]
    obtain ⟨u, hu⟩ : ∃ u : Solver, u = { t with watches := t.watches.setLong (-l) #[] } := ⟨_, rfl⟩
    have hrestored : u.restored (-l) (t.watches.long (-l)) = t := by
      rw [hu, Solver.restored]
      simp only [Watches.restoreLong_setLong]
    have hbin : ∀ m, u.watches.binary m = s.watches.binary m := by
      intro m
      rw [hu, ← hw]
      exact Watches.binary_setLong hcov' #[] m
    have hlu : Longer s u := by rw [hu]; exact hlt.rewatch _
    have hcu : u.watches.covers (-l) := by rw [hu, Watches.covers_setLong, hcov']
    have hvis : Visited u (-l) (t.watches.long (-l)) 0 := by
      intro k c m hk h3 hp hn
      rw [hu] at hk
      obtain ⟨j, hj⟩ := Array.mem_iff_getElem?.mp (ht.watched.mem_long hk h3 hp.isWatch)
      exact absurd hj (hn j (Nat.zero_le j))
    rw [← hu]
    have hvisiting : Visiting F u (-l) (t.watches.long (-l)) 0 :=
      ⟨hrestored.symm ▸ ht, hcu, hlu.literals (hlu.head ▸ hf), hvis⟩
    refine (visitLong_spec hvisiting).ok_imp fun r v hv => ?_
    obtain ⟨r', hr', hvr⟩ := hv.result
    have hlv := hlu.trans hv.longer
    simp only [Solver.restoreLong, Solver.yields_bind, Solver.yields_get, Solver.yields_require, hv.covers, if_true,
      Solver.yields_onWatches, hr', Solver.yields_ofExcept_ok]
    refine ⟨hv.sound, hlv.rewatch _, ?_⟩
    cases r' with
    | some key =>
      obtain ⟨c, hc⟩ := hvr
      exact ⟨c, hc.find, hc.falsified, hc.current⟩
    | none =>
      intro k c m hk hp
      by_cases h3 : 3 ≤ c.size
      · exact hvr hk h3 hp
      · -- a clause of two literals is on the list of binary watches
        have h2 : c.size = 2 := by
          have h0 : 1 < c.size := by
            rcases hp with ⟨-, h1⟩ | ⟨-, h1⟩ <;> exact (Array.getElem?_eq_some_iff.mp h1).1
          omega
        have hmem : ⟨m, k⟩ ∈ (v.restored (-l) r.1).watches.binary (-l) := hv.sound.watched.binary.mpr ⟨c, hk, h2, hp⟩
        rw [Solver.restored, Watches.binary_restoreLong hv.covers, hv.binary, hbin] at hmem
        have hlists := hr ⟨m, k⟩ (Array.mem_toList_iff.mpr hmem)
        have htu : Longer t u := by rw [hu]; exact (Longer.refl t).rewatch _
        exact (htu.trans hv.longer).lists hlists

/-- The head moves on where the clauses that watched the negation of the literal are true. -/
theorem Sound.propagated (h : Sound F s) (hl : s.trail.literals[s.trail.head]? = some l)
    (hv : ∀ {k c m}, s.clauses.find k = some c → Pair c (-l) m → s.trail.Lists m) :
    Sound F { s with trail := { s.trail with head := s.trail.head + 1 } } := by
  have hj : Justified s.clauses s.atoms { s.trail with head := s.trail.head + 1 } := by
    intro i l hi
    rcases h.justified hi with hdec | ⟨key, c, hkey, hc, hf⟩
    · exact Or.inl hdec
    · exact Or.inr ⟨key, c, hkey, hc, hf.mem, hf.others, hf.watched⟩
  refine ⟨⟨h.agrees.propagated hl, h.keyed, h.proper, h.watched, hj, h.entailed, h.covered, h.refuted, h.clean⟩,
    fun {key c} hc => ⟨fun k m hp j hj hk => ?_, (h.guarded hc).unit⟩⟩
  rcases Nat.lt_succ_iff_lt_or_eq.mp hj with hj | rfl
  · exact (h.guarded hc).pair k m hp j hj hk
  · -- what waits belongs to the top level, so no level starts after it
    have heq : k = -l := by
      rw [show s.trail.literals[s.trail.head]? = some (-k) from hk] at hl
      rw [← Option.some.inj hl, Literal.neg_neg]
    obtain ⟨i, hi⟩ := hv hc (heq ▸ hp)
    exact ⟨i, hi, fun hs _ => h.agrees.layered.propagated hs⟩

/-- The result of propagation: nothing is left, or the key of a false clause. -/
def Propagated (s : Solver) : Option ClauseKey → Prop := Visit s (s.trail.head = s.trail.literals.size)

theorem propagateMany_spec (h : Sound F s) (n : Nat) :
    Solver.Yields (Solver.propagateMany n) s (fun r t => Sound F t ∧ Spread s t ∧
      (s.atoms.size ≤ n + s.trail.head → Propagated t r) ∧ ∀ key, r = some key → ∃ c, Conflict t key c)
      fun _ _ => False := by
  induction n generalizing s with
  | zero =>
    refine Solver.yields_pure.mpr ⟨h, Spread.refl s, fun hn => ?_, by simp⟩
    have h1 := h.agrees.size_lt
    have h2 := h.agrees.layered.head_le
    omega
  | succ n ih =>
    simp only [Solver.propagateMany, Solver.yields_bind, Solver.yields_get, Trail.next?]
    cases hl : s.trail.literals[s.trail.head]? with
    | none =>
      have h1 := h.agrees.layered.head_le
      have h2 := Array.getElem?_eq_none_iff.mp hl
      exact Solver.yields_pure.mpr ⟨h, Spread.refl s, fun _ => Nat.le_antisymm h1 h2, by simp⟩
    | some l =>
      simp only [Solver.yields_bind]
      refine (propagateLiteral_spec h hl).ok_imp fun r t hone => ?_
      obtain ⟨ht, hlt, hr⟩ := hone
      cases r with
      | some key =>
        refine Solver.yields_pure.mpr ⟨ht, hlt.toSpread, fun _ => hr, ?_⟩
        rintro _ ⟨⟩
        exact hr
      | none =>
        simp only [Solver.yields_bind, Solver.yields_onTrail, Solver.yields_onCounters]
        have hlt' : t.trail.literals[t.trail.head]? = some l := by rw [hlt.head]; exact hlt.literals hl
        have hnext : Sound F { t with
            trail := { t.trail with head := t.trail.head + 1 }
            counters := { t.counters with propagations := t.counters.propagations + 1 } } :=
          (Alike.other _ _ _ _).sound (ht.propagated hlt' hr)
        refine (ih hnext).ok_imp fun r u hmany => ?_
        obtain ⟨hu, hs, hn, hc⟩ := hmany
        refine ⟨hu, ?_, fun hle => hn ?_, hc⟩
        · exact hlt.toSpread.trans
            ⟨⟨hs.steady.config, hs.steady.status, hs.steady.size⟩, hs.starts, hs.literals, hs.clauses⟩
        · show t.atoms.size ≤ n + (t.trail.head + 1)
          rw [hlt.steady.size, hlt.head]
          omega

/-- Propagation ends where nothing is left to propagate, or with a false clause. -/
theorem propagate_spec (h : Sound F s) :
    Solver.Yields Solver.propagate s (fun r t => Sound F t ∧ Spread s t ∧ Propagated t r) fun _ _ => False := by
  simp only [Solver.propagate, Solver.yields_bind, Solver.yields_get]
  refine (propagateMany_spec h _).ok_imp fun r t hmany => ⟨hmany.1, hmany.2.1, hmany.2.2.1 ?_⟩
  have := h.agrees.layered.head_le
  omega

end ClauseLearning
