import ClauseLearning.Proofs.Conflict.ImplicationPoint
import ClauseLearning.Proofs.Conflict.Reuse

/-!
# What resolution uses

Resolution from a conflict uses the false clause and the antecedents of the literals that it resolves away, which are
the literals of the top level that it marks but the last one (`Solver.resolvedAway`). `Recorded` says at each step of
the walk that the premises are those clauses, in this order, and that the marked atoms are those of the premises above
level zero. No clause is the antecedent of two literals on the trail (`Consistent.eq_of_reasonOf`), and none of a false
one, so no premise is used twice. A literal of a premise is false, or it is resolved away with this premise; what is
false and not resolved away makes up the derived clause (`Conflict.usedOnce`).
-/

namespace ClauseLearning

open Resolution

variable {F : List Clause} {s : Solver} {key reason : ClauseKey} {c d : Array Literal} {b b' : Resolution}
  {index i j p : Nat} {k l first pivot : Literal} {rest : Clause}

/-! ## Literals from a position on -/

/-- What does not pass a test may be dropped before it. -/
theorem filter_drop_eq {α : Type} {xs : List α} {test : α → Bool} (hij : i ≤ j)
    (h : ∀ p x, i ≤ p → p < j → xs[p]? = some x → test x = false) :
    (xs.drop i).filter test = (xs.drop j).filter test := by
  induction hij with
  | refl => rfl
  | @step j hij ih =>
    rw [ih fun p x hp hlt => h p x hp (Nat.lt_succ_of_lt hlt)]
    by_cases hlt : j < xs.length
    · rw [List.drop_eq_getElem_cons hlt, List.filter_cons_of_neg]
      rw [h j xs[j] hij (Nat.lt_succ_self j) (List.getElem?_eq_getElem hlt)]
      exact Bool.false_ne_true
    · rw [List.drop_eq_nil_of_le (Nat.le_of_not_lt hlt), List.drop_eq_nil_of_le (by omega)]

namespace Resolution

/-- The marked literals from a position on, the last one first. -/
def passed (b : Resolution) (trail : Array Literal) (index : Nat) : List Literal :=
  ((trail.toList.drop index).filter fun l => b.isSeen l.atom).reverse

theorem passed_size (b : Resolution) (trail : Array Literal) : b.passed trail trail.size = [] := by
  rw [passed, ← Array.length_toList, List.drop_length]
  rfl

/-- The step to the last marked position passes the literal there. -/
theorem passed_step {trail : Array Literal} (hi : i < index) (hpivot : trail[i]? = some pivot)
    (hseen : b'.isSeen pivot.atom = true)
    (hbetween : ∀ p l, i < p → p < index → trail[p]? = some l → b'.isSeen l.atom = false)
    (hafter : ∀ p l, index ≤ p → trail[p]? = some l → b'.isSeen l.atom = b.isSeen l.atom) :
    b'.passed trail i = b.passed trail index ++ [pivot] := by
  obtain ⟨hlt, hpivot⟩ := Array.getElem?_eq_some_iff.mp hpivot
  have hdrop : trail.toList.drop i = pivot :: trail.toList.drop (i + 1) := by
    rw [List.drop_eq_getElem_cons (by simpa using hlt), Array.getElem_toList, hpivot]
  have hrest : (trail.toList.drop (i + 1)).filter (fun l => b'.isSeen l.atom) =
      (trail.toList.drop index).filter fun l => b.isSeen l.atom := by
    rw [filter_drop_eq (Nat.succ_le_of_lt hi) fun p l hp hpi hl => hbetween p l hp hpi (by simpa using hl)]
    refine List.filter_congr fun l hl => ?_
    obtain ⟨p, hp⟩ := List.mem_iff_getElem?.mp hl
    rw [List.getElem?_drop, Array.getElem?_toList] at hp
    exact hafter _ l (Nat.le_add_right index p) hp
  rw [passed, hdrop, List.filter_cons_of_pos (by exact hseen), hrest, List.reverse_cons, passed]

/-- To note a clause adds no premise. -/
theorem premises_note {a : AtomTable} {level count : Nat} {c : Clause} (b : Resolution) :
    (note a level c count b).2.premises = b.premises := by
  fun_induction note a level c count b with
  | case1 | case2 | case4 => rfl
  | case3 | case5 | case6 | case7 => rename_i ih; exact ih

theorem Notes.premises_eq (h : Notes s key c b b') : b'.premises = b.premises.push key := by
  obtain ⟨count, count', hnote⟩ := h
  exact (congrArg (fun r => r.2.premises) hnote).symm.trans (premises_note _)

end Resolution

/-! ## Antecedents of different literals -/

/-- A clause is the antecedent of one literal on the trail only. -/
theorem Consistent.eq_of_reasonOf (h : Consistent F s) (hi : s.trail.literals[i]? = some k)
    (hj : s.trail.literals[j]? = some l) (hk : s.atoms.reasonOf k.atom = some reason)
    (hl : s.atoms.reasonOf l.atom = some reason) : k = l := by
  obtain ⟨i', k', c, hatom, hi', hc, hfk⟩ := h.forces_of_reasonOf hk
  obtain rfl := h.agrees.position_inj hi' hi hatom
  obtain rfl := Option.some.inj (hi'.symm.trans hi)
  obtain ⟨j', l', d, hatom, hj', hd, hfl⟩ := h.forces_of_reasonOf hl
  obtain rfl := h.agrees.position_inj hj' hj hatom
  obtain rfl := Option.some.inj (hj'.symm.trans hj)
  obtain rfl := Option.some.inj (hc.symm.trans hd)
  by_contra hne
  -- the first literal would be false, as one of the others of its clause
  obtain ⟨p, -, hp⟩ := hfl.others k' hfk.mem hne
  exact h.agrees.not_both hi hp

/-- A clause that is false is no antecedent. -/
theorem Conflict.reasonOf_ne (hc : Conflict s key c) (h : Consistent F s) (x : Nat) :
    s.atoms.reasonOf x ≠ some key := by
  intro hreason
  obtain ⟨i, l, d, -, hi, hd, hf⟩ := h.forces_of_reasonOf hreason
  obtain rfl := Option.some.inj (hc.find.symm.trans hd)
  obtain ⟨j, hj⟩ := hc.falsified l hf.mem
  exact h.agrees.not_both hi hj

/-! ## What the walk records -/

/-- Down to a position, the premises are the conflict and the antecedents of the marked literals, and the atoms marked
are those that occur in the premises above level zero. -/
structure Recorded (s : Solver) (key : ClauseKey) (b : Resolution) (index : Nat) : Prop where
  premises : b.premises.toList.map some =
    some key :: (b.passed s.trail.literals index).map fun l => s.atoms.reasonOf l.atom
  isSeen_iff : ∀ x, b.isSeen x = true ↔ s.atoms.levelOf x ≠ some 0 ∧
    ∃ k ∈ b.premises, ∃ c, s.clauses.find k = some c ∧ ∃ l ∈ c, l.atom = x

/-- A clause is noted as a new premise, and its atoms are marked. -/
theorem Recorded.isSeen_noted {x : Nat} (hfind : s.clauses.find reason = some d) (hnotes : Notes s reason d b b')
    (hb : b.isSeen x = true ↔ s.atoms.levelOf x ≠ some 0 ∧
      ∃ k ∈ b.premises, ∃ c, s.clauses.find k = some c ∧ ∃ l ∈ c, l.atom = x) :
    b'.isSeen x = true ↔ s.atoms.levelOf x ≠ some 0 ∧
      ∃ k ∈ b'.premises, ∃ c, s.clauses.find k = some c ∧ ∃ l ∈ c, l.atom = x := by
  rw [hnotes.isSeen_iff, hb, hnotes.premises_eq]
  constructor
  · rintro (⟨hx, k, hk, hc⟩ | ⟨l, hl, hatom, hx⟩)
    · exact ⟨hx, k, Array.mem_push_of_mem _ hk, hc⟩
    · exact ⟨hx, reason, Array.mem_push_self, d, hfind, l, hl, hatom⟩
  · rintro ⟨hx, k, hk, c, hc, l, hl, hatom⟩
    rcases Array.mem_push.mp hk with hk | rfl
    · exact Or.inl ⟨hx, k, hk, c, hc, l, hl, hatom⟩
    · obtain rfl := Option.some.inj (hfind.symm.trans hc)
      exact Or.inr ⟨l, hl, hatom, hx⟩

/-- At first, the conflict is the only premise. -/
theorem Conflict.recorded (hc : Conflict s key c) (h : Consistent F s)
    (hb : Notes s key c (s.resolution.refresh s.atoms.size) b) : Recorded s key b s.trail.literals.size where
  premises := by
    rw [hb.premises_eq, passed_size]
    rfl
  isSeen_iff x := by
    refine Recorded.isSeen_noted hc.find hb ?_
    rw [(refresh_spec h.clean s.atoms.size).2 x]
    simp [refresh]

/-- A step of the walk adds the antecedent of the literal that it passes. -/
theorem Recorded.step (hb : Recorded s key b index) (h : Sound F s) (hlast : b.lastSeen s.trail.literals index = .ok i)
    (hpivot : s.trail.literals[i]? = some pivot) (hcurrent : 0 < seenOnTop s.atoms s.trail b i)
    (hreason : s.atoms.reasonOf pivot.atom = some reason) (hfind : s.clauses.find reason = some d)
    (hnotes : Notes s reason d b b') : Recorded s key b' i where
  premises := by
    obtain ⟨e, hr⟩ := h.resolved hlast hpivot hcurrent hreason hfind hnotes
    -- from the literal on, nothing is marked anew
    have hsame : ∀ p l, i ≤ p → s.trail.literals[p]? = some l → b'.isSeen l.atom = b.isSeen l.atom := by
      intro p l hp hl
      rw [Bool.eq_iff_iff]
      refine ⟨fun hs => ?_, hr.keeps⟩
      rcases hr.seen_or_cause h hl hs with hs | ⟨hlt, -⟩
      · exact hs
      · omega
    have hpassed := passed_step hr.before hpivot (hr.keeps hr.seen)
      (fun p l hip hp hl => by rw [hsame p l (Nat.le_of_lt hip) hl]; exact hr.between p l hip hp hl)
      fun p l hp hl => hsame p l (Nat.le_trans (Nat.le_of_lt hr.before) hp) hl
    rw [hnotes.premises_eq, hpassed, Array.toList_push, List.map_append,
      hb.premises, List.map_append, List.map_singleton, List.map_singleton, hreason]
    rfl
  isSeen_iff x := Recorded.isSeen_noted hfind hnotes (hb.isSeen_iff x)

/-! ## What a resolution has used -/

namespace Solver

/-- The literals of the top level that were used, but the one whose negation is asserted, the last one first. -/
def resolvedAway (s : Solver) (b : Resolution) (first : Literal) : List Literal :=
  (s.trail.topLevel.filter fun l => l.atom ∈ b.atoms ∧ l.atom ≠ first.atom).reverse

/-- The literal is of a level above zero, and occurs in a clause with one of the keys. -/
def OccursAbove (s : Solver) (keys : Array ClauseKey) (l : Literal) : Prop :=
  (∃ n, s.atoms.levelOf l.atom = some n ∧ 0 < n) ∧ ∃ k ∈ keys, ∃ c, s.clauses.get k = .ok c ∧ l ∈ c.clause

end Solver

/-- What resolution from a conflict has used when it gives the clause `first :: rest`. -/
structure UsedOnce (s : Solver) (key : ClauseKey) (first : Literal) (rest : Clause) (b : Resolution) : Prop where
  /-- The premises are the false clause and the antecedents of the literals that are resolved away, in this order. -/
  premises : b.premises.toList.map some =
    some key :: (s.resolvedAway b first).map fun l => s.atoms.reasonOf l.atom
  /-- They are stored. -/
  stored : ∀ k ∈ b.premises, ∃ c, s.clauses.get k = .ok c
  /-- No premise is used twice. -/
  nodup_premises : b.premises.toList.Nodup
  /-- No atom is used twice. -/
  nodup_atoms : b.atoms.toList.Nodup
  /-- The atoms used are those of the premises above level zero. -/
  mem_atoms : ∀ x, x ∈ b.atoms ↔ ∃ l, s.OccursAbove b.premises l ∧ l.atom = x
  /-- The atoms of the derived clause are among them. -/
  used : ∀ l ∈ first :: rest, l.atom ∈ b.atoms
  /-- The derived clause has the literals of the premises above level zero whose atoms are not resolved away. -/
  mem_derived : ∀ l, l ∈ first :: rest ↔
    s.OccursAbove b.premises l ∧ ∀ k ∈ s.resolvedAway b first, k.atom ≠ l.atom

/-- Where the walk ends, it has passed the literals that are resolved away. -/
theorem resolvedAway_eq (h : Sound F s) (hb : Gathered F s b index) (htidy : b.Tidy)
    (hlast : b.lastSeen s.trail.literals index = .ok i) (hpivot : s.trail.literals[i]? = some pivot)
    (hzero : seenOnTop s.atoms s.trail b i = 0) : s.resolvedAway b (-pivot) = b.passed s.trail.literals index := by
  obtain ⟨hi, -, hbetween⟩ := lastSeen_ok hlast
  obtain ⟨pivot', hpivot', -, hlevel, -⟩ := hb.pivot h.toConsistent hlast
  obtain rfl := Option.some.inj (hpivot.symm.trans hpivot')
  obtain ⟨start, htop, hlev⟩ := h.agrees.layered.exists_topLevel_eq
  have hstart : start ≤ i := (hlev i).mp (h.agrees.hasLevel_of hpivot hlevel)
  -- up to the position, the literal of the last mark is the only marked one of the top level
  have hbefore : ∀ p l, start ≤ p → p < index → s.trail.literals.toList[p]? = some l →
      decide (l.atom ∈ b.atoms ∧ l.atom ≠ (-pivot).atom) = false := by
    intro p l hp hpi hl
    rw [Array.getElem?_toList] at hl
    rw [decide_eq_false_iff_not, Literal.atom_neg, htidy.mem_iff]
    rintro ⟨hs, hne⟩
    rcases Nat.lt_trichotomy p i with hlt | rfl | hgt
    · have hpos : 0 < seenOnTop s.atoms s.trail b i :=
        seenOnTop_pos_iff.mpr ⟨p, l, hlt, hl, hs, (h.agrees.mem_topLevel_iff hl).mp
          (h.agrees.layered.mem_topLevel_iff.mpr ⟨p, hl, (hlev p).mpr hp⟩)⟩
      omega
    · exact hne (congrArg Literal.atom (Option.some.inj (hl.symm.trans hpivot)))
    · rw [hbetween p l hgt hpi hl] at hs
      cases hs
  rw [Solver.resolvedAway, htop, filter_drop_eq (by omega) hbefore, passed]
  congr 1
  refine List.filter_congr fun l hl => ?_
  obtain ⟨p, hp⟩ := List.mem_iff_getElem?.mp hl
  rw [List.getElem?_drop, Array.getElem?_toList] at hp
  have hne : l.atom ≠ pivot.atom := by
    intro heq
    have := h.agrees.position_inj hp hpivot heq
    omega
  simp [htidy.mem_iff, hne]

theorem Solver.mem_resolvedAway_iff :
    l ∈ s.resolvedAway b first ↔ l ∈ s.trail.topLevel ∧ l.atom ∈ b.atoms ∧ l.atom ≠ first.atom := by
  simp [Solver.resolvedAway]

section Premises

variable (hc : Conflict s key c) (h : Sound F s)
  (hpremises : b.premises.toList.map some = some key :: (s.resolvedAway b first).map fun l => s.atoms.reasonOf l.atom)
include hpremises

/-- A premise is the conflict or the antecedent of a literal that is resolved away. -/
theorem premise_cases (hk : reason ∈ b.premises) :
    reason = key ∨ ∃ l ∈ s.resolvedAway b first, s.atoms.reasonOf l.atom = some reason := by
  have hmem : some reason ∈ b.premises.toList.map some := List.mem_map_of_mem (Array.mem_toList_iff.mpr hk)
  rw [hpremises] at hmem
  exact (List.mem_cons.mp hmem).imp Option.some.inj List.mem_map.mp

include hc h

theorem premise_stored (hk : reason ∈ b.premises) : ∃ e, s.clauses.get reason = .ok e := by
  obtain ⟨d, hd⟩ : ∃ d, s.clauses.find reason = some d := by
    rcases premise_cases hpremises hk with rfl | ⟨l, -, hreason⟩
    · exact ⟨c, hc.find⟩
    · obtain ⟨-, -, d, -, -, hd, -⟩ := h.forces_of_reasonOf hreason
      exact ⟨d, hd⟩
  obtain ⟨e, he, -⟩ := ClauseStore.find_eq_some_iff.mp hd
  exact ⟨e, he⟩

/-- A literal of a premise is false, or it is resolved away. -/
theorem premise_literal {e : StoredClause} (hk : reason ∈ b.premises) (hget : s.clauses.get reason = .ok e)
    (hl : l ∈ e.clause) : s.trail.Lists (-l) ∨ l ∈ s.resolvedAway b first := by
  have hfind := ClauseStore.find_of_get hget
  have hl : l ∈ e.literals := Array.mem_toList_iff.mp hl
  rcases premise_cases hpremises hk with rfl | ⟨m, hm, hreason⟩
  · obtain rfl := Option.some.inj (hc.find.symm.trans hfind)
    exact Or.inl (hc.falsified l hl)
  · obtain ⟨p, m', d, hatom, hp, hd, hf⟩ := h.forces_of_reasonOf hreason
    obtain rfl := Option.some.inj (hd.symm.trans hfind)
    obtain ⟨q, hq, -⟩ := h.agrees.layered.mem_topLevel_iff.mp (Solver.mem_resolvedAway_iff.mp hm).1
    obtain rfl := h.agrees.position_inj hp hq hatom
    obtain rfl := Option.some.inj (hp.symm.trans hq)
    by_cases hne : l = m'
    · exact Or.inr (hne ▸ hm)
    · obtain ⟨j, -, hj⟩ := hf.others l hl hne
      exact Or.inl ⟨j, hj⟩

theorem premise_level {e : StoredClause} (hk : reason ∈ b.premises) (hget : s.clauses.get reason = .ok e)
    (hl : l ∈ e.clause) : ∃ n, s.atoms.levelOf l.atom = some n := by
  rcases premise_literal hc h hpremises hk hget hl with ⟨i, hi⟩ | hmem
  · obtain ⟨n, hn, -⟩ := h.agrees.hasLevel hi
    exact ⟨n, hn⟩
  · obtain ⟨i, hi, -⟩ := h.agrees.layered.mem_topLevel_iff.mp (Solver.mem_resolvedAway_iff.mp hmem).1
    obtain ⟨n, hn, -⟩ := h.agrees.hasLevel hi
    exact ⟨n, hn⟩

/-- The premises are distinct, as their literals are. -/
theorem nodup_premises : b.premises.toList.Nodup := by
  refine List.Nodup.of_map some ?_
  rw [hpremises, List.nodup_cons]
  refine ⟨fun hmem => ?_, List.Nodup.map_on (fun k hk l hl heq => ?_) ?_⟩
  · obtain ⟨l, -, hreason⟩ := List.mem_map.mp hmem
    exact hc.reasonOf_ne h.toConsistent l.atom hreason
  · -- each of the literals has an antecedent
    have hmem : s.atoms.reasonOf k.atom ∈ b.premises.toList.map some := by
      rw [hpremises]
      exact List.mem_cons_of_mem _ (List.mem_map_of_mem (f := fun l : Literal => s.atoms.reasonOf l.atom) hk)
    obtain ⟨reason, -, hreason⟩ := List.mem_map.mp hmem
    obtain ⟨i, hi, -⟩ := h.agrees.layered.mem_topLevel_iff.mp (Solver.mem_resolvedAway_iff.mp hk).1
    obtain ⟨j, hj, -⟩ := h.agrees.layered.mem_topLevel_iff.mp (Solver.mem_resolvedAway_iff.mp hl).1
    exact h.eq_of_reasonOf hi hj hreason.symm (heq.symm.trans hreason.symm)
  · obtain ⟨start, htop, -⟩ := h.agrees.layered.exists_topLevel_eq
    have hnodup : s.trail.literals.toList.Nodup := List.Nodup.of_map _ h.agrees.tracks.nodup_atoms
    rw [Solver.resolvedAway, List.nodup_reverse, htop]
    exact (hnodup.sublist (List.drop_sublist _ _)).filter _

end Premises

/-- The marked atoms are those that occur in the premises above level zero. -/
theorem Recorded.isSeen_iff_occurs {x : Nat} (hb : Recorded s key b index)
    (hlevels : ∀ {k e l}, k ∈ b.premises → s.clauses.get k = .ok e →
      l ∈ e.clause → ∃ n, s.atoms.levelOf l.atom = some n) :
    b.isSeen x = true ↔ ∃ l, s.OccursAbove b.premises l ∧ l.atom = x := by
  rw [hb.isSeen_iff]
  constructor
  · rintro ⟨hx, k, hk, c, hfind, l, hl, rfl⟩
    obtain ⟨e, hget, rfl⟩ := ClauseStore.find_eq_some_iff.mp hfind
    have hl : l ∈ e.clause := Array.mem_toList_iff.mpr hl
    obtain ⟨n, hn⟩ := hlevels hk hget hl
    refine ⟨l, ⟨⟨n, hn, Nat.pos_of_ne_zero ?_⟩, k, hk, e, hget, hl⟩, rfl⟩
    rintro rfl
    exact hx hn
  · rintro ⟨l, ⟨⟨n, hn, hpos⟩, k, hk, e, hget, hl⟩, rfl⟩
    refine ⟨fun hzero => ?_, k, hk, e.literals, ClauseStore.find_of_get hget, l, Array.mem_toList_iff.mp hl, rfl⟩
    rw [hn] at hzero
    have := Option.some.inj hzero
    omega

/-! ## The literals of the derived clause -/

/-- False literals of the same atom are the same. -/
theorem Agrees.eq_of_lists_neg {a : AtomTable} {t : Trail} (h : Agrees a t) (hk : t.Lists (-k)) (hl : t.Lists (-l))
    (hatom : k.atom = l.atom) : k = l := by
  obtain ⟨i, hi⟩ := hk
  obtain ⟨j, hj⟩ := hl
  obtain rfl := h.position_inj hi hj hatom
  rw [← Literal.neg_neg k, Option.some.inj (hi.symm.trans hj), Literal.neg_neg]

theorem Derived.lists_neg (h : Derived F s first rest) (hl : l ∈ first :: rest) : s.trail.Lists (-l) := by
  rcases List.mem_cons.mp hl with rfl | hl
  · exact h.lists_first
  · exact h.lists_rest l hl

/-- No atom of the derived clause is resolved away. -/
theorem Derived.atom_ne (h : Derived F s first rest) (hs : Sound F s) (hk : k ∈ s.resolvedAway b first)
    (hl : l ∈ first :: rest) : k.atom ≠ l.atom := by
  obtain ⟨htop, -, hne⟩ := Solver.mem_resolvedAway_iff.mp hk
  rcases List.mem_cons.mp hl with rfl | hl
  · exact hne
  · -- the literals after the first one are of lower levels
    intro hatom
    obtain ⟨i, hi, -⟩ := hs.agrees.layered.mem_topLevel_iff.mp htop
    have hlevel := (hs.agrees.mem_topLevel_iff hi).mp htop
    obtain ⟨n, hn, hlt⟩ := h.level_rest l hl
    rw [hatom, hn] at hlevel
    have := Option.some.inj hlevel
    omega

/-- Resolution from a conflict above level zero uses each clause and each atom once. -/
theorem Conflict.usedOnce (hc : Conflict s key c) (h : Sound F s) (hlevel : 0 < s.trail.level) :
    ∃ first rest b, s.resolution.resolve key s.clauses s.atoms s.trail = (.ok (first :: rest), b) ∧
      Derived F s first rest ∧ b.Clean ∧ b.seen.size = s.atoms.size ∧ UsedOnce s key first rest b := by
  obtain ⟨pivot, rest, b, index, i, hres, hperm, hgathered, hrecorded, hlast, hpivot, hzero⟩ :=
    hc.resolve_induction h.toConsistent hlevel (P := Recorded s key)
      (fun hb hlast hpivot hcurrent hreason hfind hnotes => hb.step h hlast hpivot hcurrent hreason hfind hnotes)
      fun _ hb => hc.recorded h.toConsistent hb
  obtain ⟨first, rest', b', hres', hd, hclean, hsize⟩ := resolve_spec h.toConsistent hlevel hc
  rw [hres] at hres'
  obtain ⟨heq, rfl⟩ := Prod.mk.inj hres'
  obtain ⟨rfl, rfl⟩ := List.cons.inj (Except.ok.inj heq)
  have htidy : (s.resolution.resolve key s.clauses s.atoms s.trail).2.Tidy := h.clean.tidy_resolve
  rw [hres] at htidy
  have hpremises : b.premises.toList.map some =
      some key :: (s.resolvedAway b (-pivot)).map fun l => s.atoms.reasonOf l.atom := by
    rw [resolvedAway_eq h hgathered htidy hlast hpivot hzero, hrecorded.premises]
  have hoccurs : ∀ x, b.isSeen x = true ↔ ∃ l, s.OccursAbove b.premises l ∧ l.atom = x := fun x =>
    hrecorded.isSeen_iff_occurs fun hk hget hl => premise_level hc h hpremises hk hget hl
  have hused : ∀ l ∈ -pivot :: rest, b.isSeen l.atom = true := by
    intro l hl
    rcases List.mem_cons.mp hl with rfl | hl
    · obtain ⟨k, hk, hseen, -⟩ := hgathered.pivot h.toConsistent hlast
      obtain rfl := Option.some.inj (hpivot.symm.trans hk)
      exact hseen
    · exact (hgathered.noted.below (Array.mem_toList_iff.mp (hperm.mem_iff.mp hl))).2.1
  refine ⟨-pivot, rest, b, hres, hd, hclean, hsize, hpremises, fun k hk => premise_stored hc h hpremises hk,
    nodup_premises hc h hpremises, htidy.nodup, fun x => ?_, fun l hl => (htidy.mem_iff l.atom).mpr (hused l hl),
    fun l => ⟨fun hl => ?_, ?_⟩⟩
  · rw [htidy.mem_iff, hoccurs]
  · have hnot : ∀ k ∈ s.resolvedAway b (-pivot), k.atom ≠ l.atom := fun k hk => hd.atom_ne h hk hl
    obtain ⟨m, hm, hatom⟩ := (hoccurs l.atom).mp (hused l hl)
    obtain ⟨k, hk, e, hget, hmem⟩ := hm.2
    have hfalse := (premise_literal hc h hpremises hk hget hmem).resolve_right fun hin => hnot m hin hatom
    rw [← h.agrees.eq_of_lists_neg hfalse (hd.lists_neg hl) hatom]
    exact ⟨hm, fun k hk => by rw [hatom]; exact hnot k hk⟩
  · rintro ⟨hl, hnot⟩
    have hseen := (hoccurs l.atom).mpr ⟨l, hl, rfl⟩
    obtain ⟨⟨n, hn, -⟩, k, hk, e, hget, hmem⟩ := hl
    obtain ⟨p, hp⟩ := (premise_literal hc h hpremises hk hget hmem).resolve_right fun hin => hnot l hin rfl
    rcases hgathered.noted.seen hp hseen hn with rfl | hlow
    · -- of the top level, only the first literal is not resolved away
      have hatom : l.atom = (-pivot).atom := by
        by_contra hne
        refine hnot (-l) (Solver.mem_resolvedAway_iff.mpr ⟨?_, (htidy.mem_iff _).mpr hseen, hne⟩) rfl
        exact (h.agrees.mem_topLevel_iff hp).mpr hn
      rw [h.agrees.eq_of_lists_neg ⟨p, hp⟩ hd.lists_first hatom]
      exact List.mem_cons_self
    · rw [Literal.neg_neg] at hlow
      exact List.mem_cons_of_mem _ (hperm.mem_iff.mpr (Array.mem_toList_iff.mpr hlow))

end ClauseLearning
