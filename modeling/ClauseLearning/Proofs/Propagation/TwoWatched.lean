import ClauseLearning.Proofs.Rounds

/-!
# Two watched literals

`TwoWatched` is what holds of the watch lists at the start of each round (`two_watched`): they are the lists of the
stored clauses and of keys that are no longer in use, and where a watched literal is false and this was propagated, the
other one is true at no later level. As levels count for this and positions do not, a backjump to any level keeps it
and leaves the watch lists alone.
-/

namespace ClauseLearning

/-- The watch lists are those of the stored clauses, and the watched literals guard each other. -/
structure TwoWatched (s : Solver) : Prop where
  /-- The key of a longer clause is once on the lists of its first two literals and on no other. -/
  long : ∀ (key : ClauseKey) (c : StoredClause) (k l : Literal), s.clauses.get key = .ok c → 3 ≤ c.size →
    c.literals[0]? = some k → c.literals[1]? = some l →
      (s.watches.long k).count key = 1 ∧ (s.watches.long l).count key = 1 ∧
        ∀ m : Literal, m ≠ k → m ≠ l → key ∉ s.watches.long m
  /-- Other keys on the lists of longer clauses name no clause. -/
  stale : ∀ (l : Literal) (key : ClauseKey), key ∈ s.watches.long l →
    (∃ c, s.clauses.get key = .ok c ∧ 3 ≤ c.size ∧ (c.literals[0]? = some l ∨ c.literals[1]? = some l)) ∨
      ∃ e, s.clauses.get key = .error e
  /-- A clause of two literals is once on the list of each of them, with the other one, and on no other list. -/
  binary : ∀ (key : ClauseKey) (c : StoredClause) (k l : Literal), s.clauses.get key = .ok c → c.literals = #[k, l] →
    (s.watches.binary k).toList.filter (·.key = key) = [⟨l, key⟩] ∧
      (s.watches.binary l).toList.filter (·.key = key) = [⟨k, key⟩] ∧
        ∀ m : Literal, m ≠ k → m ≠ l → ∀ b ∈ s.watches.binary m, b.key ≠ key
  /-- Where one of the first two literals is false and this was propagated, the other is true at no later level. -/
  guarded : ∀ (key : ClauseKey) (c : StoredClause) (k l : Literal) (j : Nat), s.clauses.get key = .ok c →
    (c.literals[0]? = some k ∧ c.literals[1]? = some l ∨ c.literals[0]? = some l ∧ c.literals[1]? = some k) →
      j < s.trail.head → s.trail.literals[j]? = some (-k) → s.atoms.valuation.holds l = true ∧
        ∃ m n : Nat, s.atoms.levelOf l.atom = some m ∧ s.atoms.levelOf k.atom = some n ∧ m ≤ n

variable {config : Config} {F : List Clause} {s : Solver} {w : Watches}
    {store : ClauseStore} {n : Nat} {key : ClauseKey} {c : Array Literal} {k l m : Literal}

namespace Watched

/-- A key is on a list of longer clauses at most once, and only if its clause watches the literal. -/
theorem count_eq_one (h : Watched w store n) (hc : store.find key = some c) (h3 : 3 ≤ c.size) (hl : IsWatch c l) :
    (w.long l).count key = 1 := by
  rw [h.long hc, if_pos ⟨h3, hl⟩]

/-- Of the watches of a literal, one has the key of a clause of two literals that the literal is in. -/
theorem filter_binary (h : Watched w store n) (hc : store.find key = some c) (h2 : c.size = 2) (hp : Pair c k l)
    (hne : k ≠ l) : (w.binary k).toList.filter (·.key = key) = [⟨l, key⟩] := by
  have hmem : ∀ b, b ∈ (w.binary k).toList.filter (·.key = key) ↔ b = ⟨l, key⟩ := by
    rintro ⟨other, bkey⟩
    rw [List.mem_filter, Array.mem_toList_iff, h.binary, decide_eq_true_eq, BinaryWatch.mk.injEq]
    constructor
    · rintro ⟨⟨d, hd, -, hpd⟩, rfl⟩
      cases hc.symm.trans hd
      rcases hp.isWatch_iff.mp hpd.symm.isWatch with rfl | rfl
      · -- both watched literals would be the same
        have := hpd.isWatch_iff.mp hp.symm.isWatch
        exact absurd (this.elim Eq.symm Eq.symm) hne
      · exact ⟨rfl, rfl⟩
    · rintro ⟨rfl, rfl⟩
      exact ⟨⟨c, hc, h2, hp⟩, rfl⟩
  have hnodup : ((w.binary k).toList.filter (·.key = key)).Nodup := (h.nodup k).filter _
  exact List.perm_singleton.mp ((List.perm_ext_iff_of_nodup hnodup (List.nodup_singleton _)).mpr fun b => by
    rw [hmem, List.mem_singleton])

end Watched

/-- A false watched literal is guarded by the other one, also in its level. -/
theorem Guards.levels (h : Guards s.trail k l) (ha : Agrees s.atoms s.trail) {j : Nat} (hj : j < s.trail.head)
    (hk : s.trail.literals[j]? = some (-k)) : s.atoms.valuation.holds l = true ∧
      ∃ m n : Nat, s.atoms.levelOf l.atom = some m ∧ s.atoms.levelOf k.atom = some n ∧ m ≤ n := by
  obtain ⟨i, hi, hij⟩ := h j hj hk
  obtain ⟨m, hm, hmi⟩ := ha.hasLevel hi
  obtain ⟨n, hn, hnj⟩ := ha.hasLevel hk
  rw [Literal.atom_neg] at hn
  exact ⟨(ha.holds_iff (ha.ne_top hi)).mpr ⟨i, hi⟩, m, n, hm, hn, (hmi.noLater_iff hnj).mp hij⟩

/-- A sound solver has its watch lists in order. -/
theorem Sound.twoWatched (h : Sound F s) : TwoWatched s where
  long key c k l hc h3 hk hl := by
    have hfind := ClauseStore.find_of_get hc
    refine ⟨h.watched.count_eq_one hfind h3 (Or.inl hk), h.watched.count_eq_one hfind h3 (Or.inr hl), ?_⟩
    intro m hmk hml hm
    rcases (h.watched.isWatch hm hfind).2 with h0 | h1
    · exact hmk (Option.some.inj (h0.symm.trans hk))
    · exact hml (Option.some.inj (h1.symm.trans hl))
  stale l key hm := by
    cases hc : s.clauses.get key with
    | error e => exact Or.inr ⟨e, rfl⟩
    | ok c => exact Or.inl ⟨c, rfl, h.watched.isWatch hm (ClauseStore.find_of_get hc)⟩
  binary key c k l hc hkl := by
    have hfind := ClauseStore.find_of_get hc
    have h2 : c.literals.size = 2 := by rw [hkl]; rfl
    have hp : Pair c.literals k l := by rw [hkl]; exact Or.inl ⟨rfl, rfl⟩
    have hne : k ≠ l := fun heq => (h.proper hfind).ne_of_pair hp (congrArg Literal.atom heq)
    refine ⟨h.watched.filter_binary hfind h2 hp hne, h.watched.filter_binary hfind h2 hp.symm hne.symm, ?_⟩
    rintro m hmk hml b hb rfl
    obtain ⟨d, hd, -, hpd⟩ := h.watched.binary.mp hb
    cases hfind.symm.trans hd
    rcases hp.isWatch_iff.mp hpd.isWatch with rfl | rfl
    · exact hmk rfl
    · exact hml rfl
  guarded key c k l j hc hp hj hk :=
    ((h.guarded (ClauseStore.find_of_get hc)).pair k l hp).levels h.agrees hj hk

/-- At the start of each round the watch lists are in order, and they are so after a backjump to any level, which
changes neither the lists nor the clauses. -/
theorem two_watched (h : AtRound config s) : TwoWatched s ∧
    ∀ level : Nat, ∃ t, Solver.backjump level s = .ok () t ∧ t.watches = s.watches ∧ t.clauses = s.clauses ∧
      TwoWatched t := by
  obtain ⟨F, hs, -, -⟩ := h.sound
  refine ⟨hs.twoWatched, fun level => ⟨s.backjumped level, ?_, rfl, rfl, (hs.backjump level).twoWatched⟩⟩
  have hj : Solver.Yields (Solver.backjump level) s (fun _ t => t = s.backjumped level) fun _ _ => False :=
    (Solver.yields_backjump hs.agrees).mpr rfl
  obtain ⟨_, _, hr, rfl⟩ := hj.exists_ok
  exact hr

/-- After a decision, from which a literal follows by each of two clauses, and another decision. -/
theorem two_watched_decided : AtRound default decidedTwice ∧ TwoWatched decidedTwice :=
  ⟨atRound_decidedTwice, (two_watched atRound_decidedTwice).1⟩

end ClauseLearning
