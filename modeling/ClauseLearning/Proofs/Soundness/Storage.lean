import ClauseLearning.Proofs.Soundness.Invariant

/-!
# New clauses keep the invariant

A clause of distinct known atoms may be stored if it is entailed (`store_spec`). The formula may grow by
clauses of which the stored one is what is left. Storing fails only where no key is left, and then
nothing changes that could be found.
-/

namespace ClauseLearning

variable {F F' : List Clause} {s t : Solver} {key k : ClauseKey}
    {c : Clause} {d : Array Literal} {source : ClauseSource} {l : Literal}

theorem ClauseKey.Fits.unit_cases (h : key.Fits #[l]) : key = .givenUnit l ∨ key = .learnedUnit l := by
  cases key with
  | givenUnit m => exact Or.inl (by rw [show l = m by simpa [ClauseKey.Fits] using h])
  | learnedUnit m => exact Or.inr (by rw [show l = m by simpa [ClauseKey.Fits] using h])
  | _ => simp [ClauseKey.Fits] at h

/-- What the storage of a clause comes to. -/
structure Stored (F : List Clause) (s : Solver) (c : Clause) (source : ClauseSource) (key : ClauseKey) (t : Solver) :
    Prop where
  consistent : Consistent F t
  steady : Steady s t
  trail : t.trail = s.trail
  atoms : t.atoms = s.atoms
  fits : key.Fits c.toArray
  given : key.isGiven = true ↔ source = .given
  find : ∀ k, t.clauses.find k = if k = key then some c.toArray else s.clauses.find k
  kept : ∀ {k : ClauseKey} {d : Array Literal}, s.clauses.find k = some d → t.clauses.find k = some d
  fresh : s.clauses.freshKey c source = .ok key

/-- What comes of the storage of a clause for which there is no key. -/
structure Refused (s : Solver) (c : Clause) (source : ClauseSource) (e : Error) (t : Solver) : Prop where
  cause : e = .store .storageExhausted
  alike : Alike s t
  fresh : s.clauses.freshKey c source = .error .storageExhausted

/-- A clause other than the stored one was there before. -/
theorem Stored.find_cases (h : Stored F s c source key t) (hk : t.clauses.find k = some d) :
    (k = key ∧ d = c.toArray) ∨ s.clauses.find k = some d := by
  rw [h.find] at hk
  split at hk
  · exact Or.inl ⟨‹_›, (Option.some.inj hk).symm⟩
  · exact Or.inr hk

/-- A clause that was not stored is gained. -/
theorem Stored.gains (h : Stored F s c source key t) (hn : ¬s.clauses.Has c) : s.clauses.Gains t.clauses where
  kept := fun ⟨k, d, hd, hc⟩ => ⟨k, d, h.kept hd, hc⟩
  gained := ⟨c, ⟨key, c.toArray, by rw [h.find, if_pos rfl], fun _ => List.mem_toArray⟩, hn⟩

/-- Where the new clause is guarded, all are. -/
theorem Stored.sound {G : List Clause} (h : Stored F s c source key t) (hs : Sound G s)
    (hc : Guarded s.trail c.toArray) : Sound F t := by
  refine ⟨h.consistent, fun hk => ?_⟩
  rw [h.trail]
  rcases h.find_cases hk with ⟨-, rfl⟩ | hk
  · exact hc
  · exact hs.guarded hk

namespace Solver

theorem yields_watch {ok : Unit → Solver → Prop} {err : Error → Solver → Prop} (hc : ∀ l ∈ c, s.watches.covers l) :
    Yields (watch c key) s ok err ↔ ok () { s with watches := s.watches.watched c key } := by
  match c with
  | [] => exact yields_pure
  | [k] => exact yields_pure
  | [k, l] =>
    have hk := hc k List.mem_cons_self
    have hl := Watches.covers_addBinary (l := k) (b := ⟨l, key⟩) (hc l (by simp))
    simp [watch, watchBinary, hk, hl, Watches.watched]
  | k :: l :: m :: c =>
    have hk := hc k List.mem_cons_self
    have hl := Watches.covers_addLong (l := k) key (hc l (by simp))
    simp [watch, watchLong, hk, hl, Watches.watched]

end Solver

/-- An entailed clause is stored, unless no key is left. -/
theorem store_spec (h : Consistent F s) (hne : c ≠ []) (hk : ∀ l ∈ c, l.atom ≠ topAtom ∧ l.atom < s.atoms.size)
    (hnd : (c.map (·.atom)).Nodup) (hF : ∀ d ∈ F, d ∈ F') (hent : Entails F' c)
    (hcov : ∀ d ∈ F', d ∈ F ∨ source = .given ∧ ∀ l ∈ c, l ∈ d) :
    Solver.Yields (Solver.store c source) s (Stored F' s c source) (Refused s c source) := by
  have hanswer := s.clauses.insert_fst c source
  simp only [Solver.store, Solver.yields_bind, Solver.yields_onClauses]
  generalize hi : s.clauses.insert c source = result at hanswer
  obtain ⟨result, store⟩ := result
  cases result with
  | error e =>
    obtain ⟨rfl, hl, hfind⟩ := h.keyed.insert_error hne hi
    exact Solver.yields_ofExcept_error.mpr
      ⟨rfl, ⟨rfl, rfl, rfl, rfl, .refl _, ⟨hfind, fun _ => hl⟩, id⟩, hanswer.symm⟩
  | ok key =>
    obtain ⟨hl, hfit, hgiven, hnew, -, hfind⟩ := h.keyed.insert_ok hi
    have hcovers : ∀ l ∈ c, s.watches.covers l := fun l hl => h.watched.covers (hk l hl).2
    rw [Solver.yields_ofExcept_ok, Solver.yields_watch (s := { s with clauses := store }) hcovers, Solver.yields_pure]
    -- what was found is found again
    have hmono : ∀ {k d}, s.clauses.find k = some d → store.find k = some d := by
      intro k d hd
      rw [hfind]
      split
      · rename_i hkk
        subst hkk
        by_cases hu : k.isUnit = true
        · rw [ClauseKey.Fits.unique hu (h.proper hd).fits hfit]
        · exact absurd (h.keyed.issued hd) (hnew (by simpa using hu))
      · exact hd
    have hcases : ∀ {k d}, store.find k = some d → (k = key ∧ d = c.toArray) ∨ s.clauses.find k = some d := by
      intro k d hd
      rw [hfind] at hd
      split at hd
      · exact Or.inl ⟨‹_›, (Option.some.inj hd).symm⟩
      · exact Or.inr hd
    have hdistinct : ∀ k l rest, c = k :: l :: rest → k ≠ l := by
      rintro k l rest rfl heq
      rw [heq] at hnd
      simp at hnd
    refine ⟨⟨h.agrees, hl.keyed, fun {k d} hd => ?_, h.watched.insert h.keyed hi (fun l hl => (hk l hl).2) hdistinct,
      fun {i l} hil => ?_, fun {k d} hd => ?_, fun d hd => ?_, fun hs hsat => ?_, h.clean⟩, ⟨rfl, rfl, rfl⟩, rfl, rfl,
      hfit, hgiven, hfind, hmono, hanswer.symm⟩
    · rcases hcases hd with ⟨rfl, rfl⟩ | hd
      · exact ⟨hfit, fun l hl => hk l (by simpa using hl), hnd⟩
      · exact h.proper hd
    · rcases h.justified hil with hdec | ⟨k, d, hr, hd, hf⟩
      · exact Or.inl hdec
      · exact Or.inr ⟨k, d, hr, hmono hd, hf⟩
    · rcases hcases hd with ⟨rfl, rfl⟩ | hd
      · exact hent
      · exact (h.entailed hd).mono hF
    · rcases hcov d hd with hd | ⟨hsource, hsub⟩
      · rcases h.covered d hd with ht | ⟨k, e, hk, he, hsub⟩ | hs
        · exact Or.inl ht
        · exact Or.inr (Or.inl ⟨k, e, hk, hmono he, hsub⟩)
        · exact Or.inr (Or.inr hs)
      · exact Or.inr (Or.inl ⟨key, c.toArray, hgiven.mpr hsource, by rw [hfind, if_pos rfl], by simpa using hsub⟩)
    · exact h.refuted hs (hsat.imp fun σ hσ => hσ.mono hF)

end ClauseLearning
