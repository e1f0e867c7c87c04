import ClauseLearning.Proofs.Entailment
import ClauseLearning.Proofs.Outcome
import ClauseLearning.Proofs.Trail.Agreement
import ClauseLearning.Proofs.Watches

/-!
# The invariant of a solve

`Consistent F s` relates a solver to the formula of the clauses that were accepted: trail, table, store and watch lists
agree, each literal on the trail is a decision or forced by a stored clause, and each stored clause is entailed. From it
follows that the trail is entailed by the formula and the decisions (`Consistent.entails_trail`). `Sound` adds what
holds while no learned literal waits to be assigned: a watched literal that was false when its falsity was propagated is
guarded by the other one, which is true and stays so at least as long (`Guards`).
-/

namespace ClauseLearning

/-- The literal stands on the trail. -/
abbrev Trail.Lists (t : Trail) (l : Literal) : Prop := ∃ i : Nat, t.literals[i]? = some l

/-- The clause holds the literal, and its other literals are false before the position. -/
structure Forces (t : Trail) (c : Array Literal) (i : Nat) (l : Literal) : Prop where
  mem : l ∈ c
  others : ∀ m ∈ c, m ≠ l → ∃ j : Nat, j < i ∧ t.literals[j]? = some (-m)
  watched : 3 ≤ c.size → IsWatch c l

/-- Each literal on the trail is a decision without antecedent, or its antecedent is stored and forces it. -/
def Justified (s : ClauseStore) (a : AtomTable) (t : Trail) : Prop :=
  ∀ {i : Nat} {l : Literal}, t.literals[i]? = some l →
    (a.reasonOf l.atom = none ∧ ∃ k : Nat, t.starts[k]? = some i) ∨
      ∃ key c, a.reasonOf l.atom = some key ∧ s.find key = some c ∧ Forces t c i l

/-- The literals are of distinct atoms, all known, and as many as the key says. -/
structure Proper (key : ClauseKey) (c : Array Literal) (n : Nat) : Prop where
  fits : key.Fits c
  known : ∀ l ∈ c, l.atom ≠ topAtom ∧ l.atom < n
  nodup : (c.toList.map (·.atom)).Nodup

/-- If the first literal is false and this was propagated, the second is true, at no later level. -/
def Guards (t : Trail) (k l : Literal) : Prop :=
  ∀ j : Nat, j < t.head → t.literals[j]? = some (-k) → ∃ i : Nat, t.literals[i]? = some l ∧ t.NoLater i j

/-- The watched literals guard each other, and the literal of a clause of one is true at level zero. -/
structure Guarded (t : Trail) (c : Array Literal) : Prop where
  pair : ∀ k l : Literal, Pair c k l → Guards t k l
  unit : ∀ l : Literal, c = #[l] → ∃ i : Nat, t.literals[i]? = some l ∧ t.HasLevel i 0

/-- A clause of the formula is true at level zero, or what is left of it is stored, or the formula is refuted. -/
def Covered (s : Solver) (c : Clause) : Prop :=
  (∃ l ∈ c, ∃ i : Nat, s.trail.literals[i]? = some l ∧ s.trail.HasLevel i 0) ∨
    (∃ key d, key.isGiven = true ∧ s.clauses.find key = some d ∧ ∀ l ∈ d, l ∈ c) ∨
      s.status = .unsatisfiable

/-- The atoms marked as seen are those that the buffer lists. -/
structure Resolution.Clean (b : Resolution) : Prop where
  listed : ∀ {x : Nat}, b.isSeen x = true → x ∈ b.atoms
  marked : ∀ {x : Nat}, x ∈ b.atoms → x < b.seen.size

/-- The parts of the solver agree with each other and with the formula. -/
structure Consistent (F : List Clause) (s : Solver) : Prop where
  agrees : Agrees s.atoms s.trail
  keyed : s.clauses.Keyed
  proper : ∀ {key : ClauseKey} {c : Array Literal}, s.clauses.find key = some c → Proper key c s.atoms.size
  watched : Watched s.watches s.clauses s.atoms.size
  justified : Justified s.clauses s.atoms s.trail
  entailed : ∀ {key : ClauseKey} {c : Array Literal}, s.clauses.find key = some c → Entails F c.toList
  covered : ∀ c ∈ F, Covered s c
  refuted : s.status = .unsatisfiable → ¬Satisfiable F
  clean : s.resolution.Clean

/-- The solver is consistent, and no literal waits to be assigned. -/
structure Sound (F : List Clause) (s : Solver) : Prop extends Consistent F s where
  guarded : ∀ {key : ClauseKey} {c : Array Literal}, s.clauses.find key = some c → Guarded s.trail c

namespace Proper

variable {key : ClauseKey} {c d : Array Literal} {n i j : Nat} {k l : Literal}

/-- A literal is identified by its atom, and has one position. -/
theorem index_eq (h : Proper key d n) (hi : d[i]? = some k) (hj : d[j]? = some l) (he : k.atom = l.atom) : i = j := by
  have hlt : i < (d.toList.map (·.atom)).length := by simpa using (Array.getElem?_eq_some_iff.mp hi).1
  refine (List.getElem?_inj hlt h.nodup).mp ?_
  rw [List.getElem?_map, List.getElem?_map, Array.getElem?_toList, Array.getElem?_toList, hi, hj]
  exact congrArg some he

/-- The watched literals differ, also in their atoms. -/
theorem ne_of_pair (h : Proper key c n) (hp : Pair c k l) : k.atom ≠ l.atom := fun he => by
  rcases hp with ⟨h0, h1⟩ | ⟨h1, h0⟩ <;> exact absurd (h.index_eq h0 h1 he) (by omega)

/-- One of the watched literals is not the given one. -/
theorem exists_pair_ne (h : Proper key d n) (h2 : 2 ≤ d.size) (l : Literal) : ∃ k m, Pair d k m ∧ k ≠ l := by
  have h0 : d[0]? = some d[0] := Array.getElem?_eq_getElem (by omega)
  obtain ⟨m, hp⟩ := IsWatch.exists_pair (Or.inl h0) h2
  by_cases hk : d[0] = l
  · exact ⟨m, d[0], hp.symm, fun hm => h.ne_of_pair hp (by rw [hk, hm])⟩
  · exact ⟨d[0], m, hp, hk⟩

/-- The literals may be in another order. -/
theorem perm (h : Proper key c n) (hp : d.Perm c) (h2 : 2 ≤ c.size) : Proper key d n where
  fits := h.fits.of_size hp.size_eq h2
  known l hl := h.known l (hp.mem_iff.mp hl)
  nodup := ((Array.perm_iff_toList_perm.mp hp).map _).nodup_iff.mpr h.nodup

end Proper

section Consequences

variable {F : List Clause} {s : Solver} {i n : Nat} {l : Literal} {key : ClauseKey} {c : Array Literal}

namespace Trail

/-- The decisions of the first `n` levels. -/
def decisions (t : Trail) (n : Nat) : List Literal := (t.starts.toList.take n).filterMap (t.literals[·]?)

theorem mem_decisions {t : Trail} :
    l ∈ t.decisions n ↔ ∃ k p : Nat, k < n ∧ t.starts[k]? = some p ∧ t.literals[p]? = some l := by
  simp only [decisions, List.mem_filterMap]
  constructor
  · rintro ⟨p, hp, hl⟩
    obtain ⟨k, hk⟩ := List.mem_iff_getElem?.mp hp
    rw [List.getElem?_take] at hk
    split at hk
    · rename_i hlt
      exact ⟨k, p, hlt, by simpa using hk, hl⟩
    · cases hk
  · rintro ⟨k, p, hk, hp, hl⟩
    refine ⟨p, List.mem_iff_getElem?.mpr ⟨k, ?_⟩, hl⟩
    rw [List.getElem?_take, if_pos hk]
    simpa using hp

end Trail

/-- The formula with literals as clauses of their own. -/
def withLiterals (F : List Clause) (ls : List Literal) : List Clause := F ++ ls.map fun l => [l]

/-- A literal on the trail is entailed by the formula and the decisions up to its level. -/
theorem Consistent.entails_trail (h : Consistent F s) (hi : s.trail.literals[i]? = some l) (hn : s.trail.HasLevel i n) :
    Entails (withLiterals F (s.trail.decisions n)) [l] := by
  induction i using Nat.strongRecOn generalizing l n with
  | _ i ih =>
    rcases h.justified hi with ⟨-, k, hk⟩ | ⟨key, c, -, hc, hf⟩
    · refine entails_of_mem (List.mem_append_right _ (List.mem_map.mpr ⟨l, ?_, rfl⟩))
      exact Trail.mem_decisions.mpr ⟨k, i, (hn.2 hk).mpr (Nat.le_refl i), hk, hi⟩
    · intro σ hs
      obtain ⟨m, hm, hσ⟩ := h.entailed hc σ (hs.mono fun d hd => List.mem_append_left _ hd)
      by_cases hml : m = l
      · exact ⟨m, by rw [hml]; exact List.mem_singleton.mpr rfl, hσ⟩
      · -- another literal of the clause is false before, at a level that is not later
        obtain ⟨j, hj, hjm⟩ := hf.others m (Array.mem_toList_iff.mp hm) hml
        obtain ⟨n', -, hn'⟩ := h.agrees.hasLevel hjm
        have hle : n' ≤ n := (hn'.noLater_iff hn).mp (Trail.noLater_of_le (Nat.le_of_lt hj))
        have hmono : ∀ d ∈ withLiterals F (s.trail.decisions n'), d ∈ withLiterals F (s.trail.decisions n) := by
          intro d hd
          rcases List.mem_append.mp hd with hd | hd
          · exact List.mem_append_left _ hd
          · obtain ⟨m, hm, rfl⟩ := List.mem_map.mp hd
            obtain ⟨k, p, hk, hp, hl⟩ := Trail.mem_decisions.mp hm
            exact List.mem_append_right _
              (List.mem_map.mpr ⟨m, Trail.mem_decisions.mpr ⟨k, p, Nat.lt_of_lt_of_le hk hle, hp, hl⟩, rfl⟩)
        obtain ⟨m', hm', hσ'⟩ := (ih j hj hjm hn').mono hmono σ hs
        rw [List.mem_singleton] at hm'
        rw [hm'] at hσ'
        exact absurd hσ (trueIn_neg.mp hσ')

/-- A literal of level zero is entailed by the formula alone. -/
theorem Consistent.entails_zero (h : Consistent F s) (hi : s.trail.literals[i]? = some l)
    (hn : s.trail.HasLevel i 0) : Entails F [l] := by
  have := h.entails_trail hi hn
  rwa [withLiterals, show s.trail.decisions 0 = [] from rfl, List.map_nil, List.append_nil] at this

/-- All literals are of level zero as long as no decision is open. -/
theorem Trail.hasLevel_zero_of_isDecided {t : Trail} (ht : t.isDecided = false) (i : Nat) : t.HasLevel i 0 := by
  rw [Trail.hasLevel_zero_iff, Trail.isDecided_eq_false_iff.mp ht]
  simp

/-- A clause that is false at level zero refutes the formula. -/
theorem Consistent.not_satisfiable (h : Consistent F s) {d : Clause} (hd : Entails F d)
    (hl : ∀ l ∈ d, ∃ i : Nat, s.trail.literals[i]? = some (-l) ∧ s.trail.HasLevel i 0) : ¬Satisfiable F := by
  rintro ⟨σ, hs⟩
  obtain ⟨l, hm, hσ⟩ := hd σ hs
  obtain ⟨i, hi, hn⟩ := hl l hm
  obtain ⟨m, hm, hσ'⟩ := h.entails_zero hi hn σ hs
  rw [List.mem_singleton] at hm
  rw [hm] at hσ'
  exact trueIn_neg.mp hσ' hσ

end Consequences

/-! ## Changes of no consequence -/

/-- What no operation of a solve changes, except for its end. -/
structure Steady (s t : Solver) : Prop where
  config : t.config = s.config
  status : t.status = s.status
  size : t.atoms.size = s.atoms.size

theorem Steady.refl (s : Solver) : Steady s s := ⟨rfl, rfl, rfl⟩

theorem Steady.trans {s t u : Solver} (h : Steady s t) (h' : Steady t u) : Steady s u :=
  ⟨h'.config.trans h.config, h'.status.trans h.status, h'.size.trans h.size⟩

/-- The solvers differ in activities, counters, the source of randomness and the like. -/
structure Alike (s t : Solver) : Prop where
  config : t.config = s.config
  status : t.status = s.status
  trail : t.trail = s.trail
  watches : t.watches = s.watches
  atoms : s.atoms.SameValues t.atoms
  clauses : s.clauses.SameClauses t.clauses
  clean : s.resolution.Clean → t.resolution.Clean

namespace Alike

variable {F : List Clause} {s t u : Solver}

theorem refl (s : Solver) : Alike s s := ⟨rfl, rfl, rfl, rfl, .refl _, .refl _, id⟩

theorem trans (h : Alike s t) (h' : Alike t u) : Alike s u :=
  ⟨h'.config.trans h.config, h'.status.trans h.status, h'.trail.trans h.trail, h'.watches.trans h.watches,
    h.atoms.trans h'.atoms, h.clauses.trans h'.clauses, fun hc => h'.clean (h.clean hc)⟩

/-- Counters, randomness and the wish to stop do not matter. -/
theorem other (s : Solver) (counters : Counters) (random : Generator) (interrupt : Option Interrupt) :
    Alike s { s with counters, random, interrupt } := ⟨rfl, rfl, rfl, rfl, .refl _, .refl _, id⟩

theorem steady (h : Alike s t) : Steady s t := ⟨h.config, h.status, h.atoms.size_eq⟩

theorem consistent (h : Alike s t) (hs : Consistent F s) : Consistent F t where
  agrees := by rw [h.trail]; exact hs.agrees.of_sameValues h.atoms
  keyed := (h.clauses.later hs.keyed).keyed
  proper hc := by
    rw [h.atoms.size_eq]
    exact hs.proper (by rwa [h.clauses.find] at hc)
  watched := by rw [h.watches, h.atoms.size_eq]; exact hs.watched.of_sameClauses hs.keyed h.clauses
  justified hi := by
    rw [h.atoms.reasonOf_eq, h.clauses.find, h.trail]
    exact hs.justified (by rwa [h.trail] at hi)
  entailed hc := hs.entailed (by rwa [h.clauses.find] at hc)
  covered c hc := by
    rw [Covered, h.trail, h.clauses.find, h.status]
    exact hs.covered c hc
  refuted ht := hs.refuted (by rwa [h.status] at ht)
  clean := h.clean hs.clean

theorem sound (h : Alike s t) (hs : Sound F s) : Sound F t :=
  ⟨h.consistent hs.toConsistent, fun hc => by rw [h.trail]; exact hs.guarded (by rwa [h.clauses.find] at hc)⟩

end Alike

/-! ## New solvers -/

/-- A new solver is sound for the empty formula. -/
theorem sound_ofConfig (config : Config) : Sound [] (.ofConfig config) := by
  have hnone : ∀ {key : ClauseKey} {c : Array Literal}, (ClauseStore.ofConfig config).find key ≠ some c := by
    intro key c
    rw [ClauseStore.find_ofConfig]
    simp
  refine ⟨⟨agrees_ofConfig config, ClauseStore.keyed_ofConfig config, fun hc => (hnone hc).elim,
    (Watched.of_empty (ClauseStore.find_ofConfig config)).ensure, fun hi => ?_, fun hc => (hnone hc).elim,
    fun c hc => ?_, fun hs => ?_, ⟨fun hx => ?_, fun hx => ?_⟩⟩, fun hc => (hnone hc).elim⟩
  · simp [Solver.ofConfig] at hi
  · cases hc
  · cases hs
  · simp [Solver.ofConfig, Resolution.isSeen] at hx
  · simp [Solver.ofConfig] at hx

/-! ## What is settled -/

variable {F G : List Clause} {s : Solver}

/-- What is settled may change as long as the formula is not refuted. -/
theorem Sound.withStatus (h : Sound F s) (hs : s.status ≠ .unsatisfiable) {status : Status}
    (hst : status ≠ .unsatisfiable) : Sound F { s with status } where
  agrees := h.agrees
  keyed := h.keyed
  proper := h.proper
  watched := h.watched
  justified := h.justified
  entailed := h.entailed
  covered c hc := by
    rcases h.covered c hc with ht | ht | ht
    · exact Or.inl ht
    · exact Or.inr (Or.inl ht)
    · exact absurd ht hs
  refuted ht := absurd ht hst
  clean := h.clean
  guarded := h.guarded

/-- A formula that is known to have no model may be grown. -/
theorem Sound.refute (h : Sound F s) (hF : ∀ d ∈ F, d ∈ G) (hG : ¬Satisfiable G) :
    Sound G { s with status := .unsatisfiable } where
  agrees := h.agrees
  keyed := h.keyed
  proper := h.proper
  watched := h.watched
  justified := h.justified
  entailed hd := (h.entailed hd).mono hF
  covered _ _ := Or.inr (Or.inr rfl)
  refuted _ := hG
  clean := h.clean
  guarded := h.guarded

/-! ## Failures -/

/-- The number lies between zero and one. -/
def IsProbability (p : Float) : Prop := 0 ≤ p ∧ p ≤ 1

/-- The parameters that are used as probabilities are probabilities. -/
structure Config.Biased (c : Config) : Prop where
  polarity : IsProbability c.polarityBias.value
  decision : IsProbability c.randomDecisionBias.value

/-- An operation fails if no key is left, or if a parameter is used as a probability that is none. -/
structure Failed (F : List Clause) (s : Solver) (e : Error) (t : Solver) : Prop where
  sound : Sound F t
  steady : Steady s t
  cause : e = .store .storageExhausted ∨ e = .breach .invalidProbability ∧ ¬s.config.Biased

theorem Failed.trans {F : List Clause} {s t u : Solver} {e : Error} (h : Failed F t e u) (hs : Steady s t) :
    Failed F s e u :=
  ⟨h.sound, hs.trans h.steady, by rw [← hs.config]; exact h.cause⟩

end ClauseLearning
