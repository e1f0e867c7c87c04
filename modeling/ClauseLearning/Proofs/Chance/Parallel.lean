import ClauseLearning.Proofs.Outcome

/-!
# Runs side by side

Two solvers are `Twins` if they differ in the generator of random numbers and the time only. Operations run side by side
(`Parallel`) if from twins they come to related results, or to the same error, and to twins again. An operation that
runs beside itself with the same result is `Blind`. The lemmas for the ways to build an operation (`parallel_bind`,
`blind_get`, …) take this apart into statements about its steps. All of this is for configurations that leave nothing to
chance and set no limit to the time (`Config.Seedless`): with probability zero or one, a truth value that is drawn does
not depend on the generator (`Generator.bool_of_zero`, `Generator.bool_of_one`).
-/

namespace ClauseLearning

/-- No decision is left to chance, the random value of an atom is always the same one, and the time is not limited. -/
structure Config.Seedless (c : Config) : Prop where
  decision : (c.randomDecisionBias.value == 0) = true
  polarity : (c.polarityBias.value == 0) = true ∨ (c.polarityBias.value == 1) = true
  untimed : c.timeLimit.value = 0

/-! ## Certain truth values -/

namespace Generator

open Float.Model

/-- A number that equals zero is zero, of one sign or the other. -/
theorem unpack_of_zero {p : Float} (hp : (p == 0) = true) : ∃ sign, p.toModel.unpack = .zero sign := by
  have hp : p.toModel.unpack.beq (0 : Float).toModel.unpack = true := hp
  rw [show (0 : Float).toModel.unpack = .zero .positive by rfl] at hp
  cases hx : p.toModel.unpack with
  | zero sign => exact ⟨sign, rfl⟩
  | notANumber => cases hx ▸ hp
  | infinity sign => cases sign <;> cases hx ▸ hp
  | finite sign m e hm => cases sign <;> cases hx ▸ hp

variable {p : Float}

/-- With probability zero, the value is false. -/
theorem bool_of_zero (hp : (p == 0) = true) (g : Generator) : ∃ g', g.bool p = some (false, g') := by
  obtain ⟨sign, hsign⟩ := unpack_of_zero hp
  have hone : (p == 1) = false := by
    show p.toModel.unpack.beq (1 : Float).toModel.unpack = false
    rw [hsign]
    cases sign <;> rfl
  have hrange : 0 ≤ p ∧ p < 1 := by
    have hle : 0 ≤ p ↔ (0 : Float).toModel.unpack.le p.toModel.unpack = true := decide_eq_true_iff
    have hlt : p < 1 ↔ p.toModel.unpack.lt (1 : Float).toModel.unpack = true := decide_eq_true_iff
    rw [hle, hlt, hsign]
    cases sign <;> exact ⟨rfl, rfl⟩
  have hbound : (p * 18446744073709551616).toUInt64 = 0 := by
    show (Float.ofModel (pack (UnpackedFloat.mul Format.binary64 p.toModel.unpack
      (18446744073709551616 : Float).toModel.unpack))).toUInt64 = 0
    rw [hsign]
    cases sign <;> decide +kernel
  refine ⟨g.next64.2, ?_⟩
  rw [bool, hone, if_neg Bool.false_ne_true, if_pos hrange, hbound]
  exact congrArg (fun value => some (value, g.next64.2)) (decide_eq_false UInt64.not_lt_zero)

/-- With probability one, the value is true, and nothing is drawn. -/
theorem bool_of_one (hp : (p == 1) = true) (g : Generator) : g.bool p = some (true, g) := by
  rw [bool, if_pos hp]

end Generator

/-! ## Twins -/

namespace Solver

/-- The solver with another generator and another time. -/
def withChance (s : Solver) (random : Generator) (time : Nat) : Solver :=
  { s with random, counters := { s.counters with time } }

/-- The second solver is the first one, but for the generator and the time. -/
def Twins (s t : Solver) : Prop := ∃ random time, t = s.withChance random time

variable {α β γ δ ε : Type} {R : α → β → Prop} {Q : γ → δ → Prop} {s t : Solver}

/-- Related results with twins, or the same error with twins, of configurations without seeds. -/
inductive Matched (R : α → β → Prop) : EStateM.Result Error Solver α → EStateM.Result Error Solver β → Prop
  | ok {a : α} {b : β} {s t : Solver} (hr : R a b) (hs : s.config.Seedless) (ht : Twins s t) :
      Matched R (.ok a s) (.ok b t)
  | error {e : Error} {s t : Solver} (hs : s.config.Seedless) (ht : Twins s t) : Matched R (.error e s) (.error e t)

/-- From twins, the operations come to related results or to the same error, and to twins. -/
def Parallel (R : α → β → Prop) (m : SolverM α) (n : SolverM β) : Prop :=
  ∀ s t, s.config.Seedless → Twins s t → Matched R (m s) (n t)

/-- The operation does not depend on the generator or the time. -/
abbrev Blind (m : SolverM α) : Prop := Parallel Eq m m

/-- What the operations come to, answers and states. -/
theorem Parallel.answers {m n : SolverM α} (h : Parallel Eq m n) (hs : s.config.Seedless) (ht : Twins s t) :
    answer m s = answer n t ∧ (after m s).config.Seedless ∧ Twins (after m s) (after n t) := by
  have hm := h s t hs ht
  unfold answer after
  generalize m s = r at hm ⊢
  generalize n t = r' at hm ⊢
  cases hm with
  | ok hr hs ht => exact ⟨congrArg Except.ok hr, hs, ht⟩
  | error hs ht => exact ⟨rfl, hs, ht⟩

/-! ## Ways to build an operation -/

theorem parallel_pure {a : α} {b : β} (h : R a b) : Parallel R (pure a) (pure b) := fun _ _ hs ht => .ok h hs ht

theorem blind_pure (a : α) : Blind (pure a) := parallel_pure rfl

theorem parallel_throw (e : Error) : Parallel R (throw e : SolverM α) (throw e) := fun _ _ hs ht => .error hs ht

theorem parallel_bind {m : SolverM α} {n : SolverM β} {f : α → SolverM γ} {g : β → SolverM δ} (hm : Parallel R m n)
    (hf : ∀ a b, R a b → Parallel Q (f a) (g b)) : Parallel Q (m >>= f) (n >>= g) := by
  intro s t hs ht
  have h := hm s t hs ht
  simp only [bind, EStateM.bind]
  generalize m s = r at h ⊢
  generalize n t = r' at h ⊢
  cases h with
  | ok hr hs ht => exact hf _ _ hr _ _ hs ht
  | error hs ht => exact .error hs ht

/-- After the same result, the rest runs beside the rest. -/
theorem parallel_bind_eq {m n : SolverM α} {f : α → SolverM γ} {g : α → SolverM δ} (hm : Parallel Eq m n)
    (hf : ∀ a, Parallel Q (f a) (g a)) : Parallel Q (m >>= f) (n >>= g) :=
  parallel_bind hm fun a _ hab => hab ▸ hf a

theorem blind_bind {m : SolverM α} {f : α → SolverM γ} (hm : Blind m) (hf : ∀ a, Blind (f a)) : Blind (m >>= f) :=
  parallel_bind_eq hm hf

/-- What is done with a state may rely on the configuration. -/
theorem parallel_get {f : Solver → SolverM α} {g : Solver → SolverM β}
    (h : ∀ s random time, s.config.Seedless → Parallel R (f s) (g (s.withChance random time))) :
    Parallel R (get >>= f) (get >>= g) := by
  rintro s t hs ⟨random, time, rfl⟩
  exact h s random time hs s _ hs ⟨random, time, rfl⟩

/-- Of a state, only what twins have in common is used. -/
theorem parallel_get_eq {f : Solver → SolverM α} {g : Solver → SolverM β}
    (hg : ∀ s random time, g (s.withChance random time) = g s)
    (h : ∀ s, s.config.Seedless → Parallel R (f s) (g s)) : Parallel R (get >>= f) (get >>= g) := by
  apply parallel_get
  intro s random time hs
  rw [hg]
  exact h s hs

theorem blind_get {f : Solver → SolverM α} (hf : ∀ s random time, f (s.withChance random time) = f s)
    (h : ∀ s, s.config.Seedless → Blind (f s)) : Blind (get >>= f) := parallel_get_eq hf h

theorem parallel_ite {p : Prop} [Decidable p] {m m' : SolverM α} {n n' : SolverM β} (h : Parallel R m n)
    (h' : Parallel R m' n') : Parallel R (if p then m else m') (if p then n else n') := by
  split
  · exact h
  · exact h'

/-- After an error, an operation is not run. -/
theorem parallel_throw_bind (e : Error) (f : γ → SolverM α) (g : δ → SolverM β) :
    Parallel R (throw e >>= f) (throw e >>= g) := fun _ _ hs ht => .error hs ht

theorem blind_modify {f : Solver → Solver} (hc : ∀ s, (f s).config = s.config)
    (hf : ∀ s random time, f (s.withChance random time) = (f s).withChance random time) : Blind (modify f) := by
  rintro s t hs ⟨random, time, rfl⟩
  exact .ok rfl (by rw [hc]; exact hs) ⟨random, time, hf s random time⟩

theorem blind_discard {m : SolverM α} (hm : Blind m) : Blind (discard m) := by
  intro s t hs ht
  have h := hm s t hs ht
  simp only [discard, Functor.discard, Functor.mapConst, EStateM.map, Function.comp]
  generalize m s = r at h ⊢
  generalize m t = r' at h ⊢
  cases h with
  | ok hr hs ht => exact .ok rfl hs ht
  | error hs ht => exact .error hs ht

theorem blind_tryCatch {m : SolverM α} {f : Error → SolverM α} (hm : Blind m) (hf : ∀ e, Blind (f e)) :
    Blind (tryCatch m f) := by
  intro s t hs ht
  have h := hm s t hs ht
  simp only [tryCatch, tryCatchThe, MonadExceptOf.tryCatch, EStateM.tryCatch]
  generalize m s = r at h ⊢
  generalize m t = r' at h ⊢
  cases h with
  | ok hr hs ht => exact .ok hr hs ht
  | error hs ht => exact hf _ _ _ hs ht

/-! ## Operations on parts -/

theorem blind_onAtoms (m : AtomM α) : Blind (onAtoms m) := by
  rintro s t hs ⟨random, time, rfl⟩
  rw [onAtoms_eq, onAtoms_eq, withChance]
  cases m s.atoms with
  | ok a atoms => exact .ok rfl hs ⟨random, time, rfl⟩
  | error e atoms => exact .error hs ⟨random, time, rfl⟩

theorem blind_onWatches (f : Watches → Watches) : Blind (onWatches f) :=
  blind_modify (fun _ => rfl) fun _ _ _ => rfl

theorem blind_onTrail (f : Trail → Trail) : Blind (onTrail f) :=
  blind_modify (fun _ => rfl) fun _ _ _ => rfl

/-- A change of the other counts. -/
theorem blind_onCounters {f : Counters → Counters} (hf : ∀ c time, f { c with time } = { f c with time }) :
    Blind (onCounters f) := by
  refine blind_modify (fun _ => rfl) fun s random time => ?_
  show { s.withChance random time with counters := f { s.counters with time } } = _
  rw [hf]
  rfl

/-- The time may be set to different values. -/
theorem parallel_setTime (time time' : Nat) :
    Parallel Eq (onCounters fun c => { c with time }) (onCounters fun c => { c with time := time' }) := by
  rintro s t hs ⟨random, previous, rfl⟩
  exact .ok rfl hs ⟨random, time', rfl⟩

/-- The generator may be set to different ones. -/
theorem parallel_setRandom (random random' : Generator) :
    Parallel Eq (modify fun s => { s with random } : SolverM Unit) (modify fun s => { s with random := random' }) := by
  rintro s t hs ⟨previous, time, rfl⟩
  exact .ok rfl hs ⟨random', time, rfl⟩

theorem blind_onClauses (f : ClauseStore → α × ClauseStore) : Blind (onClauses f) := by
  rintro s t hs ⟨random, time, rfl⟩
  exact .ok rfl hs ⟨random, time, rfl⟩

theorem blind_require (inside : Bool) : Blind (require inside) := by
  cases inside with
  | true => exact blind_pure ()
  | false => exact parallel_throw _

theorem blind_ofExcept (error : ε → Error) (r : Except ε α) : Blind (ofExcept error r) := by
  cases r with
  | ok a => exact blind_pure a
  | error e => exact parallel_throw _

end Solver

end ClauseLearning
