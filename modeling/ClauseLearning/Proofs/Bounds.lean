import ClauseLearning.CommandLine.Arguments
import ClauseLearning.Proofs.FloatOrder
import ClauseLearning.Proofs.Formula.Atoms
import ClauseLearning.Proofs.Keeping
import ClauseLearning.Proofs.Soundness.Moments

/-!
# Bounds of parameters

A parameter takes a value of a linear order just if this lies within the bounds (`Parameter.set_eq`), and one of any
order also if it cannot be compared with a bound (`Parameter.set_eq_ok_iff`). Of floating-point numbers this is the one
that is not a number, which is neither below nor above any bound (`Parameter.set_float_eq`). So the parameters of an
accepted configuration that are used as probabilities are probabilities or not numbers, and if they are numbers, then no
call fails for want of a probability (`accepted_settings`). One that is not a number is accepted all the same, and then
no atom can be added (`accepted_nan`).
-/

namespace ClauseLearning

/-! ## A parameter and its bounds -/

/-- Values of any order are taken if they lie within the bounds, and also if they cannot be compared with a bound. -/
theorem Parameter.set_eq_ok_iff {α : Type} [Preorder α] [DecidableLT α] (p : Parameter α) (v : α) :
    p.set v = .ok { p with value := v } ↔
      (p.least ≤ v ∨ IncompRel (· ≤ ·) p.least v) ∧ (v ≤ p.greatest ∨ IncompRel (· ≤ ·) v p.greatest) := by
  have hnot : ∀ a b : α, ¬a < b ↔ b ≤ a ∨ IncompRel (· ≤ ·) b a := by
    intro a b
    rw [lt_iff_le_not_ge, IncompRel]
    tauto
  rw [← hnot, ← hnot, ← not_or, Parameter.set]
  split
  · rename_i h
    simp [h]
  · rename_i h
    simp [h]

/-- Values of a linear order are taken just if they lie within the bounds. -/
theorem Parameter.set_eq {α : Type} [LinearOrder α] (p : Parameter α) (v : α) :
    p.set v = if p.least ≤ v ∧ v ≤ p.greatest then .ok { p with value := v } else .error (.outOfBounds p.name) := by
  by_cases h : v < p.least ∨ p.greatest < v
  · rw [Parameter.set, if_pos h, if_neg]
    rintro ⟨hl, hg⟩
    exact h.elim (not_lt.mpr hl) (not_lt.mpr hg)
  · rw [Parameter.set, if_neg h, if_pos]
    rw [not_or, not_lt, not_lt] at h
    exact h

/-- Of floating-point numbers, those within the bounds are taken, and the one that is not a number. -/
theorem Parameter.set_float_eq {p : Parameter Float} (hl : p.least.isNaN = false) (hg : p.greatest.isNaN = false)
    (v : Float) : p.set v = if (p.least ≤ v ∧ v ≤ p.greatest) ∨ v.isNaN = true then .ok { p with value := v }
      else .error (.outOfBounds p.name) := by
  have hiff : ¬(v < p.least ∨ p.greatest < v) ↔ (p.least ≤ v ∧ v ≤ p.greatest) ∨ v.isNaN = true := by
    rw [not_or, Float.not_lt_iff, Float.not_lt_iff, hl, hg]
    simp only [Bool.false_eq_true, or_false, false_or]
    tauto
  by_cases h : v < p.least ∨ p.greatest < v
  · rw [Parameter.set, if_pos h, if_neg]
    exact fun h' => hiff.mpr h' h
  · rw [Parameter.set, if_neg h, if_pos (hiff.mp h)]

/-! ## Accepted configurations -/

namespace Config

/-- The configuration after an attempt to make a change, which leaves it as it was if it is refused. -/
def attempt (c : Config) (change : Change) : Config :=
  match c.set change with
  | .ok d => d
  | .error _ => c

/-- The configuration comes of the default one by attempted changes, or of the arguments on a command line. -/
inductive Accepted : Config → Prop
  | attempted (changes : List Change) : Accepted (changes.foldl attempt default)
  | arguments {a : CommandLine.Arguments} {c : Config} : a.config = .ok c → Accepted c

/-- The parameter has the bounds of a probability, and a value that it takes. -/
structure Admits (p : Parameter Float) : Prop where
  least : p.least = 0
  greatest : p.greatest = 1
  value : IsProbability p.value ∨ p.value.isNaN = true

/-- The parameters that are used as probabilities have their bounds. -/
structure Bounded (c : Config) : Prop where
  polarity : Admits c.polarityBias
  decision : Admits c.randomDecisionBias

theorem bounded_default : (default : Config).Bounded :=
  ⟨⟨rfl, rfl, Or.inl biased_default.polarity⟩, ⟨rfl, rfl, Or.inl biased_default.decision⟩⟩

theorem Admits.set {p q : Parameter Float} {v : Float} (h : Admits p) (hs : p.set v = .ok q) : Admits q := by
  have hnan : (0 : Float).isNaN = false ∧ (1 : Float).isNaN = false := by decide +kernel
  rw [Parameter.set_float_eq (h.least ▸ hnan.1) (h.greatest ▸ hnan.2)] at hs
  split at hs
  · rename_i hv
    cases hs
    rw [h.least, h.greatest] at hv
    exact ⟨h.least, h.greatest, hv⟩
  · cases hs

/-- A change sets one parameter, and leaves the others alone. -/
theorem Bounded.set {c d : Config} {change : Change} (h : c.Bounded) (hs : c.set change = .ok d) : d.Bounded := by
  cases change with
  | polarityBias v =>
    simp only [Config.set, bind, Except.bind, pure, Except.pure] at hs
    split at hs <;> cases hs
    exact ⟨h.polarity.set ‹_›, h.decision⟩
  | randomDecisionBias v =>
    simp only [Config.set, bind, Except.bind, pure, Except.pure] at hs
    split at hs <;> cases hs
    exact ⟨h.polarity, h.decision.set ‹_›⟩
  | _ =>
    simp only [Config.set, bind, Except.bind, pure, Except.pure] at hs
    split at hs <;> cases hs
    exact ⟨h.polarity, h.decision⟩

theorem Bounded.attempt {c : Config} (h : c.Bounded) (changes : List Change) :
    (changes.foldl Config.attempt c).Bounded := by
  induction changes generalizing c with
  | nil => exact h
  | cons change changes ih =>
    refine ih ?_
    unfold Config.attempt
    split
    · exact h.set ‹_›
    · exact h

theorem Bounded.setAll {c d : Config} {changes : List Change} (h : c.Bounded) (hs : c.setAll changes = .ok d) :
    d.Bounded := by
  unfold Config.setAll at hs
  induction changes generalizing c with
  | nil =>
    cases hs
    exact h
  | cons change changes ih =>
    rw [List.foldlM_cons] at hs
    cases hc : c.set change with
    | error e =>
      rw [hc] at hs
      cases hs
    | ok c' =>
      rw [hc] at hs
      exact ih (h.set hc) hs

theorem Accepted.bounded {c : Config} (h : Accepted c) : c.Bounded := by
  cases h with
  | attempted changes => exact bounded_default.attempt changes
  | arguments hc => exact bounded_default.setAll hc

end Config

/-! ## Calls that draw -/

/-- The error of an operation, if it gives one. -/
def Solver.failure {α : Type} (m : SolverM α) (s : Solver) : Option Error :=
  match m s with
  | .ok _ _ => none
  | .error e _ => some e

/-- The error of a call, if it gives one. -/
def Call.failure (call : Call) (s : Solver) : Option Error :=
  match call with
  | .freshAtom => Solver.failure Solver.freshAtom s
  | .ensureAtoms count => Solver.failure (Solver.ensureAtoms count) s
  | .addClause c => Solver.failure (Solver.addClause c) s
  | .readDimacs lines => Solver.failure (Dimacs.read lines) s
  | .askToStop _ | .reseed _ => none
  | .solve clock rounds => Solver.failure (Solver.solve clock rounds) s

/-- A sound state of a solver with the configuration. -/
def Configured (config : Config) (s : Solver) : Prop := s.config = config ∧ ∃ F, Sound F s

/-- From a sound state with the configuration, the operation does not fail for want of a probability. -/
abbrev Draws (config : Config) {α : Type} (m : SolverM α) : Prop :=
  Solver.Keeps (Configured config) (fun e s => Configured config s ∧ e ≠ .breach .invalidProbability) m

section Draws

variable {config : Config} (hp : IsProbability config.polarityBias.value)

theorem draws_throw {α : Type} {e : Error} (he : e ≠ .breach .invalidProbability) :
    Draws config (throw e : SolverM α) :=
  Solver.leads_throw fun _ h => ⟨h, he⟩

theorem draws_addClause (c : Clause) : Draws config (Solver.addClause c) := by
  rintro s ⟨rfl, F, h⟩
  rw [Solver.yields_iff]
  refine ⟨fun r t hr => ?_, fun e t hr => ?_⟩
  · have ht := (addClause_spec h c).of_ok hr
    exact ⟨ht.config, _, ht.sound⟩
  · rcases refuses_of_addClause h.toConsistent hr with ⟨hrefuses, rfl⟩ | ⟨rfl, -, rfl⟩
    · refine ⟨⟨rfl, F, h⟩, ?_⟩
      cases hrefuses <;> simp
    · exact ⟨⟨rfl, F, h.beginInput.sound⟩, by simp⟩

include hp

theorem draws_freshAtom : Draws config Solver.freshAtom := by
  rintro s ⟨rfl, F, h⟩
  refine Solver.yields_iff.mpr ⟨fun a t hr => ?_, fun e t hr => ?_⟩
  · have ht := ((freshAtom_spec h).of_ok hr).1
    exact ⟨ht.config, F, ht.sound⟩
  · have ht := (Solver.yields_iff.mp (freshAtom_spec h)).2 e t hr
    refine ⟨⟨ht.config, F, ht.sound⟩, ?_⟩
    obtain ⟨drawn, hdraw⟩ := Solver.exists_draw hp
    rw [Solver.freshAtom_eq h.agrees.aligned, hdraw] at hr
    simp only at hr
    split at hr <;> cases hr
    simp

theorem draws_ensureAtoms (count : Nat) : Draws config (Solver.ensureAtoms count) := by
  refine Solver.leads_get fun s _ => ?_
  induction count - s.atomCount with
  | zero => exact Solver.keeps_pure ()
  | succ n ih => exact Solver.keeps_bind (draws_freshAtom hp) fun _ => ih

theorem draws_allow (problem : Option Dimacs.Problem) (i : Int) : Draws config (Dimacs.allow problem i) :=
  Solver.leads_ite (draws_throw (by simp)) (Solver.leads_ite (Solver.keeps_pure ()) (draws_ensureAtoms hp _))

theorem draws_closeClause (problem : Option Dimacs.Problem) (ints : List Int) :
    Draws config (Dimacs.closeClause problem ints) := by
  have hall : Draws config (Dimacs.allowAll problem ints) := by
    induction ints with
    | nil => exact Solver.keeps_pure ()
    | cons i ints ih => exact Solver.keeps_bind (draws_allow hp problem i) fun _ => ih
  refine Solver.keeps_bind hall fun _ => ?_
  refine Solver.keeps_tryCatch (Solver.keeps_discard (draws_addClause _)) fun e s he => ?_
  split
  · exact he.1
  · exact he

theorem draws_readIntegers (number : Nat) (words : List (List Char)) (p : Dimacs.Progress) :
    Draws config (Dimacs.readIntegers number words p) := by
  induction words generalizing p with
  | nil => exact Solver.keeps_pure p
  | cons word words ih =>
    rw [Dimacs.readIntegers]
    split
    · exact draws_throw (by simp)
    · exact Solver.keeps_bind (draws_closeClause hp _ _) fun _ => ih _
    · exact ih _

theorem draws_readProblem (number : Nat) (line : List Char) (p : Dimacs.Progress) :
    Draws config (Dimacs.readProblem number line p) := by
  refine Solver.leads_ite (Solver.leads_throw_bind (fun _ h => ⟨h, by simp⟩) _) ?_
  split
  · exact draws_throw (by simp)
  · exact Solver.keeps_bind (draws_ensureAtoms hp _) fun _ => Solver.keeps_pure _

theorem draws_readLines (count : Nat) (lines : List Dimacs.Line) (p : Dimacs.Progress) :
    Draws config (Dimacs.readLines count lines p) := by
  induction lines generalizing count p with
  | nil => exact Solver.keeps_pure p
  | cons line lines ih =>
    cases line with
    | none => exact draws_throw (by simp)
    | some line =>
      rw [Dimacs.readLines]
      split
      · exact ih _ _
      · exact Solver.keeps_pure p
      · exact Solver.keeps_bind (draws_readProblem hp _ _ _) fun _ => ih _ _
      · exact Solver.keeps_bind (draws_readIntegers hp _ _ _) fun _ => ih _ _

theorem draws_read (lines : List Dimacs.Line) : Draws config (Dimacs.read lines) := by
  refine Solver.keeps_bind (draws_readLines hp _ _ _) fun p => ?_
  refine Solver.leads_ite (Solver.leads_throw_bind (fun _ h => ⟨h, by simp⟩) _) ?_
  exact Solver.leads_get fun _ _ => Solver.keeps_pure _

end Draws

theorem Solver.failure_eq_some_iff {α : Type} {m : SolverM α} {s : Solver} {e : Error} :
    failure m s = some e ↔ ∃ t, m s = .error e t := by
  unfold failure
  cases m s <;> simp

theorem Draws.failure {config : Config} {α : Type} {m : SolverM α} {s : Solver} (h : Draws config m)
    (hs : Configured config s) : Solver.failure m s ≠ some (.breach .invalidProbability) := by
  intro he
  obtain ⟨t, ht⟩ := Solver.failure_eq_some_iff.mp he
  exact (h.error hs ht).2 rfl

/-- With probabilities, no call fails for want of one. -/
theorem Config.Biased.failure {config : Config} (h : config.Biased) (calls : List Call) (call : Call) :
    call.failure (replay config calls).solver ≠ some (.breach .invalidProbability) := by
  have hs : Configured config (replay config calls).solver :=
    ⟨(faithful_replay config calls).config, _, (faithful_replay config calls).sound⟩
  cases call with
  | freshAtom => exact (draws_freshAtom h.polarity).failure hs
  | ensureAtoms count => exact (draws_ensureAtoms h.polarity count).failure hs
  | addClause c => exact (draws_addClause c).failure hs
  | readDimacs lines => exact (draws_read h.polarity lines).failure hs
  | askToStop interrupt => exact fun he => by cases he
  | reseed random => exact fun he => by cases he
  | solve clock rounds =>
    intro he
    obtain ⟨t, ht⟩ := Solver.failure_eq_some_iff.mp he
    have hanswer := solve_answer (faithful_replay config calls).sound (hs.1.symm ▸ h) clock rounds
    rw [Solver.answer, ht] at hanswer
    rcases hanswer with ⟨r, hr⟩ | hr <;> cases hr

/-- What is not a number is no probability to draw with. -/
theorem Generator.bool_of_isNaN (g : Generator) {p : Float} (h : p.isNaN = true) : g.bool p = none := by
  have hone : (p == 1) = false := Float.beq_of_isNaN (Or.inl h)
  have hzero : ¬(0 ≤ p ∧ p < 1) := fun hp => Float.not_le_of_isNaN (Or.inr h) hp.1
  rw [Generator.bool, if_neg (by simp [hone]), if_neg hzero]

/-! ## Main result -/

/-- A parameter takes a value of a linear order just if this lies within the bounds, one of any order also if it cannot
be compared with a bound, and so a floating-point value also if it is not a number. In each accepted configuration, the
parameters that are used as probabilities are probabilities or not numbers. If they are numbers, no call fails for want
of a probability; if they are not, no atom can be added, or no decision be made. -/
theorem accepted_settings {config : Config} (h : config.Accepted) :
    (∀ (α : Type) [LinearOrder α] (p : Parameter α) (v : α),
      p.set v = if p.least ≤ v ∧ v ≤ p.greatest then .ok { p with value := v } else .error (.outOfBounds p.name)) ∧
    (∀ (α : Type) [Preorder α] [DecidableLT α] (p : Parameter α) (v : α), p.set v = .ok { p with value := v } ↔
      (p.least ≤ v ∨ IncompRel (· ≤ ·) p.least v) ∧ (v ≤ p.greatest ∨ IncompRel (· ≤ ·) v p.greatest)) ∧
    (∀ (p : Parameter Float) (v : Float), p.least.isNaN = false → p.greatest.isNaN = false →
      p.set v = if (p.least ≤ v ∧ v ≤ p.greatest) ∨ v.isNaN = true then .ok { p with value := v }
        else .error (.outOfBounds p.name)) ∧
    (IsProbability config.polarityBias.value ∨ config.polarityBias.value.isNaN = true) ∧
    (IsProbability config.randomDecisionBias.value ∨ config.randomDecisionBias.value.isNaN = true) ∧
    (config.polarityBias.value.isNaN = false → config.randomDecisionBias.value.isNaN = false → ∀ calls call,
      Call.failure call (replay config calls).solver ≠ some (.breach .invalidProbability)) ∧
    (config.polarityBias.value.isNaN = true → ∀ calls,
      Call.failure .freshAtom (replay config calls).solver = some (.breach .invalidProbability)) ∧
    (config.randomDecisionBias.value.isNaN = true → ∀ calls,
      Solver.failure Solver.chooseLiteral (replay config calls).solver = some (.breach .invalidProbability)) := by
  obtain ⟨hpolarity, hdecision⟩ := h.bounded
  refine ⟨fun α _ p v => p.set_eq v, fun α _ _ p v => p.set_eq_ok_iff v,
    fun p v hl hg => Parameter.set_float_eq hl hg v,
    hpolarity.value, hdecision.value, fun hp hd => ?_, fun hp calls => ?_, fun hd calls => ?_⟩
  · have hbiased : config.Biased :=
      ⟨hpolarity.value.resolve_right (ne_true_of_eq_false hp), hdecision.value.resolve_right (ne_true_of_eq_false hd)⟩
    exact hbiased.failure
  · have hconfig := (faithful_replay config calls).config
    rw [Call.failure, Solver.failure, Solver.freshAtom_eq (faithful_replay config calls).sound.agrees.aligned,
      Solver.draw, hconfig, Generator.bool_of_isNaN _ hp]
  · have hconfig := (faithful_replay config calls).config
    refine Solver.failure_eq_some_iff.mpr ⟨(replay config calls).solver, Solver.eq_of_yields ?_⟩
    simp only [Solver.chooseLiteral, Solver.chooseAtom, Solver.yields_bind, Solver.yields_get, hconfig,
      Generator.bool_of_isNaN _ hd]
    rfl

/-- A probability within the bounds is set and one beyond them is refused, and no call fails for want of one. -/
theorem accepted_settings_half :
    let config := [Change.polarityBias 0.5, .randomDecisionBias 2].foldl Config.attempt default
    (config.polarityBias.value == 0.5) = true ∧ (config.randomDecisionBias.value == 0) = true ∧ ∀ calls call,
      Call.failure call (replay config calls).solver ≠ some (.breach .invalidProbability) := by
  refine ⟨by decide +kernel, by decide +kernel, ?_⟩
  obtain ⟨-, -, -, -, -, hcalls, -⟩ := accepted_settings (.attempted [.polarityBias 0.5, .randomDecisionBias 2])
  exact hcalls (by decide +kernel) (by decide +kernel)

/-- What is not a number lies within no bounds. It is taken all the same, also from the command line, and then a new
solver fails to add an atom. -/
theorem accepted_nan :
    let p := (default : Config).polarityBias
    let nan : Float := 0 / 0
    let config := (CommandLine.Arguments.parse ["--polarity-lean", "NaN", "formula.cnf"]).toOption.bind fun r =>
      r.2.config.toOption
    ¬(p.least ≤ nan ∧ nan ≤ p.greatest) ∧ ((p.set nan).toOption.map fun q => q.value.isNaN) = some true ∧
      (config.map fun c => c.polarityBias.value.isNaN) = some true ∧
      (config.map fun c => Solver.failure Solver.freshAtom (.ofConfig c)) =
        some (some (.breach .invalidProbability)) := by
  decide +kernel

end ClauseLearning
