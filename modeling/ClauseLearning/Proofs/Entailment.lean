import ClauseLearning.Clause

/-!
# Models and entailment

An `Assignment` gives every atom a value. It models a formula, a list of clauses, if it makes a literal of each of them
true; a clause is entailed by a formula if all models of the formula make it true (`Entails`). The solver is not
mentioned here: what it stores, derives and answers is compared with these notions.
-/

namespace ClauseLearning

/-- A value for every atom. -/
abbrev Assignment := Nat → Bool

/-- The assignment makes the literal true. -/
def Literal.TrueIn (l : Literal) (σ : Assignment) : Prop := σ l.atom = l.polarity

/-- The assignment makes some literal of the clause true. -/
def Clause.TrueIn (c : Clause) (σ : Assignment) : Prop := ∃ l ∈ c, l.TrueIn σ

/-- The assignment makes all clauses true. -/
def Models (σ : Assignment) (F : List Clause) : Prop := ∀ c ∈ F, c.TrueIn σ

/-- Some assignment makes all clauses true. -/
def Satisfiable (F : List Clause) : Prop := ∃ σ, Models σ F

/-- Every model of the formula makes the clause true. -/
def Entails (F : List Clause) (c : Clause) : Prop := ∀ σ, Models σ F → c.TrueIn σ

variable {σ : Assignment} {F G : List Clause} {c d : Clause} {l : Literal}

/-- Of a literal and its negation exactly one is true. -/
theorem trueIn_neg : (-l).TrueIn σ ↔ ¬l.TrueIn σ := by
  simp only [Literal.TrueIn, Literal.atom_neg, Literal.polarity_neg]
  cases σ l.atom <;> cases l.polarity <;> simp

theorem Clause.TrueIn.mono (h : c.TrueIn σ) (hc : ∀ l ∈ c, l ∈ d) : d.TrueIn σ := by
  obtain ⟨l, hl, hs⟩ := h
  exact ⟨l, hc l hl, hs⟩

theorem Models.mono (h : Models σ G) (hF : ∀ c ∈ F, c ∈ G) : Models σ F := fun c hc => h c (hF c hc)

/-- A clause of the formula is entailed. -/
theorem entails_of_mem (h : c ∈ F) : Entails F c := fun _ hs => hs c h

theorem Entails.weaken (h : Entails F c) (hc : ∀ l ∈ c, l ∈ d) : Entails F d := fun σ hs => (h σ hs).mono hc

theorem Entails.mono (h : Entails F c) (hF : ∀ c ∈ F, c ∈ G) : Entails G c := fun σ hs => h σ (hs.mono hF)

/-- A formula that entails the empty clause has no model. -/
theorem Entails.not_satisfiable (h : Entails F []) : ¬Satisfiable F := by
  rintro ⟨σ, hs⟩
  obtain ⟨l, hl, _⟩ := h σ hs
  cases hl

end ClauseLearning
