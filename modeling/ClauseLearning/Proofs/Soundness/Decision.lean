import ClauseLearning.Proofs.Decision.Choice
import ClauseLearning.Proofs.Soundness.Assignment

/-!
# The choice of a decision

A probability lets a truth value be drawn (`bool_spec`). So `chooseLiteral` comes to a literal whose atom has no value,
or every atom has one and the formula is satisfiable (`chooseLiteral_spec`).
-/

namespace ClauseLearning

/-! ## Random truth values -/

theorem Float.lt_or_beq_of_le {p q : Float} (h : p ≤ q) : p < q ∨ (p == q) = true := by
  have h : p.toModel.unpack.le q.toModel.unpack = true := of_decide_eq_true h
  have hlt : p < q ↔ p.toModel.unpack.lt q.toModel.unpack = true := decide_eq_true_iff
  have heq : (p == q) = p.toModel.unpack.beq q.toModel.unpack := rfl
  rw [hlt, heq]
  unfold Float.Model.UnpackedFloat.le at h
  unfold Float.Model.UnpackedFloat.lt Float.Model.UnpackedFloat.beq
  revert h
  cases Float.Model.UnpackedFloat.compare p.toModel.unpack q.toModel.unpack with
  | none => simp
  | some o => cases o <;> simp

/-- A truth value is drawn with a probability. -/
theorem Generator.bool_spec (g : Generator) {p : Float} (h : IsProbability p) : ∃ b g', g.bool p = some (b, g') := by
  unfold Generator.bool
  split
  · exact ⟨true, g, rfl⟩
  · rename_i hne
    rw [if_pos ⟨h.1, (Float.lt_or_beq_of_le h.2).resolve_right hne⟩]
    exact ⟨_, _, rfl⟩

theorem randomBool_spec {s : Solver} (p : Float) :
    Solver.Yields (Solver.randomBool p) s (fun _ t => Alike s t)
      fun e t => e = .breach .invalidProbability ∧ t = s ∧ ¬IsProbability p := by
  simp only [Solver.randomBool, Solver.yields_bind, Solver.yields_get]
  cases hb : s.random.bool p with
  | none =>
    refine ⟨rfl, rfl, fun hp => ?_⟩
    obtain ⟨b, g, hg⟩ := s.random.bool_spec hp
    rw [hb] at hg
    cases hg
  | some r => exact Alike.other s _ r.2 _

/-! ## The literal to decide on -/

variable {F : List Clause} {s t : Solver}

/-- Every atom has a value, and nothing waits for propagation. -/
structure Complete (s : Solver) : Prop where
  valued : ∀ x < s.atoms.size, s.atoms.valueOf x ≠ none
  exhausted : s.trail.head = s.trail.literals.size

theorem Agrees.openAtoms_eq_nil (h : Agrees s.atoms s.trail) (hs : s.openAtoms = []) :
    ∀ x < s.atoms.size, s.atoms.valueOf x ≠ none := by
  intro x hx hv
  have hne : x ≠ topAtom := by
    rintro rfl
    rw [h.top] at hv
    cases hv
  have := Solver.mem_openAtoms.mpr ⟨hne, hx, hv⟩
  rw [hs] at this
  cases this

/-- The literal of an atom that was chosen, or the end of the search. -/
def Decided (F : List Clause) (s : Solver) : Option Literal → Solver → Prop
  | some l, t => Alike s t ∧ l.atom ≠ topAtom ∧ l.atom < t.atoms.size ∧ t.atoms.valueOf l.atom = none
  | none, t => Sound F t ∧ Complete t ∧ t.status = .satisfiable ∧ t.config = s.config ∧ t.atoms.size = s.atoms.size

theorem chooseLiteral_spec (h : Sound F s) (hh : s.trail.head = s.trail.literals.size)
    (hs : s.status ≠ .unsatisfiable) : Solver.Yields Solver.chooseLiteral s (Decided F s) (Failed F s) := by
  have halike : ∀ {atoms : AtomTable}, s.atoms.SameValues atoms → ∀ random, Alike s { s with atoms, random } :=
    fun ha _ => ⟨rfl, rfl, rfl, rfl, ha, .refl _, id⟩
  refine (Solver.yields_chooseLiteral h.agrees.tracks).imp (fun chosen t ht => ?_) fun e t ht => ?_
  · have hsame := ht.atom.sameValues
    have hrest := ht.rest
    rw [ht.status] at hrest
    cases chosen with
    | none =>
      have hall := h.agrees.openAtoms_eq_nil ht.atom.left
      rw [hrest]
      refine ⟨((halike hsame t.random).sound h).withStatus hs (by simp), ⟨?_, hh⟩, rfl, rfl, hsame.size_eq⟩
      show ∀ x < t.atoms.size, t.atoms.valueOf x ≠ none
      rw [hsame.size_eq, hsame.valueOf_eq]
      exact hall
    | some l =>
      obtain ⟨hne, hlt, hv⟩ := Solver.mem_openAtoms.mp ht.atom.left
      rw [← hsame.size_eq] at hlt
      rw [← hsame.valueOf_eq] at hv
      rw [hrest]
      exact ⟨halike hsame t.random, hne, hlt, hv⟩
  · have ht' := halike ht.sameValues t.random
    rw [← ht.rest] at ht'
    refine ⟨ht'.sound h, ht'.steady, Or.inr ⟨ht.error, fun hbias => ?_⟩⟩
    rcases ht.cause with ⟨hnone, -⟩ | ⟨-, g, hnone⟩
    · obtain ⟨b, g, hg⟩ := s.random.bool_spec hbias.decision
      rw [hnone] at hg
      cases hg
    · obtain ⟨b, g', hg⟩ := g.bool_spec hbias.polarity
      rw [hnone] at hg
      cases hg

end ClauseLearning
