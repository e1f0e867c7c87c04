import ClauseLearning.Proofs.AtomTable.Operations
import ClauseLearning.Proofs.Outcome
import ClauseLearning.Proofs.Trail.Agreement
import ClauseLearning.Solver.Decision

/-!
# Choices

`Generator.choose` gives an element of any list that is not empty (`choose_spec`). So an atom without a value is chosen
as long as there is one (`yields_chooseAtom`), and a literal of it (`yields_chooseLiteral`), unless a truth value cannot
be drawn. Nothing changes but what is on the heap of activities, the generator and, if there is no such atom, the
status. All this takes only that the trail lists what the atom table makes true.
-/

namespace ClauseLearning

/-! ## Random choices -/

namespace Generator

/-- Whether a truth value can be drawn does not depend on the generator. -/
theorem exists_bool {p : Float} (h : ∃ g : Generator, (g.bool p).isSome = true) (g : Generator) :
    ∃ b g', g.bool p = some (b, g') := by
  obtain ⟨g', h⟩ := h
  unfold Generator.bool at h ⊢
  split at h
  · rename_i hp
    rw [if_pos hp]
    exact ⟨_, _, rfl⟩
  · rename_i hp
    rw [if_neg hp]
    split at h
    · rename_i hr
      rw [if_pos hr]
      exact ⟨_, _, rfl⟩
    · cases h

end Generator

namespace Flipper

variable {α : Type} {x : α} {xs : List α} {choice : Option α} {k : Nat} {f : Flipper}

theorem chooseFrom_mem (h : (chooseFrom k choice xs f).1 = some x) : choice = some x ∨ x ∈ xs := by
  induction xs generalizing k choice f with
  | nil => exact Or.inl h
  | cons y xs ih =>
    rw [chooseFrom] at h
    split at h
    · rcases ih h with heq | hm
      · rw [Option.some.inj heq]
        exact Or.inr List.mem_cons_self
      · exact Or.inr (List.mem_cons_of_mem y hm)
    · exact (ih h).imp_right (List.mem_cons_of_mem y)

theorem chooseFrom_some (k : Nat) (x : α) (xs : List α) (f : Flipper) :
    ∃ y, (chooseFrom k (some x) xs f).1 = some y := by
  induction xs generalizing k x f with
  | nil => exact ⟨x, rfl⟩
  | cons y xs ih =>
    rw [chooseFrom]
    split
    · exact ih _ _ _
    · exact ih _ _ _

/-- The first element replaces nothing with certainty. -/
theorem oneIn_one (f : Flipper) : ∃ f', f.oneIn 1 = (true, f') := by
  have hflips : min (Nat.log2 1) 32 = 0 := by decide
  have hheads :
      f.heads 0 = (true, { f with chunk := f.chunk <<< (0 : Nat).toUInt32, remaining := f.remaining - 0 }) := by
    simp [heads, heads?]
  unfold oneIn
  simp only [hflips, hheads]
  have hrounds : maxRounds = 4611686018427387903 + 1 := rfl
  rw [hrounds, play, if_pos (by decide)]
  exact ⟨_, rfl⟩

end Flipper

/-- The choice from a list that is not empty is one of its elements. -/
theorem Generator.choose_spec {α : Type} (g : Generator) (xs : List α) :
    (xs = [] ∧ (g.choose xs).1 = none) ∨ ∃ x ∈ xs, (g.choose xs).1 = some x := by
  cases xs with
  | nil => exact Or.inl ⟨rfl, rfl⟩
  | cons x xs =>
    right
    have hsome : ∃ y, (g.choose (x :: xs)).1 = some y := by
      obtain ⟨f, hf⟩ := Flipper.oneIn_one { source := g }
      simp only [Generator.choose, Flipper.chooseFrom, Nat.zero_add, hf]
      exact Flipper.chooseFrom_some _ _ _ _
    obtain ⟨y, hy⟩ := hsome
    have hmem : none = some y ∨ y ∈ x :: xs := Flipper.chooseFrom_mem (k := 0) hy
    exact ⟨y, hmem.resolve_left (by simp), hy⟩

/-! ## Open atoms -/

theorem Valuation.mem_unvalued {v : Valuation} {x : Nat} : x ∈ v.unvalued ↔ v[x]? = some none := by
  simp only [Valuation.unvalued, List.mem_filterMap, Prod.exists, List.mem_zipIdx_iff_getElem?, Array.getElem?_toList]
  constructor
  · rintro ⟨value, a, hv, ha⟩
    split at ha
    · rename_i hn
      cases ha
      rw [hv, Option.isNone_iff_eq_none.mp hn]
    · cases ha
  · intro h
    exact ⟨none, x, h, rfl⟩

variable {s t : Solver} {x : Nat}

theorem valueOf_eq_none_iff {a : AtomTable} (hx : x < a.size) : a.valueOf x = none ↔ a.valuation[x]? = some none := by
  unfold AtomTable.size at hx
  rw [AtomTable.valueOf, Valuation.valueOf, Array.getElem?_eq_getElem hx]
  simp

namespace Solver

/-- The open atoms are those without a value. -/
theorem mem_openAtoms :
    x ∈ s.openAtoms ↔ x ≠ topAtom ∧ x < s.atoms.size ∧ s.atoms.valueOf x = none := by
  rw [Solver.openAtoms, List.mem_filter, Valuation.mem_unvalued, bne_iff_ne, and_comm]
  refine and_congr_right fun _ => ⟨fun hx => ?_, fun ⟨hx, hv⟩ => (valueOf_eq_none_iff hx).mp hv⟩
  have hlt : x < s.atoms.size := (Array.getElem?_eq_some_iff.mp hx).1
  exact ⟨hlt, (valueOf_eq_none_iff hlt).mpr hx⟩

theorem openAtoms_eq_nil_iff : s.openAtoms = [] ↔ ∀ x ≠ topAtom, x < s.atoms.size → s.atoms.valueOf x ≠ none := by
  rw [List.eq_nil_iff_forall_not_mem]
  simp only [mem_openAtoms, not_and]

/-! ## The choice of an atom -/

theorem yields_mostActive {ok : Option Nat → Solver → Prop} {err : Error → Solver → Prop} (h : s.atoms.Aligned) :
    Yields mostActive s ok err ↔ ok (s.atoms.popUnvalued s.atoms.activity.activeCount).1
      { s with atoms := (s.atoms.popUnvalued s.atoms.activity.activeCount).2 } :=
  yields_onAtoms_of_ok (AtomM.popUnvalued_eq h _)

/-- What the choice of an atom comes to, and what atom table it leaves. A choice at random
leaves the atom table as it was. -/
structure AtomChosen (random : Generator) (s : Solver) (chosen : Option Nat) (atoms : AtomTable) : Prop where
  left : match chosen with
    | none => s.openAtoms = []
    | some x => x ∈ s.openAtoms
  drawn : (∃ g, random.bool s.config.randomDecisionBias.value = some (true, g)) ∧ atoms = s.atoms ∨
    (∃ g, random.bool s.config.randomDecisionBias.value = some (false, g)) ∧
      atoms = (s.atoms.popUnvalued s.atoms.activity.activeCount).2 ∧
      chosen = (s.atoms.popUnvalued s.atoms.activity.activeCount).1.or s.openAtoms.head?

theorem AtomChosen.sameValues {random : Generator} {chosen : Option Nat} {atoms : AtomTable}
    (h : AtomChosen random s chosen atoms) : s.atoms.SameValues atoms := by
  rcases h.drawn with ⟨-, rfl⟩ | ⟨-, rfl, -⟩
  · exact .refl s.atoms
  · exact AtomTable.sameValues_popUnvalued _ _

/-- The atom is a random one or the most active one, and if none is left on the heap, the first one. -/
theorem yields_chooseAtom (h : Tracks s.atoms s.trail) (random : Generator) :
    Yields (chooseAtom random) s (fun r t => AtomChosen random s r.1 t.atoms ∧ t = { s with atoms := t.atoms })
      fun e t => e = .breach .invalidProbability ∧ t = s ∧ random.bool s.config.randomDecisionBias.value = none := by
  simp only [chooseAtom, yields_bind, yields_get]
  cases hb : random.bool s.config.randomDecisionBias.value with
  | none => exact ⟨rfl, rfl, rfl⟩
  | some r =>
    obtain ⟨b, random'⟩ := r
    cases b with
    | true =>
      refine yields_bind.mpr (yields_get.mpr (yields_pure.mpr ⟨⟨?_, Or.inl ⟨⟨random', hb⟩, rfl⟩⟩, rfl⟩))
      rcases random'.choose_spec s.openAtoms with ⟨hnil, hnone⟩ | ⟨x, hx, hsome⟩
      · rw [hnone]
        exact hnil
      · rw [hsome]
        exact hx
    | false =>
      rw [yields_bind, yields_mostActive h.aligned]
      cases hx : (AtomTable.popUnvalued s.atoms.activity.activeCount s.atoms).1 with
      | some x =>
        obtain ⟨hlt, hv⟩ := h.aligned.popUnvalued_some hx
        refine yields_pure.mpr ⟨⟨mem_openAtoms.mpr ⟨?_, hlt, hv⟩, Or.inr ⟨⟨random', hb⟩, rfl, ?_⟩⟩, rfl⟩
        · rintro rfl
          rw [h.top] at hv
          cases hv
        · rw [hx]
          rfl
      | none =>
        have hopen : openAtoms { s with atoms := (s.atoms.popUnvalued s.atoms.activity.activeCount).2 } =
            s.openAtoms := by
          rw [openAtoms, (AtomTable.sameValues_popUnvalued s.atoms.activity.activeCount s.atoms).valuation, openAtoms]
        refine yields_bind.mpr (yields_get.mpr (yields_pure.mpr ⟨⟨?_, Or.inr ⟨⟨random', hb⟩, rfl, ?_⟩⟩, rfl⟩))
        · rw [hopen]
          cases hs : s.openAtoms with
          | nil => rfl
          | cons x xs => exact List.mem_cons_self
        · rw [hx, hopen]
          rfl

/-! ## The choice of a literal -/

/-- What the choice of a literal comes to. -/
structure LiteralChosen (s : Solver) (chosen : Option Literal) (t : Solver) : Prop where
  atom : AtomChosen s.random s (chosen.map (·.atom)) t.atoms
  status : t.status = if chosen.isSome then s.status else .satisfiable
  phase : s.config.phaseSaving.value = true → ∀ l ∈ chosen, s.atoms.previousOf l.atom = some l.polarity
  rest : t = { s with atoms := t.atoms, random := t.random, status := t.status }

/-- What it comes to if there is no probability for a random choice, or none for a polarity. -/
structure NotChosen (s : Solver) (e : Error) (t : Solver) : Prop where
  error : e = .breach .invalidProbability
  cause : s.random.bool s.config.randomDecisionBias.value = none ∧ t = s ∨
    s.openAtoms ≠ [] ∧ ∃ g : Generator, g.bool s.config.polarityBias.value = none
  sameValues : s.atoms.SameValues t.atoms
  rest : t = { s with atoms := t.atoms, random := t.random }

/-- A literal of the atom gets the previous value of it, or a random one. -/
theorem yields_chooseLiteral (h : Tracks s.atoms s.trail) :
    Yields chooseLiteral s (LiteralChosen s) (NotChosen s) := by
  simp only [chooseLiteral, yields_bind, yields_get]
  refine (yields_chooseAtom h s.random).imp (fun r t ht => ?_) fun e t ht => ?_
  · obtain ⟨x, random⟩ := r
    obtain ⟨hatom, hrest⟩ := ht
    have hconfig : t.config = s.config := by rw [hrest]
    simp only [yields_modify]
    cases x with
    | none =>
      exact yields_bind.mpr (yields_modify.mpr (yields_pure.mpr
        ⟨hatom, rfl, fun _ l hl => (by cases hl), by rw [hrest]⟩))
    | some x =>
      have hstatus : t.status = s.status := by rw [hrest]
      obtain ⟨-, hlt, -⟩ := mem_openAtoms.mp hatom.left
      simp only [yields_bind, yields_get, hconfig]
      split
      · have hprevious : t.atoms.previousOf x = s.atoms.previousOf x := by
          rw [AtomTable.previousOf, hatom.sameValues.previous]
          rfl
        have hx : x < s.atoms.previous.size := by
          rw [h.aligned.previous]
          exact hlt
        have hsome : s.atoms.previousOf x = some s.atoms.previous[x] := Array.getElem?_eq_getElem hx
        simp only [yields_bind, yields_get, hprevious, hsome, yields_pure]
        refine ⟨hatom, hstatus, fun _ l hl => ?_, by rw [hrest]⟩
        cases hl
        exact hsome
      · rename_i hoff
        simp only [randomBool, yields_bind, yields_get]
        cases hp : random.bool s.config.polarityBias.value with
        | none =>
          refine ⟨rfl, Or.inr ⟨fun hnil => ?_, random, hp⟩, hatom.sameValues, by rw [hrest]⟩
          have hmem : x ∈ s.openAtoms := hatom.left
          rw [hnil] at hmem
          cases hmem
        | some r =>
          simp only [yields_bind, yields_modify, yields_pure]
          exact ⟨hatom, hstatus, fun hon => absurd hon hoff, by rw [hrest]⟩
  · obtain ⟨he, rfl, hb⟩ := ht
    exact ⟨he, Or.inl ⟨hb, rfl⟩, .refl _, rfl⟩

end Solver

end ClauseLearning
