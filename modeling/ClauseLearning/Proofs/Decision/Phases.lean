import ClauseLearning.Proofs.InStep

/-!
# Phases

The phase of an atom is its value, or the previous one if it has none. An atom gets a phase when it is added, and
another one only when it gets a value; when the value is dropped, the phase stays. So whatever led to an atom
table (`AtomTable.Past`), the previous value of an atom without a value is the one that it had last, or the
initial one (`Past.previousOf_eq`).
-/

namespace ClauseLearning

namespace AtomTable

variable {config : Config} {past : List Literal} {a : AtomTable} {x : Nat}

/-- From a new table, changes led to this one, in which the literals of the past got true, the last one first. A new
atom counts with its initial value. -/
inductive Past (config : Config) : List Literal → AtomTable → Prop
  | new : Past config [] (.ofConfig config)
  | valued {past : List Literal} {a : AtomTable} {l : Literal} (level : Nat) (reason : Option ClauseKey)
    (h : Past config past a) (ho : a.isOpen l = .ok true) : Past config (l :: past) (a.value l level reason)
  | dropped {past : List Literal} {a : AtomTable} (x : Nat) (h : Past config past a) : Past config past (a.dropValue x)
  | grown {past : List Literal} {a : AtomTable} (previous : Bool) (h : Past config past a) :
    Past config (⟨a.size, previous⟩ :: past) (a.grow previous)
  | other {past : List Literal} {a b : AtomTable} (h : Past config past a) (hs : a.SameValues b) : Past config past b

/-- The polarity with which an atom occurs last. -/
def lastPhase (past : List Literal) (x : Nat) : Option Bool := (past.find? (·.atom = x)).map (·.polarity)

theorem lastPhase_cons (l : Literal) (past : List Literal) (x : Nat) :
    lastPhase (l :: past) x = if x = l.atom then some l.polarity else lastPhase past x := by
  by_cases hx : x = l.atom
  · simp [lastPhase, hx]
  · simp [lastPhase, hx, Ne.symm hx]

/-- The value of an atom, or the previous one if it has none. -/
def phaseOf (a : AtomTable) (x : Nat) : Option Bool := (a.valueOf x).or (a.previousOf x)

theorem phaseOf_value {l : Literal} (hl : l.atom < a.size) (n : Nat) (r : Option ClauseKey) (x : Nat) :
    (a.value l n r).phaseOf x = if x = l.atom then some l.polarity else a.phaseOf x := by
  have hprevious : (a.value l n r).previousOf x = a.previousOf x := rfl
  rw [phaseOf, valueOf_value hl, hprevious]
  split
  · rfl
  · rfl

/-- A value that is dropped becomes the previous one. -/
theorem phaseOf_dropValue (ha : a.previous.size = a.size) (x y : Nat) : (a.dropValue x).phaseOf y = a.phaseOf y := by
  rw [phaseOf, valueOf_dropValue, previousOf_dropValue]
  split
  · cases hv : a.valueOf y with
    | none =>
      rw [phaseOf, hv]
      cases a.previousOf y <;> rfl
    | some p =>
      have hlt : y < a.previous.size := by
        rw [ha]
        exact lt_size_of_valueOf hv
      have hprevious : a.previousOf y = some a.previous[y] := Array.getElem?_eq_getElem hlt
      rw [phaseOf, hv, hprevious]
      rfl
  · rfl

theorem phaseOf_grow (ha : a.previous.size = a.size) (previous : Bool) (x : Nat) :
    (a.grow previous).phaseOf x = if x = a.size then some previous else a.phaseOf x := by
  have hprevious : (a.grow previous).previousOf x = if x = a.size then some previous else a.previousOf x := by
    rw [previousOf, grow, ← ha, Array.getElem?_push]
    rfl
  rw [phaseOf, valueOf_grow, hprevious]
  split
  · rename_i hx
    have hnone : a.valueOf x = none := by
      by_contra hv
      obtain ⟨p, hp⟩ := Option.ne_none_iff_exists'.mp hv
      have := lt_size_of_valueOf hp
      omega
    rw [hnone]
    rfl
  · rfl

/-- The phase of an atom is the polarity with which it was valued last, or its initial one. -/
theorem Past.phaseOf_eq (h : Past config past a) :
    a.previous.size = a.size ∧ ∀ x ≠ topAtom, a.phaseOf x = lastPhase past x := by
  induction h with
  | new =>
    refine ⟨rfl, fun x hx => ?_⟩
    cases x with
    | zero => exact absurd rfl hx
    | succ x => rfl
  | @valued past a l level reason _ ho ih =>
    have hl : l.atom < a.size := (isOpen_iff.mp ho).1
    refine ⟨by rw [size_value]; exact ih.1, fun x hx => ?_⟩
    rw [phaseOf_value hl, lastPhase_cons, ih.2 x hx]
  | @dropped past a y _ ih =>
    refine ⟨by rw [size_dropValue]; simpa [dropValue] using ih.1, fun x hx => ?_⟩
    rw [phaseOf_dropValue ih.1, ih.2 x hx]
  | @grown past a previous _ ih =>
    refine ⟨by rw [size_grow]; simp [grow, ih.1], fun x hx => ?_⟩
    rw [phaseOf_grow ih.1, lastPhase_cons, ih.2 x hx]
  | @other past a b _ hs ih =>
    refine ⟨by rw [hs.previous, hs.size_eq]; exact ih.1, fun x hx => ?_⟩
    rw [phaseOf, hs.valueOf_eq, previousOf, hs.previous]
    exact ih.2 x hx

/-- The previous value of an atom without a value is the one that it had last, or the initial one. -/
theorem Past.previousOf_eq (h : Past config past a) (hx : x ≠ topAtom) (hv : a.valueOf x = none) :
    a.previousOf x = lastPhase past x := by
  rw [← h.phaseOf_eq.2 x hx, phaseOf, hv, Option.none_or]

theorem Past.dropAll (h : Past config past a) (ls : List Literal) : Past config past (a.dropAll ls) := by
  induction ls generalizing a with
  | nil => exact h
  | cons l ls ih => exact ih (h.dropped l.atom)

end AtomTable

/-! ## The past of a solver -/

namespace Solver

open AtomTable

variable {config : Config} {past : List Literal} {s : Solver}

/-- More literals may have got true since. -/
structure Since (config : Config) (past : List Literal) (s : Solver) : Prop extends InStep s where
  led : ∃ recent, Past config (recent ++ past) s.atoms

theorem Since.inStep {t : Solver} (h : Since config past s) (ht : InStep t) (hs : s.atoms.SameValues t.atoms) :
    Since config past t := ⟨ht, h.led.imp fun _ hl => hl.other hs⟩

theorem Since.same {t : Solver} (h : Since config past s) (ht : InStep t) (ha : t.atoms = s.atoms) :
    Since config past t :=
  h.inStep ht (ha ▸ .refl s.atoms)

theorem keptByChanges_since (config : Config) (past : List Literal) :
    KeptByChanges (Since config past) fun _ s => Since config past s where
  tracks h := h.tracks
  other h hg ha hw hc ht hn := h.same (keptByChanges_inStep.other h.toInStep hg ha hw hc ht hn) ha
  bumpedAtom x h := h.inStep (keptByChanges_inStep.bumpedAtom x h.toInStep) (sameValues_bumpRelative _ x)
  decayedAtoms h := h.inStep (keptByChanges_inStep.decayedAtoms h.toInStep) (sameValues_decayActivity _)
  popped h := h.inStep (keptByChanges_inStep.popped h.toInStep) (sameValues_popUnvalued _ _)
  assigned {s l} reason h ho := ⟨h.toInStep.assigned ho reason, by
    obtain ⟨recent, hl⟩ := h.led
    exact ⟨l :: recent, hl.valued _ reason ho⟩⟩
  openLevel h := h.same (keptByChanges_inStep.openLevel h.toInStep) rfl
  backjumped level h := ⟨h.toInStep.backjumped level, h.led.imp fun _ hl => hl.dropAll _⟩
  propagated h hlt := h.same (keptByChanges_inStep.propagated h.toInStep hlt) rfl
  watches h hw := h.same (keptByChanges_inStep.watches h.toInStep hw) rfl
  inspected h hc hv := h.same (keptByChanges_inStep.inspected h.toInStep hc hv) rfl
  bumped key h := h.same (keptByChanges_inStep.bumped key h.toInStep) rfl
  decayed h := h.same (keptByChanges_inStep.decayed h.toInStep) rfl
  reduced count h := h.same (keptByChanges_inStep.reduced count h.toInStep) rfl
  unreduced count h he := h.same (keptByChanges_inStep.unreduced count h.toInStep he) rfl
  failed h _ := h

theorem keptByLearning_since (config : Config) (past : List Literal) :
    KeptByLearning (Since config past) (Since config past) fun _ s => Since config past s where
  before := (keptByChanges_since config past).toKeptByWork
  after := (keptByChanges_since config past).toKeptByWork
  stored h hi := h.same (keptByLearning_inStep.stored h.toInStep hi) rfl
  refused h hc hi := h.same (keptByLearning_inStep.refused h.toInStep hc hi) rfl
  noted h hn := h.same (keptByLearning_inStep.noted h.toInStep hn) rfl
  advanced := (keptByChanges_since config past).advance fun h => h

theorem keptByAdditions_since (config : Config) (past : List Literal) : KeptByAdditions (Since config past) where
  work := (keptByChanges_since config past).toKeptByWork
  grown {s} previous h _ _ := ⟨h.toInStep.grow previous, by
    obtain ⟨recent, hl⟩ := h.led
    exact ⟨⟨s.atoms.size, previous⟩ :: recent, hl.grown previous⟩⟩
  inserted c h := h.same (keptByAdditions_inStep.inserted c h.toInStep) rfl

/-- Whatever operations led to a solver, its atoms have a past. -/
theorem exists_past (h : Reaches (.ofConfig config) s) : ∃ past, InStep s ∧ Past config past s.atoms := by
  obtain ⟨operations, rfl⟩ := h
  have hsince : Since config [] ((Solver.ofConfig config).performEach operations) :=
    holds_performEach (keptByLearning_since config []) (keptByAdditions_since config [])
      ⟨inStep_ofConfig config, [], .new⟩
      operations
  obtain ⟨past, hpast⟩ := hsince.led
  exact ⟨past, hsince.toInStep, List.append_nil past ▸ hpast⟩

end Solver

end ClauseLearning
