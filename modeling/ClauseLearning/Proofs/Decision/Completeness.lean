import ClauseLearning.Proofs.Decision.Phases
import ClauseLearning.Proofs.Decision.Poise
import ClauseLearning.Proofs.Propagation.Antecedents

/-!
# Decisions

Between decisions the atom table is poised, so that all atoms without a value are at hand for the next decision
(`Prepared`). Each kind of change keeps this, and a decision takes an atom off the heap and gives it a value
(`keeps_chooseLiteral_bind`). Where a round comes to a decision (`reachDecision`), the search ends just if all atoms
have a value, and otherwise the literal is one of an atom without a value, with its last phase if phases are saved. If
the choice is not random then the atom is the most active one, and comes from the heap
(`decision_complete_and_most_active`).
-/

namespace ClauseLearning

variable {config : Config} {chosen : Option Nat} {s t : Solver} {l : Literal}

/-- The parts are in step, the atom table is poised but for an atom that may have been chosen, and with atoms there is a
probability for their polarities, as each of them was added with a polarity that was drawn. -/
structure Prepared (config : Config) (chosen : Option Nat) (s : Solver) : Prop extends InStep s where
  poised : s.atoms.Poised chosen
  config_eq : s.config = config
  drawable : 1 < s.atoms.size → ∃ g : Generator, (g.bool config.polarityBias.value).isSome = true

theorem prepared_ofConfig (config : Config) : Prepared config none (.ofConfig config) where
  toInStep := inStep_ofConfig config
  poised := AtomTable.poised_ofConfig config
  config_eq := rfl
  drawable hlt := absurd (show 1 < 1 from hlt) (Nat.lt_irrefl 1)

namespace Prepared

/-- What does not matter for decisions may change. -/
theorem same (h : Prepared config chosen s) (ht : InStep t) (ha : t.atoms = s.atoms) (hc : t.config = s.config) :
    Prepared config chosen t where
  toInStep := ht
  poised := ha ▸ h.poised
  config_eq := hc.trans h.config_eq
  drawable hlt := h.drawable (ha ▸ hlt)

/-- Another atom table, as large, may do as well. -/
theorem withAtoms {chosen' : Option Nat} (h : Prepared config chosen s) (ht : InStep t) (hp : t.atoms.Poised chosen')
    (hs : t.atoms.size = s.atoms.size) (hc : t.config = s.config) : Prepared config chosen' t where
  toInStep := ht
  poised := hp
  config_eq := hc.trans h.config_eq
  drawable hlt := h.drawable (hs ▸ hlt)

/-- The atom that was chosen gets a value. -/
theorem assigned (h : Prepared config chosen s) (hchosen : ∀ x, chosen = some x → x = l.atom)
    (ho : s.atoms.isOpen l = .ok true) (reason : Option ClauseKey) : Prepared config none (s.assigned l reason) := by
  obtain ⟨-, hk, -⟩ := h.open_of_isOpen ho
  exact h.withAtoms (h.toInStep.assigned ho reason) (h.poised.value hchosen hk reason)
    (AtomTable.size_value _ _ _ _) rfl

end Prepared

namespace Solver

theorem keptByWork_prepared (config : Config) :
    KeptByWork (Prepared config none) fun _ s => Prepared config none s where
  tracks h := h.tracks
  other h hg ha hw hc ht hn := h.same (keptByChanges_inStep.other h.toInStep hg ha hw hc ht hn) ha hg
  bumpedAtom x h :=
    h.withAtoms (keptByChanges_inStep.bumpedAtom x h.toInStep) (h.poised.bumpRelative h.tracks.aligned x)
    (AtomTable.sameValues_bumpRelative _ x).size_eq rfl
  decayedAtoms h := h.withAtoms (keptByChanges_inStep.decayedAtoms h.toInStep) (h.poised.decayActivity h.tracks.aligned)
    (AtomTable.sameValues_decayActivity _).size_eq rfl
  assigned reason h ho := h.assigned (fun x hx => by cases hx) ho reason
  openLevel h := h.same (keptByChanges_inStep.openLevel h.toInStep) rfl rfl
  backjumped level h := h.withAtoms (h.toInStep.backjumped level) (h.poised.dropAll h.tracks.aligned _)
    (AtomTable.size_dropAll _ _) rfl
  propagated h hlt := h.same (keptByChanges_inStep.propagated h.toInStep hlt) rfl rfl
  watches h hw := h.same (keptByChanges_inStep.watches h.toInStep hw) rfl rfl
  inspected h hc hv := h.same (keptByChanges_inStep.inspected h.toInStep hc hv) rfl rfl
  bumped key h := h.same (keptByChanges_inStep.bumped key h.toInStep) rfl rfl
  decayed h := h.same (keptByChanges_inStep.decayed h.toInStep) rfl rfl
  reduced count h := h.same (keptByChanges_inStep.reduced count h.toInStep) rfl rfl
  unreduced count h he := h.same (keptByChanges_inStep.unreduced count h.toInStep he) rfl rfl
  failed h _ := h

/-! ## The choice of a literal -/

/-- All other atoms without a value are on the heap afterwards. Unless the choice is random, the atom is the one that
was taken off the heap: if there is none on it then there is none at all. -/
theorem AtomChosen.popped {random : Generator} {atoms : AtomTable} (hc : AtomChosen random s chosen atoms)
    (h : Prepared config none s) : atoms.Poised chosen ∧
      ∀ g, random.bool config.randomDecisionBias.value = some (false, g) →
        (s.atoms.popUnvalued s.atoms.activity.activeCount).1 = chosen := by
  obtain ⟨hpoised, hspec⟩ := h.tracks.aligned.popUnvalued_spec h.poised (Nat.le_refl s.atoms.activity.activeCount)
  rcases hc.drawn with ⟨⟨g, hg⟩, rfl⟩ | ⟨-, rfl, hchosen⟩
  · refine ⟨⟨fun x hx _ => h.poised.active x hx (by simp), h.poised.ordered⟩, fun g' hg' => ?_⟩
    rw [← h.config_eq, hg] at hg'
    cases hg'
  · have heq : (s.atoms.popUnvalued s.atoms.activity.activeCount).1 = chosen := by
      rw [hchosen]
      cases hx : (s.atoms.popUnvalued s.atoms.activity.activeCount).1 with
      | some x => rfl
      | none =>
        rw [hx] at hspec
        rw [openAtoms_eq_nil_iff.mpr hspec]
        rfl
    exact ⟨heq ▸ hpoised, fun _ _ => heq⟩

theorem LiteralChosen.prepared {literal : Option Literal} (hc : LiteralChosen s literal t)
    (h : Prepared config none s) : Prepared config (literal.map (·.atom)) t :=
  h.withAtoms ((h.toInStep.sameValues hc.atom.sameValues).congr rfl (by rw [hc.rest]) (by rw [hc.rest]))
    (hc.atom.popped h).1
    hc.atom.sameValues.size_eq (by rw [hc.rest])

/-- A polarity can be drawn of each atom that there is. -/
theorem NotChosen.of_prepared {e : Error} (hc : NotChosen s e t) (h : Prepared config none s) :
    t = s ∧ ¬IsProbability config.randomDecisionBias.value := by
  rcases hc.cause with ⟨hnone, ht⟩ | ⟨hopen, g, hnone⟩
  · refine ⟨ht, fun hp => ?_⟩
    obtain ⟨b, g, hg⟩ := s.random.bool_spec hp
    rw [← h.config_eq, hnone] at hg
    cases hg
  · obtain ⟨x, hx⟩ := List.exists_mem_of_ne_nil _ hopen
    obtain ⟨hne, hlt, -⟩ := mem_openAtoms.mp hx
    have htop : topAtom = 0 := rfl
    obtain ⟨b, g', hg⟩ := Generator.exists_bool (h.drawable (by omega)) g
    rw [← h.config_eq, hnone] at hg
    cases hg

/-- A decision gives the atom that was chosen a value at once, and a solve that ends leaves no atom to choose. -/
theorem keeps_chooseLiteral_bind {time : Nat} {k : Option Literal → SolverM (Option Report)}
    (hsome : ∀ l, k (some l) = do Solver.decide l; return none)
    (hnone : k none = do return some (← Solver.finish time)) :
    Keeps (Prepared config none) (fun _ s => Prepared config none s) (chooseLiteral >>= k) := by
  intro s h
  refine yields_bind.mpr ((yields_chooseLiteral h.tracks).imp (fun o t ht => ?_) fun e t ht => (ht.of_prepared h).1 ▸ h)
  have hprepared := ht.prepared h
  cases o with
  | none =>
    rw [hnone]
    exact keeps_bind ((keptByWork_prepared config).finish time) (fun _ => keeps_pure _) t hprepared
  | some l =>
    obtain ⟨-, hlt, hv⟩ := mem_openAtoms.mp ht.atom.left
    rw [← ht.atom.sameValues.size_eq] at hlt
    rw [← ht.atom.sameValues.valueOf_eq] at hv
    rw [hsome, yields_bind, yields_decide hprepared.tracks.aligned hv hlt, yields_pure]
    have hopened : Prepared config (some l.atom) { t with trail := t.trail.openLevel } :=
      hprepared.same (keptByChanges_inStep.openLevel hprepared.toInStep) rfl rfl
    have hassigned := hopened.assigned (fun x hx => (Option.some.inj hx).symm)
      (isOpen_of_valueOf (s := { t with trail := t.trail.openLevel }) hv hlt) none
    exact hassigned.same (hassigned.toInStep.congr rfl rfl rfl) rfl rfl

/-! ## All operations -/

theorem keptByLearning_prepared (config : Config) :
    KeptByLearning (Prepared config none) (Prepared config none) fun _ s => Prepared config none s where
  before := keptByWork_prepared config
  after := keptByWork_prepared config
  stored h hi := h.same (keptByLearning_inStep.stored h.toInStep hi) rfl rfl
  refused h hc hi := h.same (keptByLearning_inStep.refused h.toInStep hc hi) rfl rfl
  noted h hn := h.same (keptByLearning_inStep.noted h.toInStep hn) rfl rfl
  advanced time := (keptByWork_prepared config).advance time fun _ => keeps_chooseLiteral_bind

theorem keptByAdditions_prepared (config : Config) : KeptByAdditions (Prepared config none) where
  work := keptByWork_prepared config
  grown previous h hroom hd := by
    have ht := keptByAdditions_inStep.grown previous h.toInStep hroom hd
    exact ⟨ht, h.poised.grow h.tracks.aligned previous, h.config_eq, fun _ => h.config_eq ▸ hd⟩
  inserted c h := h.same (keptByAdditions_inStep.inserted c h.toInStep) rfl rfl

/-! ## Rounds that come to a decision -/

/-- A round up to the choice of a literal: nothing is left to propagate, and a restart and a reduction were made where
these were due. Tells whether the round comes to this. -/
def reachDecision (time : Nat) : SolverM Bool := do
  if ← reachReduction time then
    if (← get).reductionDue then reduce
    return true
  else return false

/-- A round that comes to a decision goes on with it. -/
theorem step_of_reachDecision {r : Solver} {time : Nat} (h : reachDecision time r = .ok true s) :
    step time r = decideBy chooseLiteral time s := by
  obtain ⟨reached, t, ht, h⟩ := bind_ok_iff.mp h
  cases reached with
  | false => cases h
  | true =>
    rw [step_of_reachReduction ht, goOnBy]
    obtain ⟨u, t', hu, h⟩ := bind_ok_iff.mp h
    rw [bind_of_ok hu]
    split at h
    · rename_i hdue
      obtain ⟨_, v, hv, h⟩ := bind_ok_iff.mp h
      cases h
      rw [if_pos hdue, bind_of_ok hv]
    · rename_i hdue
      cases h
      rw [if_neg hdue]

namespace KeptByLearning

variable {P Q : Solver → Prop} {E : Error → Solver → Prop} (hP : KeptByLearning P Q E)

include hP

/-- What rounds keep holds where a round comes to a reduction. -/
theorem yields_reachReduction (h : P s) (time : Nat) :
    Yields (reachReduction time) s (fun r t => r = true → P t) E := by
  simp only [reachReduction, yields_bind, yields_onCounters]
  have hbegun : P { s with counters := { s.counters with iterations := s.counters.iterations + 1 } } :=
    hP.before.other h rfl rfl rfl rfl rfl rfl
  refine (hP.consequences hbegun).imp (fun r t ht => ?_) fun _ _ ht => ht
  cases r with
  | fundamentalConflict => exact fun hr => by cases hr
  | learned lesson => exact fun hr => by cases hr
  | exhausted =>
    have hrest : Keeps P E (do
        onCounters fun c => { c with time }
        if ← terminationDue then return false
        if (← get).restartDue then restart
        return true) := by
      refine keeps_bind (hP.before.onCounters fun _ => rfl) fun _ => keeps_bind hP.before.terminationDue fun due => ?_
      refine leads_ite (keeps_pure _) (leads_get fun s _ => leads_ite ?_ (keeps_pure _))
      exact keeps_bind hP.before.restart fun _ => keeps_pure _
    exact (hrest t ht).imp (fun _ _ hu _ => hu) fun _ _ hu => hu

/-- And so it does where a round comes to a decision. -/
theorem yields_reachDecision (h : P s) (time : Nat) :
    Yields (reachDecision time) s (fun r t => r = true → P t) E := by
  rw [reachDecision, yields_bind]
  refine (hP.yields_reachReduction h time).imp (fun reached t ht => ?_) fun _ _ ht => ht
  cases reached with
  | false => exact fun hr => by cases hr
  | true =>
    have hrest : Keeps P E (do
        if (← get).reductionDue then reduce
        return true) :=
      leads_get fun s _ => leads_ite (keeps_bind hP.before.reduce fun _ => keeps_pure _) (keeps_pure _)
    exact (hrest t (ht rfl)).imp (fun _ _ hu _ => hu) fun _ _ hu => hu

end KeptByLearning

/-- What all operations keep holds at each decision of a solve that follows any of them. -/
theorem holds_at_decision {P : Solver → Prop} (hL : KeptByLearning P P fun _ s => P s) (hA : KeptByAdditions P)
    {s₀ s₁ r : Solver} (h : P s₀) (h₁ : Reaches s₀ s₁) {clock : Nat → Nat} {rounds time : Nat}
    (hr : solve clock rounds s₁ = .ok none r) (hs : reachDecision time r = .ok true s) : P s := by
  obtain ⟨operations, rfl⟩ := h₁
  have hround : P r := (hL.solve clock rounds _ (holds_performEach hL hA h operations)).of_ok hr
  exact (hL.yields_reachDecision hround time).of_ok hs rfl

/-! ## Main result -/

/-- What the choice of a literal comes to, as a caller sees it. -/
structure Choice (config : Config) (s : Solver) (chosen : Option Literal) (t : Solver) : Prop where
  /-- There is no literal exactly if every atom has a value. -/
  none_iff : chosen = none ↔ ∀ x ≠ topAtom, x < s.atoms.size → s.atoms.valueOf x ≠ none
  /-- The formula is then found to be satisfiable, and otherwise the status stays. -/
  status : t.status = if chosen.isSome then s.status else .satisfiable
  /-- The literal is one of an atom without a value. -/
  unvalued : ∀ l ∈ chosen, l.atom ≠ topAtom ∧ l.atom < s.atoms.size ∧ s.atoms.valueOf l.atom = none
  /-- If phases are saved it has the polarity that the atom had last, or the initial one. -/
  phase : config.phaseSaving.value = true → ∀ l ∈ chosen, ∀ past, s.atoms.Past config past →
    AtomTable.lastPhase past l.atom = some l.polarity
  /-- Unless the choice is random, the atom comes from the heap, and there is none only if the heap has none. -/
  popped : ∀ g, s.random.bool config.randomDecisionBias.value = some (false, g) →
    (s.atoms.popUnvalued s.atoms.activity.activeCount).1 = chosen.map (·.atom)
  /-- No atom without a value is more active then, if all activities are numbers. -/
  mostActive : ∀ g, s.random.bool config.randomDecisionBias.value = some (false, g) →
    (∀ x < s.atoms.size, (s.atoms.activityOf x).isNaN = false) → ∀ l ∈ chosen, ∀ x ≠ topAtom, x < s.atoms.size →
      s.atoms.valueOf x = none → s.atoms.activityOf x ≤ s.atoms.activityOf l.atom

theorem LiteralChosen.choice {literal : Option Literal} (hc : LiteralChosen s literal t) (h : Prepared config none s) :
    Choice config s literal t := by
  have hpopped := (hc.atom.popped h).2
  have hmem : ∀ l ∈ literal, l.atom ≠ topAtom ∧ l.atom < s.atoms.size ∧ s.atoms.valueOf l.atom = none := by
    rintro l rfl
    exact mem_openAtoms.mp hc.atom.left
  refine ⟨?_, hc.status, hmem, fun hon l hl past hpast => ?_, hpopped, fun g hg hnan l hl x hx hlt hv => ?_⟩
  · rw [← openAtoms_eq_nil_iff]
    have hleft := hc.atom.left
    cases literal with
    | none => exact iff_of_true rfl hleft
    | some l => exact iff_of_false (by simp) fun hnil => by rw [hnil] at hleft; cases hleft
  · obtain ⟨hne, -, hv⟩ := hmem l hl
    rw [← hpast.previousOf_eq hne hv]
    exact hc.phase (by rw [h.config_eq]; exact hon) l hl
  · have hcovers : floatRanking.Covers s.atoms.activity := by
      intro v hv
      obtain ⟨i, hi⟩ := Array.mem_iff_getElem?.mp hv
      have hlt : i < s.atoms.activity.size := (Array.getElem?_eq_some_iff.mp hi).1
      have hnumber := hnan i (by rwa [← h.tracks.aligned.activity])
      rwa [AtomTable.activityOf, IndexHeap.valueAt, hi, Option.getD_some] at hnumber
    have hspec := (h.tracks.aligned.popUnvalued_spec h.poised (Nat.le_refl s.atoms.activity.activeCount)).2
    rw [hpopped g hg, hl] at hspec
    exact Float.le_of_rank_le (hnan x hlt) (hnan _ (hmem l hl).2.1) (hspec hcovers x hx hlt hv)

end Solver

/-- Where a round of a solve, after any operations, comes to a decision, all atoms without a value are on the heap, and
the atoms have a past, which goes on from the one before the solve. The round goes on with the choice of a literal,
which succeeds if there is a probability for random choices, and it comes to what it should come to. -/
theorem decision_complete_and_most_active {s₀ r : Solver} {clock : Nat → Nat} {rounds time : Nat}
    (h₀ : Solver.Reaches (.ofConfig config) s₀) (hr : Solver.solve clock rounds s₀ = .ok none r)
    (hs : Solver.reachDecision time r = .ok true s) :
    Solver.step time r = Solver.decideBy Solver.chooseLiteral time s ∧
      (∀ x ≠ topAtom, x < s.atoms.size → s.atoms.valueOf x = none → s.atoms.activity.isActive x = true) ∧
      (∃ past recent, s₀.atoms.Past config past ∧ s.atoms.Past config (recent ++ past)) ∧
      (IsProbability config.randomDecisionBias.value → ∃ chosen t, Solver.chooseLiteral s = .ok chosen t) ∧
      ∀ chosen t, Solver.chooseLiteral s = .ok chosen t → Solver.Choice config s chosen t := by
  have hprepared : Prepared config none s := Solver.holds_at_decision (Solver.keptByLearning_prepared config)
    (Solver.keptByAdditions_prepared config) (prepared_ofConfig config) h₀ hr hs
  have hyields := Solver.yields_chooseLiteral hprepared.tracks
  refine ⟨Solver.step_of_reachDecision hs, fun x hx => hprepared.poised.active x hx (by simp), ?_, fun hbias => ?_,
    fun chosen t ht => (hyields.of_ok ht).choice hprepared⟩
  · obtain ⟨past, hinStep, hpast⟩ := Solver.exists_past h₀
    obtain ⟨recent, hrecent⟩ := (Solver.holds_at_decision (Solver.keptByLearning_since config past)
      (Solver.keptByAdditions_since config past) ⟨hinStep, [], hpast⟩ (.refl s₀) hr hs).led
    exact ⟨past, recent, hpast, hrecent⟩
  · obtain ⟨chosen, t, ht, -⟩ := Solver.Yields.exists_ok (hyields.imp (fun _ _ ht => ht) fun _ _ he =>
      (he.of_prepared hprepared).2 hbias)
    exact ⟨chosen, t, ht⟩

/-- An atom that was true before the solve is chosen to be true again, in its second round. -/
theorem decision_complete_and_most_active_again :
    let s₀ := (Solver.ofConfig default).performEach
      [.freshAtom, .freshAtom, .freshAtom, .decide ⟨2, true⟩, .decide ⟨3, true⟩, .backjump 0]
    ∃ r s t, Solver.solve (fun _ => 0) 1 s₀ = .ok none r ∧ Solver.reachDecision 0 r = .ok true s ∧
      Solver.step 0 r = Solver.decideBy Solver.chooseLiteral 0 s ∧
      Solver.chooseLiteral s = .ok (some ⟨3, true⟩) t ∧ Solver.Choice default s (some ⟨3, true⟩) t := by
  intro s₀
  let r := Solver.after (Solver.solve (fun _ => 0) 1) s₀
  let s := Solver.after (Solver.reachDecision 0) r
  have hr : Solver.solve (fun _ => 0) 1 s₀ = .ok none r := Solver.eq_ok_of_answer (by decide +kernel)
  have hs : Solver.reachDecision 0 r = .ok true s := Solver.eq_ok_of_answer (by decide +kernel)
  have ht : Solver.chooseLiteral s = .ok (some ⟨3, true⟩) (Solver.after Solver.chooseLiteral s) :=
    Solver.eq_ok_of_answer (by decide +kernel)
  obtain ⟨hstep, -, -, -, hchoice⟩ := decision_complete_and_most_active ⟨_, rfl⟩ hr hs
  exact ⟨r, s, _, hr, hs, hstep, ht, hchoice _ _ ht⟩

end ClauseLearning
