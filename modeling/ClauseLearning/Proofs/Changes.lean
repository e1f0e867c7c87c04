import ClauseLearning.Proofs.Decision.Choice
import ClauseLearning.Proofs.Keeping
import ClauseLearning.Proofs.Soundness.Assignment
import ClauseLearning.Proofs.Watches
import ClauseLearning.Solver.Formula
import ClauseLearning.Solver.Search

/-!
# Changes of the solver

All operations of the solver are made of a few kinds of changes: atoms are valued and lose their values, literals of
stored clauses change places, activities grow and decay, … What each of these changes keeps (`KeptByWork`) is kept by
every operation that stores no clause and chooses no literal (`KeptByWork.propagate`, `KeptByWork.reduce`, …), and if it
does not matter which atoms are on the heap of activities, by the choice of a literal, too (`KeptByChanges.advance`). To
store a learned clause leads to a second invariant, from which the conflict that is counted leads back
(`KeptByLearning`): so a whole solve keeps the first one (`KeptByLearning.solve`).
-/

namespace ClauseLearning

/-- Whether an error is a sign of an inconsistent state. There are other causes for which a clause, a text, or a number
that is no probability is refused. -/
def Error.isInternal : Error → Bool
  | .analysis _ | .assignment _ | .propagation _ | .resolution _ | .backjump | .invalidState
  | .breach .outOfRange => true
  | .atomsExhausted | .store _ | .config _ | .clause _ | .parse _ | .breach .invalidProbability => false

/-! ## Errors of parts -/

section Errors

variable {atoms : AtomTable} {level count n index : Nat} {c : Clause}
    {b : Resolution} {clauses : ClauseStore} {trail : Trail} {key : ClauseKey} {e : Error}

theorem isInternal_note (h : (Resolution.note atoms level c count b).1 = .error e) : e.isInternal = true := by
  fun_induction Resolution.note atoms level c count b with
  | case1 => cases h
  | case2 => cases h; rfl
  | case4 => cases h; rfl
  | case3 | case5 | case6 | case7 => rename_i ih; exact ih h

theorem isInternal_lastSeen {literals : Array Literal} (h : b.lastSeen literals n = .error e) :
    e.isInternal = true := by
  fun_induction Resolution.lastSeen b literals n with
  | case1 | case2 | case3 => cases h; rfl
  | case4 => cases h
  | case5 => rename_i ih; exact ih h

theorem isInternal_asserting {first : Literal} {lower : Array Literal}
    (h : Resolution.asserting atoms first lower = .error e) : e.isInternal = true := by
  unfold Resolution.asserting at h
  simp only at h
  split at h
  · split at h
    · cases h
    · cases h
      rfl
  · cases h

theorem isInternal_walk (h : (Resolution.walk clauses atoms trail key count index b).1 = .error e) :
    e.isInternal = true := by
  fun_induction Resolution.walk clauses atoms trail key count index b with
  | case1 => cases h; rfl
  | case2 _ _ _ _ _ _ _ _ hn =>
    cases h
    exact isInternal_note (by rw [hn])
  | case3 => rename_i hlast; cases h; exact isInternal_lastSeen hlast
  | case4 => cases h; rfl
  | case5 => cases h
  | case6 => cases h; rfl
  | case7 => rename_i ih; exact ih h

theorem isInternal_resolve (h : (b.resolve key clauses atoms trail).1 = .error e) : e.isInternal = true := by
  unfold Resolution.resolve at h
  split at h
  · split at h
    · rename_i hw
      cases h
      exact isInternal_walk (by rw [hw])
    · exact isInternal_asserting h
  · cases h
    rfl

theorem isInternal_secondLevel {second first : Nat} (h : Solver.secondLevel atoms c second first = .error e) :
    e.isInternal = true := by
  fun_induction Solver.secondLevel atoms c second first with
  | case1 => cases h
  | case2 => cases h; rfl
  | case3 | case4 | case5 => rename_i ih; exact ih h

end Errors

namespace Solver

/-- Each kind of change keeps what holds of the solver, and what holds when an operation fails
for an inconsistent state. -/
structure KeptByWork (P : Solver → Prop) (E : Error → Solver → Prop) : Prop where
  tracks : ∀ {s}, P s → Tracks s.atoms s.trail
  other : ∀ {s t : Solver}, P s → t.config = s.config → t.atoms = s.atoms →
    t.watches = s.watches → t.clauses = s.clauses →
    t.trail = s.trail → t.counters.conflicts = s.counters.conflicts → P t
  bumpedAtom : ∀ {s} x, P s → P { s with atoms := s.atoms.bumpRelative x }
  decayedAtoms : ∀ {s}, P s → P { s with atoms := s.atoms.decayActivity }
  assigned : ∀ {s l} reason, P s → s.atoms.isOpen l = .ok true → P (s.assigned l reason)
  openLevel : ∀ {s}, P s → P { s with trail := s.trail.openLevel }
  backjumped : ∀ {s} level, P s → P (s.backjumped level)
  propagated : ∀ {s}, P s → s.trail.head < s.trail.literals.size →
    P { s with trail := { s.trail with head := s.trail.head + 1 } }
  watches : ∀ {s watches}, P s → watches.lists.size = s.watches.lists.size → P { s with watches }
  inspected : ∀ {s key c d l verdict}, P s → s.clauses.get key = .ok c → c.inspect s.atoms l = some (d, verdict) →
    P { s with clauses := s.clauses.put d }
  bumped : ∀ {s} key, P s → P { s with clauses := s.clauses.bumpActivity key }
  decayed : ∀ {s}, P s → P { s with clauses := s.clauses.decayActivity }
  reduced : ∀ {s} count, P s → P { s with clauses := (s.clauses.reduceBy s.atoms.reasonOf count).2 }
  unreduced : ∀ {s e} count, P s → (s.clauses.reduceBy s.atoms.reasonOf count).1 = .error e →
    E (.store e) { s with clauses := (s.clauses.reduceBy s.atoms.reasonOf count).2 }
  failed : ∀ {e s}, P s → e.isInternal = true → E e s

/-- And so does taking atoms off the heap of activities. -/
structure KeptByChanges (P : Solver → Prop) (E : Error → Solver → Prop) : Prop extends KeptByWork P E where
  popped : ∀ {s}, P s → P { s with atoms := (s.atoms.popUnvalued s.atoms.activity.activeCount).2 }

/-- The invariant holds, and the head of the trail stands at a literal. -/
def Waiting (P : Solver → Prop) (head : Nat) (s : Solver) : Prop :=
  P s ∧ s.trail.head = head ∧ head < s.trail.literals.size

variable {α : Type} {P Q : Solver → Prop} {E : Error → Solver → Prop} {head : Nat}

/-- To watch a clause changes the watch lists only. -/
theorem keeps_watch (he : ∀ s, P s → E (.breach .outOfRange) s)
    (hw : ∀ {s watches}, P s → watches.lists.size = s.watches.lists.size → P { s with watches }) (c : Clause)
    (key : ClauseKey) : Keeps P E (watch c key) := by
  have hbinary : ∀ l b, Keeps P E (watchBinary l b) := fun _ _ =>
    leads_get fun _ _ => keeps_bind (keeps_require he _) fun _ _ h => hw h (Watches.size_addBinary _ _ _)
  have hlong : ∀ l, Keeps P E (watchLong l key) := fun _ =>
    leads_get fun _ _ => keeps_bind (keeps_require he _) fun _ _ h => hw h (Watches.size_addLong _ _ _)
  match c with
  | [] => exact keeps_pure ()
  | [k] => exact keeps_pure ()
  | [k, l] => exact keeps_bind (hbinary _ _) fun _ => hbinary _ _
  | k :: l :: m :: c => exact keeps_bind (hlong _) fun _ => hlong _

namespace KeptByWork

variable (hP : KeptByWork P E)

include hP

theorem require (inside : Bool) : Keeps P E (require inside) := keeps_require (fun _ h => hP.failed h rfl) inside

/-- Counts and what is not part of the formula do not matter. -/
theorem onCounters {f : Counters → Counters} (hf : ∀ c, (f c).conflicts = c.conflicts) : Keeps P E (onCounters f) :=
  fun _ h => hP.other h rfl rfl rfl rfl rfl (hf _)

/-! ### Values -/

/-- A literal that is assigned is added behind those that wait for propagation. -/
theorem yields_assign {s : Solver} (l : Literal) (reason : Option ClauseKey) (h : P s) :
    Yields (Solver.assign l reason) s
    (fun _ t => P t ∧ t.trail.head = s.trail.head ∧ s.trail.literals.size ≤ t.trail.literals.size) E := by
  rw [yields_assign_iff (hP.tracks h).aligned]
  split
  · exact hP.failed h rfl
  · exact ⟨h, rfl, Nat.le_refl _⟩
  · rename_i ho
    refine ⟨hP.assigned reason h ho, rfl, ?_⟩
    simp [Solver.assigned, Trail.push]

theorem assign (l : Literal) (reason : Option ClauseKey) : Keeps P E (assign l reason) :=
  fun _ h => (hP.yields_assign l reason h).imp (fun _ _ ht => ht.1) fun _ _ ht => ht

/-- A decision on an atom that is not known opens a level, which stays open. -/
theorem decide (l : Literal) : Keeps P E (decide l) := by
  refine leads_get fun s _ => leads_ite (leads_throw_bind (fun _ h => hP.failed h rfl) _) ?_
  refine keeps_bind (fun _ h => hP.openLevel h) fun _ => ?_
  exact keeps_bind (hP.assign l none) fun _ => hP.onCounters fun _ => rfl

theorem backjump (level : Nat) : Keeps P E (backjump level) :=
  fun _ h => (yields_backjump_of_tracks (hP.tracks h)).mpr (hP.backjumped level h)

/-! ### Propagation -/

theorem waiting_failed {e : Error} {s : Solver} (h : Waiting P head s) (he : e.isInternal = true) : E e s :=
  hP.failed h.1 he

theorem waiting_assign (l : Literal) (reason : Option ClauseKey) : Keeps (Waiting P head) E (Solver.assign l reason) :=
  fun _ ⟨h, hh, hlt⟩ => (hP.yields_assign l reason h).imp
    (fun _ _ ht => ⟨ht.1, ht.2.1.trans hh, Nat.lt_of_lt_of_le hlt ht.2.2⟩) fun _ _ ht => ht

/-- What is on the watch lists does not matter. -/
theorem waiting_watches {s : Solver} {watches : Watches} (h : Waiting P head s)
    (hw : watches.lists.size = s.watches.lists.size) : Waiting P head { s with watches } := ⟨hP.watches h.1 hw, h.2⟩

theorem waiting_watchLong (l : Literal) (key : ClauseKey) : Keeps (Waiting P head) E (watchLong l key) :=
  leads_get fun _ _ => keeps_bind (keeps_require (fun _ h => hP.waiting_failed h rfl) _) fun _ _ h =>
    hP.waiting_watches h (Watches.size_addLong _ _ _)

theorem waiting_visitBinary (ws : List BinaryWatch) : Keeps (Waiting P head) E (visitBinary ws) := by
  induction ws with
  | nil => exact keeps_pure none
  | cons w ws ih =>
    refine leads_get fun s _ => ?_
    split
    · exact keeps_bind (hP.waiting_assign _ _) fun _ => ih
    · exact ih
    · exact keeps_pure _
    · exact leads_throw fun _ h => hP.waiting_failed h rfl

/-- Each visit passes a position or drops a key. -/
theorem waiting_visitLong (falsified : Literal) (list : Array ClauseKey) (i : Nat) :
    Keeps (Waiting P head) E (visitLong falsified list i) := by
  induction hn : list.size - i using Nat.strongRecOn generalizing list i with
  | _ n ih =>
    rw [visitLong]
    split
    · have hdrop : Keeps (Waiting P head) E (visitLong falsified (dropWatch list i) i) :=
        ih _ (by rw [size_dropWatch]; omega) _ _ rfl
      have hnext : Keeps (Waiting P head) E (visitLong falsified list (i + 1)) := ih _ (by omega) _ _ rfl
      intro s h
      simp only [yields_bind, yields_get]
      split
      · exact hdrop s h
      · rename_i hc
        simp only [yields_bind, yields_get]
        split
        · exact hP.waiting_failed h rfl
        · rename_i hv
          rw [yields_bind, yields_onClauses]
          have hput : Waiting P head { s with clauses := s.clauses.put _ } := ⟨hP.inspected h.1 hc hv, h.2⟩
          split
          · exact hnext _ hput
          · exact keeps_bind (hP.waiting_watchLong _ _) (fun _ => hdrop) _ hput
          · exact keeps_bind (hP.waiting_assign _ _) (fun _ => hnext) _ hput
          · exact hput
          · exact hput
    · exact keeps_pure _

theorem waiting_propagateLiteral (l : Literal) : Keeps (Waiting P head) E (propagateLiteral l) := by
  have hfailed : ∀ e, e.isInternal = true → ∀ s, Waiting P head s → E e s := fun _ he _ h => hP.waiting_failed h he
  have hrequire : ∀ inside, Keeps (Waiting P head) E (Solver.require inside) := keeps_require (hfailed _ rfl)
  refine keeps_bind (leads_get fun _ _ => keeps_bind (hrequire _) fun _ => leads_get fun _ _ => keeps_pure _)
    fun _ => keeps_bind (hP.waiting_visitBinary _) fun r => ?_
  cases r with
  | some key => exact keeps_pure _
  | none =>
    refine keeps_bind (leads_get fun _ _ => keeps_bind (hrequire _) fun _ _ h =>
      hP.waiting_watches h (by simp [Watches.setLong])) fun _ => ?_
    refine keeps_bind (hP.waiting_visitLong _ _ _) fun _ => ?_
    refine keeps_bind (leads_get fun _ _ => keeps_bind (hrequire _) fun _ _ h =>
      hP.waiting_watches h (by simp [Watches.restoreLong])) fun _ => ?_
    exact keeps_ofExcept fun e _ => hfailed (.propagation e) rfl

theorem propagateMany (n : Nat) : Keeps P E (propagateMany n) := by
  induction n with
  | zero => exact keeps_pure none
  | succ n ih =>
    intro s h
    simp only [Solver.propagateMany, yields_bind, yields_get]
    split
    · exact h
    · rename_i l hl
      have hwaiting : Waiting P s.trail.head s := ⟨h, rfl, (Array.getElem?_eq_some_iff.mp hl).1⟩
      refine yields_bind.mpr ((hP.waiting_propagateLiteral l s hwaiting).imp (fun r t ht => ?_) fun _ _ ht => ht)
      cases r with
      | some key => exact ht.1
      | none =>
        obtain ⟨ht, hhead, hlt⟩ := ht
        simp only [yields_bind, yields_onTrail, yields_onCounters]
        exact ih _ (hP.other (hP.propagated ht (hhead ▸ hlt)) rfl rfl rfl rfl rfl rfl)

theorem propagate : Keeps P E propagate := leads_get fun _ _ => hP.propagateMany _

/-! ### Analysis -/

theorem watch (c : Clause) (key : ClauseKey) : Keeps P E (watch c key) :=
  keeps_watch (fun _ h => hP.failed h rfl) (fun h => hP.watches h) c key

theorem bumpClauses (keys : List ClauseKey) : Keeps P E (bumpClauses keys) := by
  intro s h
  rw [Solver.bumpClauses, yields_onClauses]
  induction keys generalizing s with
  | nil => exact h
  | cons key keys ih => exact ih _ (hP.bumped key h)

theorem resolve (key : ClauseKey) : Keeps P E (resolve key) :=
  keeps_bind (fun _ h => hP.other h rfl rfl rfl rfl rfl rfl) fun _ => leads_get fun _ _ =>
    keeps_bind (fun _ h => hP.other h rfl rfl rfl rfl rfl rfl) fun _ =>
      keeps_ofExcept fun _ he _ h => hP.failed h (isInternal_resolve he)

/-- An atom that is not known is not bumped. -/
theorem bumpAtom (x : Nat) : Keeps P E (bumpAtom x) := by
  intro s h
  rw [Solver.bumpAtom, yields_onAtoms, AtomM.bumpRelative_eq (hP.tracks h).aligned]
  by_cases hx : x < s.atoms.size
  · rw [if_pos hx]
    exact hP.bumpedAtom x h
  · rw [if_neg hx]
    exact hP.failed h rfl

theorem bumpAtoms (xs : List Nat) : Keeps P E (bumpAtoms xs) := by
  induction xs with
  | nil => exact keeps_pure ()
  | cons x xs ih => exact keeps_bind (hP.bumpAtom x) fun _ => ih

theorem bumpConflict (c : Clause) : Keeps P E (bumpConflict c) :=
  leads_get fun _ _ => keeps_bind (hP.bumpAtoms _) fun _ => leads_get fun _ _ => hP.bumpClauses _

/-! ### Random choices -/

theorem randomBool (hprob : ∀ {s}, P s → E (.breach .invalidProbability) s) (p : Float) : Keeps P E (randomBool p) := by
  refine leads_get fun s _ => ?_
  split
  · exact leads_throw fun _ h => hprob h
  · exact keeps_bind (fun _ h => hP.other h rfl rfl rfl rfl rfl rfl) fun _ => keeps_pure _

/-! ### The schedule -/

theorem scheduleRestart (geometric : Float) : Keeps P E (scheduleRestart geometric) := by
  refine leads_get fun s _ => ?_
  split
  · exact keeps_bind (keeps_pure _) fun _ => hP.onCounters fun _ => rfl
  · refine keeps_bind ?_ fun _ => hP.onCounters fun _ => rfl
    exact leads_get fun _ _ => keeps_bind (hP.onCounters fun _ => rfl) fun _ => keeps_pure _

theorem restart : Keeps P E restart :=
  keeps_bind (hP.backjump 0) fun _ => keeps_bind (hP.onCounters fun _ => rfl) fun _ => leads_get fun _ _ =>
    hP.scheduleRestart _

theorem reduce : Keeps P E reduce := by
  refine leads_get fun _ _ => keeps_bind ?_ fun _ => hP.onCounters fun _ => rfl
  intro s h
  simp only [reduceByFraction, ClauseStore.reduceByFraction, yields_bind, yields_get, yields_onClauses]
  generalize (Float.ofNat _ * _).toUInt64.toNat = count
  have hreduced := hP.reduced count h
  have hfailed : ∀ e, _ := fun e => hP.unreduced (e := e) count h
  cases hr : (s.clauses.reduceBy s.atoms.reasonOf count).1 with
  | ok n => exact hreduced
  | error e => exact hfailed e hr

theorem terminationDue : Keeps P E terminationDue := by
  refine leads_get fun s _ => leads_ite (keeps_pure _) (leads_ite (keeps_pure _) ?_)
  refine leads_get fun s _ => ?_
  split
  · exact keeps_pure _
  · exact keeps_bind (fun _ h => hP.other h rfl rfl rfl rfl rfl rfl) fun _ => keeps_pure _

theorem finish (time : Nat) : Keeps P E (finish time) :=
  keeps_bind (hP.onCounters fun _ => rfl) fun _ => leads_get fun _ _ => keeps_pure _

theorem start : Keeps P E start := by
  have hreduction : Keeps P E (do
      if (← get).counters.reductionLimit = 0 then initReductionLimit
      return (none : Option Report)) := by
    refine leads_get fun _ _ => leads_ite (keeps_bind ?_ fun _ => keeps_pure none) (keeps_pure none)
    exact leads_get fun _ _ => hP.onCounters fun _ => rfl
  have hbegin : Keeps P E (do
      modify fun s => { s with status := .solving }
      if (← get).counters.restartLimit == 0 then initRestartLimit
      if (← get).counters.reductionLimit = 0 then initReductionLimit
      return (none : Option Report)) := by
    refine keeps_bind (fun _ h => hP.other h rfl rfl rfl rfl rfl rfl) fun _ =>
      leads_get fun _ _ => leads_ite ?_ hreduction
    exact keeps_bind (leads_get fun _ _ => hP.scheduleRestart _) fun _ => hreduction
  refine leads_get fun s _ => ?_
  cases s.status with
  | satisfiable | unsatisfiable => exact leads_get fun _ _ => keeps_pure _
  | configuration | input | solving => exact hbegin

/-- Apart from the choice of a literal and what is done with it, a decision keeps what its parts keep. -/
theorem advance (time : Nat) (hchoose : ∀ k : Option Literal → SolverM (Option Report),
    (∀ l, k (some l) = do Solver.decide l; return none) → (k none = do return some (← Solver.finish time)) →
      Keeps P E (Solver.chooseLiteral >>= k)) : Keeps P E (advance time) := by
  refine keeps_bind (hP.onCounters fun _ => rfl) fun _ => keeps_bind hP.terminationDue fun due => leads_ite ?_ ?_
  · exact keeps_bind (hP.backjump 0) fun _ => keeps_pure _
  · refine leads_get fun s _ => leads_ite (keeps_bind hP.restart fun _ => ?_) ?_
    all_goals
      refine leads_get fun s _ => leads_ite (keeps_bind hP.reduce fun _ => ?_) ?_
      · exact hchoose _ (fun _ => rfl) rfl
      · exact hchoose _ (fun _ => rfl) rfl

end KeptByWork

/-! ## Decisions -/

namespace KeptByChanges

variable (hP : KeptByChanges P E) (hprob : ∀ {s}, P s → E (.breach .invalidProbability) s)

include hP hprob

theorem chooseAtom (random : Generator) : Keeps P E (chooseAtom random) := by
  refine leads_get fun s _ => ?_
  split
  · exact leads_throw fun _ h => hprob h
  · exact leads_get fun _ _ => keeps_pure _
  · have hactive : Keeps P E mostActive := fun _ h => (yields_mostActive (hP.tracks h).aligned).mpr (hP.popped h)
    refine keeps_bind hactive fun a => ?_
    cases a with
    | some a => exact keeps_pure _
    | none => exact leads_get fun _ _ => keeps_pure _

theorem chooseLiteral : Keeps P E chooseLiteral := by
  refine leads_get fun _ _ => keeps_bind (hP.chooseAtom hprob _) fun r => ?_
  refine keeps_bind (fun _ h => hP.other h rfl rfl rfl rfl rfl rfl) fun _ => ?_
  split
  · exact keeps_bind (fun _ h => hP.other h rfl rfl rfl rfl rfl rfl) fun _ => keeps_pure _
  · refine leads_get fun s _ => ?_
    split
    · refine leads_get fun s _ => ?_
      split
      · exact leads_throw fun _ h => hP.failed h rfl
      · exact keeps_pure _
    · exact leads_get fun _ _ => keeps_bind (hP.toKeptByWork.randomBool hprob _) fun _ => keeps_pure _

theorem advance (time : Nat) : Keeps P E (advance time) := by
  refine hP.toKeptByWork.advance time fun k hsome hnone => keeps_bind (hP.chooseLiteral hprob) fun l => ?_
  cases l with
  | some l =>
    rw [hsome]
    exact keeps_bind (hP.decide l) fun _ => keeps_pure none
  | none =>
    rw [hnone]
    exact keeps_bind (hP.finish time) fun _ => keeps_pure _

end KeptByChanges

/-! ## Learning -/

/-- A learned clause that is stored leads from the one invariant to the other, and a conflict
that is counted leads back. -/
structure KeptByLearning (P Q : Solver → Prop) (E : Error → Solver → Prop) : Prop where
  before : KeptByWork P E
  after : KeptByWork Q E
  stored : ∀ {s c key clauses}, P s → s.clauses.insert c .learned = (.ok key, clauses) → Q { s with clauses }
  refused : ∀ {s c e clauses}, P s → c ≠ [] → s.clauses.insert c .learned = (.error e, clauses) →
    E (.store e) { s with clauses }
  noted : ∀ {s counters}, Q s → counters.conflicts = s.counters.conflicts + 1 → P { s with counters }
  advanced : ∀ time, Keeps P E (advance time)

/-- What a round has come to when its consequences are drawn. -/
def Concluded (P Q : Solver → Prop) : Consequence → Solver → Prop
  | .learned _, s => Q s
  | .exhausted, s | .fundamentalConflict, s => P s

namespace KeptByLearning

variable (hP : KeptByLearning P Q E)

include hP

theorem store {c : Clause} (hc : c ≠ []) : Leads P Q E (store c .learned) := by
  intro s h
  rw [Solver.store, yields_bind, yields_onClauses]
  cases hi : s.clauses.insert c .learned with
  | mk answer clauses =>
    rw [yields_bind]
    cases answer with
    | ok key => exact keeps_bind (hP.after.watch c key) (fun _ => keeps_pure key) _ (hP.stored h hi)
    | error e => exact hP.refused h hc hi

theorem learn (first : Literal) (rest : Clause) : Leads P Q E (learn first rest) := by
  have hne : first :: rest ≠ [] := List.cons_ne_nil first rest
  unfold Solver.learn
  split
  · exact leads_bind (hP.before.backjump 0) fun _ => leads_bind (hP.store hne) fun _ => keeps_pure _
  · refine leads_get fun _ _ => leads_bind (keeps_ofExcept fun e he _ h => ?_) fun level => ?_
    · exact hP.before.failed h (isInternal_secondLevel he)
    refine leads_bind (hP.before.backjump level) fun _ => leads_get fun s _ => ?_
    refine leads_ite (leads_throw_bind (fun _ h => hP.before.failed h rfl) _) ?_
    exact leads_bind (hP.store hne) fun _ => leads_bind (hP.after.bumpClauses _) fun _ => keeps_pure _

theorem analyse (key : ClauseKey) : Leads P Q E (analyse key) := by
  refine leads_get fun s _ => leads_ite (leads_throw_bind (fun _ h => hP.before.failed h rfl) _) ?_
  refine leads_bind (hP.before.resolve key) fun c => leads_bind (hP.before.bumpConflict c) fun _ => ?_
  cases c with
  | nil => exact leads_throw fun _ h => hP.before.failed h rfl
  | cons first rest => exact hP.learn first rest

theorem consequences {s : Solver} (h : P s) : Yields consequences s (Concluded P Q) E := by
  rw [Solver.consequences, yields_bind]
  refine (hP.before.propagate s h).imp (fun r t ht => ?_) fun _ _ ht => ht
  cases r with
  | none => exact ht
  | some key =>
    simp only [yields_bind, yields_get]
    split
    · exact yields_bind.mpr ((hP.analyse key t ht).imp (fun _ _ hu => hu) fun _ _ hu => hu)
    · exact hP.before.other ht rfl rfl rfl rfl rfl rfl

theorem apply (lesson : Lesson) : Leads Q P E (apply lesson) := by
  have hrest : Leads Q P E (do
      noteConflict
      onAtoms AtomM.decayActivity
      onClauses fun clauses => ((), clauses.decayActivity)) := by
    intro s h
    have hnoted : P { s with counters := { s.counters with
        conflicts := s.counters.conflicts + 1
        freshConflicts := min (s.counters.freshConflicts + 1) maxCount } } := hP.noted h rfl
    simp only [noteConflict, yields_bind, yields_onCounters]
    rw [yields_onAtoms_of_ok (AtomM.decayActivity_eq (hP.before.tracks hnoted).aligned), yields_onClauses]
    exact hP.before.decayed (hP.before.decayedAtoms hnoted)
  cases lesson with
  | unit l => exact leads_bind (hP.after.assign _ _) fun _ => hrest
  | asserting key l => exact leads_bind (hP.after.assign _ _) fun _ => hrest

theorem step (time : Nat) : Keeps P E (step time) := by
  refine keeps_bind (hP.before.onCounters fun _ => rfl) fun _ s h => ?_
  refine yields_bind.mpr ((hP.consequences h).imp (fun r t ht => ?_) fun _ _ ht => ht)
  cases r with
  | fundamentalConflict => exact keeps_bind (hP.before.finish time) (fun _ => keeps_pure _) t ht
  | exhausted => exact hP.advanced time t ht
  | learned lesson => exact leads_bind (hP.apply lesson) (fun _ => keeps_pure _) t ht

theorem run (clock : Nat → Nat) (rounds i : Nat) : Keeps P E (run clock rounds i) := by
  induction rounds generalizing i with
  | zero => exact keeps_pure none
  | succ rounds ih =>
    refine keeps_bind (hP.step _) fun r => ?_
    cases r with
    | some report => exact keeps_pure _
    | none => exact ih (i + 1)

theorem solve (clock : Nat → Nat) (rounds : Nat) : Keeps P E (solve clock rounds) := by
  refine keeps_bind hP.before.start fun r => ?_
  cases r with
  | some report => exact keeps_pure _
  | none => exact hP.run clock rounds 0

end KeptByLearning

/-! ## Building a formula -/

/-- What the changes keep is kept by new atoms, of which there are not too many and for whose polarities a draw
succeeded, and by clauses of the formula, too. -/
structure KeptByAdditions (P : Solver → Prop) : Prop where
  work : KeptByWork P fun _ s => P s
  grown : ∀ {s} previous, P s → s.atoms.size ≤ maxAtom →
    (∃ g : Generator, (g.bool s.config.polarityBias.value).isSome = true) →
    P { s with atoms := s.atoms.grow previous, watches := s.watches.ensure s.atoms.size }
  inserted : ∀ {s} c, P s → P { s with clauses := (s.clauses.insert c .given).2 }

namespace KeptByAdditions

variable (hP : KeptByAdditions P)

include hP

theorem beginInput : AlwaysKeeps P beginInput := fun _ h => hP.work.other h rfl rfl rfl rfl rfl rfl

theorem freshAtom : AlwaysKeeps P freshAtom := by
  intro s h
  simp only [Solver.freshAtom, Solver.randomBool, yields_bind, yields_get]
  split
  · exact h
  · rename_i previous random hdraw
    have hs : P { s with random } := hP.work.other h rfl rfl rfl rfl rfl rfl
    simp only [yields_bind, yields_modify, yields_pure]
    split
    · exact hs
    · rename_i hroom
      simp only [yields_bind, yields_get]
      rw [yields_onAtoms_of_ok (AtomM.grow_eq (hP.work.tracks hs).aligned previous)]
      simp only [yields_onWatches, yields_pure]
      exact hP.beginInput _ (hP.grown previous hs (Nat.le_of_not_lt hroom) ⟨s.random, by rw [hdraw]; rfl⟩)

theorem store (c : Clause) : AlwaysKeeps P (store c .given) :=
  keeps_bind (fun _ h => hP.inserted c h) fun _ => keeps_bind (keeps_ofExcept fun _ _ _ h => h) fun key =>
    keeps_bind (hP.work.watch c key) fun _ => keeps_pure key

theorem addClause (c : Clause) : AlwaysKeeps P (addClause c) := by
  have hreduced : ∀ c, AlwaysKeeps P (addReduced c) := by
    intro c
    match c with
    | [] => exact keeps_bind (fun _ h => hP.work.other h rfl rfl rfl rfl rfl rfl) fun _ => keeps_pure _
    | [l] => exact keeps_bind (hP.store _) fun _ => keeps_bind (hP.work.assign _ _) fun _ => keeps_pure _
    | k :: l :: c => exact keeps_bind (hP.store _) fun _ => keeps_pure _
  have hthrow : ∀ e (g : Unit → SolverM Addition), AlwaysKeeps P (throw e >>= g) := fun _ _ _ h => h
  refine leads_get fun s _ => leads_ite (hthrow _ _) (leads_get fun s _ => ?_)
  split
  · exact hthrow _ _
  · exact keeps_bind hP.beginInput fun _ => leads_get fun _ _ => leads_ite (keeps_pure _) (hreduced _)

end KeptByAdditions

end Solver

end ClauseLearning
