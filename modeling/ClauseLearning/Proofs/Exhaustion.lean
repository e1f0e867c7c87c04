import ClauseLearning.Proofs.Building
import ClauseLearning.Proofs.ClauseStore.Exhaustion
import ClauseLearning.Proofs.InStep

/-!
# Exhaustion in a solve

A conflict stores at most one learned clause, so that the slots, and the tokens of each slot, are at most as many as the
conflicts (`Accounted`). Between the two a clause may be stored whose conflict is not counted yet. Hence a solve lacks a
key for a learned clause only after as many conflicts as a slot has tokens (`refused_only_for_spent_slot`).
-/

namespace ClauseLearning

/-! ## Conflicts account for learned clauses -/

variable {s : Solver} {m : Session} {config : Config}

/-- The parts are in step, and the conflicts account for the learned clauses, but for some whose
conflict is not counted. -/
structure Accounted (pending : Nat) (s : Solver) : Prop extends InStep s where
  spent : s.clauses.Spent (s.counters.conflicts + pending)

theorem accounted_ofConfig (config : Config) : Accounted 0 (.ofConfig config) :=
  ⟨inStep_ofConfig config, ClauseStore.spent_ofConfig config⟩

/-- What holds when a solve fails, unless it is for an inconsistent state. -/
def Spending (e : Error) (s : Solver) : Prop :=
  e.isInternal = false → Accounted 0 s ∧ (e = .store .storageExhausted → ClauseKey.tokenCount ≤ s.counters.conflicts)

namespace Solver

/-- What is kept of the clause store whenever clauses are at most reordered, made more or less active, or removed. -/
theorem keptByChanges_of_lessened {P K : Solver → Prop} {E : Error → Solver → Prop} (hP : ∀ {s}, P s ↔ InStep s ∧ K s)
    (hkeyed : ∀ {s}, K s → s.clauses.Keyed)
    (hK : ∀ {s t}, K s → s.clauses.Lessened t.clauses → t.counters.conflicts = s.counters.conflicts → K t)
    (hE : ∀ {e s}, P s → e.isInternal = true → E e s) : KeptByChanges P E := by
  have hk := keptByChanges_inStep
  have hsame : ∀ {s t : Solver}, P s → InStep t → t.clauses = s.clauses →
      t.counters.conflicts = s.counters.conflicts → P t :=
    fun h ht hc hn => hP.mpr ⟨ht, hK (hP.mp h).2 (hc ▸ (hkeyed (hP.mp h).2).lessened_refl) hn⟩
  have hstep : ∀ {s}, P s → InStep s := fun h => (hP.mp h).1
  refine ⟨⟨fun h => (hstep h).tracks, fun h hg ha hw hc ht hn => ?_, fun x h => ?_, fun h => ?_, fun reason h ho => ?_,
    fun h => ?_, fun n h => ?_, fun h hlt => ?_, fun h hw => ?_, fun h hd hv => ?_, fun {s} key h => ?_,
    fun {s} h => ?_, fun count h => ?_, fun count h he => ?_, hE⟩, fun h => ?_⟩
  · exact hsame h (hk.other (hstep h) hg ha hw hc ht hn) hc hn
  · exact hsame h (hk.bumpedAtom x (hstep h)) rfl rfl
  · exact hsame h (hk.decayedAtoms (hstep h)) rfl rfl
  · exact hsame h (hk.assigned reason (hstep h) ho) rfl rfl
  · exact hsame h (hk.openLevel (hstep h)) rfl rfl
  · exact hsame h (hk.backjumped n (hstep h)) rfl rfl
  · exact hsame h (hk.propagated (hstep h) hlt) rfl rfl
  · exact hsame h (hk.watches (hstep h) hw) rfl rfl
  · have hkey := hkeyed (hP.mp h).2
    obtain ⟨hdkey, hp⟩ := StoredClause.inspect_perm hv
    have hget := hd
    rw [← hkey.key_eq hd, ← hdkey] at hget
    exact hP.mpr ⟨hk.inspected (hstep h) hd hv, hK (hP.mp h).2 (hkey.lessened_put hget hp) rfl⟩
  · exact hP.mpr ⟨hk.bumped key (hstep h), hK (hP.mp h).2 ((ClauseStore.sameClauses_bumpActivity _ key).lessened
      (hkeyed (hP.mp h).2) (s.clauses.slotPart_bumpActivity key)) rfl⟩
  · exact hP.mpr ⟨hk.decayed (hstep h), hK (hP.mp h).2 ((ClauseStore.sameClauses_decayActivity _).lessened
      (hkeyed (hP.mp h).2) s.clauses.slotPart_decayActivity) rfl⟩
  · exact hP.mpr ⟨hk.reduced count (hstep h), hK (hP.mp h).2 ((hkeyed (hP.mp h).2).lessened_reduceBy _ count) rfl⟩
  · rw [(hkeyed (hP.mp h).2).reduceBy_eq] at he
    cases he
  · exact hsame h (hk.popped (hstep h)) rfl rfl

theorem keptByChanges_accounted {pending : Nat} {E : Error → Solver → Prop}
    (hE : ∀ {e s}, Accounted pending s → e.isInternal = true → E e s) : KeptByChanges (Accounted pending) E :=
  keptByChanges_of_lessened (K := fun s => s.clauses.Spent (s.counters.conflicts + pending))
    ⟨fun h => ⟨h.toInStep, h.spent⟩, fun h => ⟨h.1, h.2⟩⟩ (fun h => h.keyed) (fun h hl hn => hn ▸ h.lessened hl) hE

theorem keptByLearning_accounted : KeptByLearning (Accounted 0) (Accounted 1) Spending where
  before := (keptByChanges_accounted fun _ hi hn => by rw [hi] at hn; cases hn).toKeptByWork
  after := (keptByChanges_accounted fun _ hi hn => by rw [hi] at hn; cases hn).toKeptByWork
  stored h hi := ⟨keptByLearning_inStep.stored h.toInStep hi, h.spent.insert hi⟩
  refused h hc hi _ :=
    ⟨⟨keptByLearning_inStep.refused h.toInStep hc hi, h.spent.refused hi⟩, fun _ => h.spent.le_of_refused hc hi⟩
  noted {s counters} h hn := ⟨keptByLearning_inStep.noted h.toInStep hn, by rw [hn]; exact h.spent⟩
  advanced := (keptByChanges_accounted fun _ hi hn => by rw [hi] at hn; cases hn).advance
    fun h _ => ⟨h, fun he => by cases he⟩

theorem keptByAdditions_accounted : KeptByAdditions (Accounted 0) where
  work := (keptByChanges_accounted fun h _ => h).toKeptByWork
  grown previous h hroom hd := ⟨keptByAdditions_inStep.grown previous h.toInStep hroom hd, h.spent⟩
  inserted c h := ⟨keptByAdditions_inStep.inserted c h.toInStep, h.spent.insert_given c⟩

end Solver

/-- A solve of a faithful session fails for no inconsistent state. -/
theorem Session.Faithful.spending (h : m.Faithful config) (ha : Accounted 0 m.solver)
    (clock : Nat → Nat) (rounds : Nat) :
    Solver.Yields (Solver.solve clock rounds) m.solver (fun _ t => Accounted 0 t) fun e t => Accounted 0 t ∧
      (e = .store .storageExhausted → ClauseKey.tokenCount ≤ t.counters.conflicts) := by
  have hkeeps := Solver.keptByLearning_accounted.solve clock rounds m.solver ha
  refine ((solve_spec h.sound clock rounds).and hkeeps).imp (fun _ t ht => ht.2) fun e t ⟨hstopped, ht⟩ => ht ?_
  rcases hstopped.cause with rfl | ⟨rfl, -⟩ <;> rfl

theorem Session.Faithful.accounted_make (h : m.Faithful config) (ha : Accounted 0 m.solver) (call : Call) :
    Accounted 0 (m.make call).solver := by
  have hbuilding : KeptByBuilding fun _ => Accounted 0 :=
    ⟨fun h => Solver.keptByAdditions_accounted.freshAtom.holds_after h,
      fun c h => (Solver.keptByAdditions_accounted.addClause c).holds_after h⟩
  cases hb : call.builds with
  | true => exact keeps_of_builds hbuilding hb ha
  | false =>
    cases call with
    | askToStop interrupt => exact ⟨ha.toInStep.congr rfl rfl rfl, ha.spent⟩
    | reseed random => exact ⟨ha.toInStep.congr rfl rfl rfl, ha.spent⟩
    | solve clock rounds =>
      exact Solver.Yields.holds_after ((h.spending ha clock rounds).imp (fun _ _ ht => ht) fun _ _ ht => ht.1)
    | _ => cases hb

theorem Session.Faithful.accounted_makeAll (h : m.Faithful config) (ha : Accounted 0 m.solver) (calls : List Call) :
    Accounted 0 (m.makeAll calls).solver := by
  induction calls generalizing m with
  | nil => exact ha
  | cons call calls ih => exact ih (h.make call) (h.accounted_make ha call)

/-- After fewer conflicts than a slot has tokens, a solve does not lack a key. -/
theorem Session.Faithful.solve_not_exhausted (h : m.Faithful config) (ha : Accounted 0 m.solver) {clock : Nat → Nat}
    {rounds : Nat}
    (hn : (Solver.after (Solver.solve clock rounds) m.solver).counters.conflicts < ClauseKey.tokenCount) :
    Solver.answer (Solver.solve clock rounds) m.solver ≠ .error (.store .storageExhausted) := by
  have hspending := (h.spending ha clock rounds).run
    (P := fun r t => r = .error (.store .storageExhausted) → ClauseKey.tokenCount ≤ t.counters.conflicts)
    (fun _ _ _ he => by cases he) fun e t ht he => ht.2 (by cases he; rfl)
  exact fun he => absurd (hspending he) (by omega)

/-! ## Main result -/

open ClauseStore Ledger in
/-- A long learned clause is refused only if all keys of one slot were given out, or the first key of each slot. So it
is stored if fewer long learned clauses were stored than a slot has tokens, and no solve lacks a key for a clause if
there were fewer conflicts than that. -/
theorem refused_only_for_spent_slot (config : Config) (edits : List Edit) {c : Clause} (hc : 3 ≤ c.length) :
    let m := (Ledger.ofConfig config).makeAll edits
    (∀ e, (m.store.insert c .learned).1 = .error e → e = .storageExhausted ∧
      ((∃ i, ∀ token < ClauseKey.tokenCount, .learned i token ∈ m.keys) ∨
        ∀ i < ClauseKey.slotCount, .learned i 0 ∈ m.keys)) ∧
      (m.longStored < ClauseKey.tokenCount → ∃ key, (m.store.insert c .learned).1 = .ok key) ∧
      ∀ calls clock rounds,
        (Solver.after (Solver.solve clock rounds) (replay config calls).solver).counters.conflicts <
          ClauseKey.tokenCount →
        Solver.answer (Solver.solve clock rounds) (replay config calls).solver ≠
          .error (.store .storageExhausted) := by
  intro m
  have h : m.Traced := (traced_ofConfig config).makeAll edits
  refine ⟨fun e he => ⟨?_, h.insert_error hc he⟩, fun hn => ?_, fun calls clock rounds hn => ?_⟩
  · have hne : c ≠ [] := List.ne_nil_of_length_pos (by omega)
    exact (h.keyed.insert_error hne (Prod.ext he rfl)).1
  · cases hr : (m.store.insert c .learned).1 with
    | ok key => exact ⟨key, rfl⟩
    | error e => exact absurd (h.le_longStored hc hr) (by omega)
  · exact (faithful_replay config calls).solve_not_exhausted
      ((faithful_ofConfig config).accounted_makeAll (accounted_ofConfig config) calls) hn

open ClauseStore Ledger in
/-- A slot is spent by as many clauses as it has tokens, each stored and removed. A new store has room, and a solve that
has not begun lacks nothing. -/
theorem refused_only_for_spent_slot_churned :
    let c : Clause := [⟨1, true⟩, ⟨2, true⟩, ⟨3, true⟩]
    let m := (Ledger.ofConfig default).makeAll (List.replicate 65536 (churn c)).flatten
    (m.store.insert c .learned).1 = .error .storageExhausted ∧
      ((∃ i, ∀ token < ClauseKey.tokenCount, .learned i token ∈ m.keys) ∨
        ∀ i < ClauseKey.slotCount, .learned i 0 ∈ m.keys) ∧
      (∃ key, ((Ledger.ofConfig default).store.insert c .learned).1 = .ok key) ∧
      Solver.answer (Solver.solve id 0) (.ofConfig default) ≠ .error (.store .storageExhausted) := by
  intro c
  have h : Churned c 65535 ((Ledger.ofConfig default).makeAll (List.replicate 65536 (churn c)).flatten) :=
    churned default (by decide) (by decide)
  obtain ⟨hspent, -, -⟩ := refused_only_for_spent_slot default (List.replicate 65536 (churn c)).flatten
    (show 3 ≤ c.length by decide)
  obtain ⟨-, hstored, hsolve⟩ := refused_only_for_spent_slot default [] (show 3 ≤ c.length by decide)
  -- the edits are too many to be unfolded
  generalize (Ledger.ofConfig default).makeAll (List.replicate 65536 (churn c)).flatten = m at h hspent ⊢
  have hrefused := h.insert_error (by decide) (by decide)
  exact ⟨hrefused, (hspent _ hrefused).2, hstored (by decide), hsolve [] id 0 (by decide +kernel)⟩

end ClauseLearning
