import Mathlib.Tactic.Common
import ClauseLearning.Solver.Basic

/-!
# Outcomes of operations

`Yields m s ok err` says what the operation `m` comes to from the state `s`: its result and the state after it have
`ok`, or its error and the state after it have `err`. The equivalences for the ways to build an operation
(`yields_bind`, `yields_modify`, …) take an operation apart, so that a statement about it is reduced to statements about
its steps.
-/

namespace ClauseLearning

namespace Solver

variable {α β : Type}

/-- From the state, the operation gives a result that has `ok`, or an error that has `err`. -/
def Yields (m : SolverM α) (s : Solver) (ok : α → Solver → Prop) (err : Error → Solver → Prop) : Prop :=
  match m s with
  | .ok a t => ok a t
  | .error e t => err e t

variable {s : Solver} {ok ok' : α → Solver → Prop} {err err' : Error → Solver → Prop}

theorem Yields.imp {m : SolverM α} (h : Yields m s ok err) (ho : ∀ a t, ok a t → ok' a t)
    (he : ∀ e t, err e t → err' e t) : Yields m s ok' err' := by
  unfold Yields at h ⊢
  cases hm : m s with
  | ok a t => rw [hm] at h; exact ho a t h
  | error e t => rw [hm] at h; exact he e t h

theorem yields_iff {m : SolverM α} :
    Yields m s ok err ↔ (∀ a t, m s = .ok a t → ok a t) ∧ ∀ e t, m s = .error e t → err e t := by
  unfold Yields
  cases m s <;> simp

/-- Two statements of what an operation comes to hold together. -/
theorem Yields.and {m : SolverM α} (h : Yields m s ok err) (h' : Yields m s ok' err') :
    Yields m s (fun a t => ok a t ∧ ok' a t) fun e t => err e t ∧ err' e t := by
  unfold Yields at h h' ⊢
  cases hm : m s with
  | ok a t => rw [hm] at h h'; exact ⟨h, h'⟩
  | error e t => rw [hm] at h h'; exact ⟨h, h'⟩

/-- Only the result matters of an operation that gives no error. -/
theorem Yields.ok_imp {m : SolverM α} (h : Yields m s ok fun _ _ => False) (ho : ∀ a t, ok a t → ok' a t) :
    Yields m s ok' err' := h.imp ho fun _ _ h => h.elim

/-! ## Results and states -/

/-- The state after an operation, whether it gives a result or an error. -/
def after (m : SolverM α) (s : Solver) : Solver :=
  match m s with
  | .ok _ t => t
  | .error _ t => t

/-- What an operation gives, a result or an error. -/
def answer (m : SolverM α) (s : Solver) : Except Error α :=
  match m s with
  | .ok a _ => .ok a
  | .error e _ => .error e

/-- An answer that is a result comes with the state after the operation. -/
theorem eq_ok_of_answer {m : SolverM α} {a : α} (h : (answer m s).toOption = some a) : m s = .ok a (after m s) := by
  unfold answer at h
  unfold after
  cases hm : m s with
  | ok b t => rw [hm] at h; exact congrArg (EStateM.Result.ok · t) (Option.some.inj h)
  | error e t => rw [hm] at h; cases h

theorem exists_ok_of_answer {m : SolverM α} {a : α} (h : (answer m s).toOption = some a) : ∃ t, m s = .ok a t :=
  ⟨_, eq_ok_of_answer h⟩

/-- What holds of results and states, and of errors and states, holds of the answer and the state after it. -/
theorem Yields.run {m : SolverM α} {P : Except Error α → Solver → Prop} (h : Yields m s ok err)
    (ho : ∀ a t, ok a t → P (.ok a) t) (he : ∀ e t, err e t → P (.error e) t) : P (answer m s) (after m s) := by
  unfold Yields at h
  unfold answer after
  cases hm : m s with
  | ok a t => rw [hm] at h; exact ho a t h
  | error e t => rw [hm] at h; exact he e t h

/-- What holds of the state whatever an operation comes to, holds of the state after it. -/
theorem Yields.holds_after {m : SolverM α} {P : Solver → Prop} (h : Yields m s (fun _ t => P t) fun _ t => P t) :
    P (after m s) := h.run (P := fun _ t => P t) (fun _ _ ht => ht) fun _ _ ht => ht

theorem yields_after (m : SolverM α) (s : Solver) : Yields m s (fun _ t => t = after m s) fun _ t => t = after m s := by
  unfold Yields after
  cases m s <;> rfl

theorem after_of_yields {m : SolverM α} {t : Solver} (h : Yields m s (fun _ u => u = t) fun _ u => u = t) :
    after m s = t := h.run (P := fun _ u => u = t) (fun _ _ hu => hu) fun _ _ hu => hu

theorem after_bind (m : SolverM β) (f : β → SolverM α) (s : Solver) :
    after (m >>= f) s = match m s with
      | .ok b t => after (f b) t
      | .error _ t => t := by
  simp only [after, bind, EStateM.bind]
  cases m s <;> rfl

/-- An operation after another gives a result if the two of them do. -/
theorem bind_ok_iff {m : SolverM β} {f : β → SolverM α} {a : α} {u : Solver} :
    (m >>= f) s = .ok a u ↔ ∃ b t, m s = .ok b t ∧ f b t = .ok a u := by
  simp only [bind, EStateM.bind]
  cases m s with
  | ok b t => simp
  | error e t => simp

theorem bind_of_ok {m : SolverM β} {b : β} {t : Solver} (h : m s = .ok b t) (f : β → SolverM α) :
    (m >>= f) s = f b t := by
  simp only [bind, EStateM.bind, h]

/-- What an operation comes to that gives a result is what holds of the result. -/
theorem Yields.of_eq {m : SolverM α} {a : α} {t : Solver} (hr : m s = .ok a t) : Yields m s ok err ↔ ok a t := by
  unfold Yields
  rw [hr]

/-- What an operation comes to holds of the result that it gives. -/
theorem Yields.of_ok {m : SolverM α} {a : α} {t : Solver} (h : Yields m s ok err) (hr : m s = .ok a t) : ok a t := by
  unfold Yields at h
  rwa [hr] at h

/-- An operation that gives no error gives a result. -/
theorem Yields.exists_ok {m : SolverM α} (h : Yields m s ok fun _ _ => False) : ∃ a t, m s = .ok a t ∧ ok a t := by
  unfold Yields at h
  cases hm : m s with
  | ok a t => rw [hm] at h; exact ⟨a, t, rfl, h⟩
  | error e t => rw [hm] at h; exact h.elim

/-- An operation has the one outcome that it can have. -/
theorem eq_of_yields {m : SolverM α} {r : EStateM.Result Error Solver α}
    (h : Yields m s (fun a t => r = .ok a t) fun e t => r = .error e t) : m s = r := by
  unfold Yields at h
  cases hm : m s with
  | ok a t => rw [hm] at h; exact h.symm
  | error e t => rw [hm] at h; exact h.symm

/-! ## Ways to build an operation -/

@[simp] theorem yields_pure {a : α} : Yields (pure a) s ok err ↔ ok a s := Iff.rfl

@[simp] theorem yields_bind {m : SolverM β} {f : β → SolverM α} :
    Yields (m >>= f) s ok err ↔ Yields m s (fun b t => Yields (f b) t ok err) err := by
  simp only [Yields, bind, EStateM.bind]
  cases m s <;> rfl

@[simp] theorem yields_discard {m : SolverM α} {ok : Unit → Solver → Prop} :
    Yields (discard m) s ok err ↔ Yields m s (fun _ t => ok () t) err := by
  simp only [Yields, discard, Functor.discard, Functor.mapConst, EStateM.map, Function.comp]
  cases m s <;> rfl

@[simp] theorem yields_tryCatch {m : SolverM α} {f : Error → SolverM α} :
    Yields (tryCatch m f) s ok err ↔ Yields m s ok fun e t => Yields (f e) t ok err := by
  simp only [Yields, tryCatch, tryCatchThe, MonadExceptOf.tryCatch, EStateM.tryCatch]
  cases m s <;> rfl

@[simp] theorem yields_get {ok : Solver → Solver → Prop} : Yields get s ok err ↔ ok s s := Iff.rfl

@[simp] theorem yields_modify {f : Solver → Solver} {ok : Unit → Solver → Prop} :
    Yields (modify f) s ok err ↔ ok () (f s) := Iff.rfl

@[simp] theorem yields_modifyGet {f : Solver → α × Solver} :
    Yields (modifyGet f) s ok err ↔ ok (f s).1 (f s).2 := Iff.rfl

theorem after_discard (m : SolverM α) (s : Solver) : after (discard m) s = after m s :=
  after_of_yields (yields_discard.mpr (yields_after m s))

/-! ## Operations on parts -/

theorem onAtoms_eq (m : AtomM α) (s : Solver) : onAtoms m s = match m s.atoms with
    | .ok a atoms => .ok a { s with atoms }
    | .error e atoms => .error (.breach e) { s with atoms } := rfl

theorem yields_onAtoms {m : AtomM α} : Yields (onAtoms m) s ok err ↔ match m s.atoms with
    | .ok a atoms => ok a { s with atoms }
    | .error e atoms => err (.breach e) { s with atoms } := by
  rw [Yields, onAtoms_eq]
  cases m s.atoms <;> rfl

/-- An operation on the atom table that succeeds changes the table. -/
theorem yields_onAtoms_of_ok {m : AtomM α} {a : α} {atoms : AtomTable} (hm : m s.atoms = .ok a atoms) :
    Yields (onAtoms m) s ok err ↔ ok a { s with atoms } := by rw [yields_onAtoms, hm]

@[simp] theorem yields_onWatches {f : Watches → Watches} {ok : Unit → Solver → Prop} :
    Yields (onWatches f) s ok err ↔ ok () { s with watches := f s.watches } := Iff.rfl

@[simp] theorem yields_onTrail {f : Trail → Trail} {ok : Unit → Solver → Prop} :
    Yields (onTrail f) s ok err ↔ ok () { s with trail := f s.trail } := Iff.rfl

@[simp] theorem yields_onCounters {f : Counters → Counters} {ok : Unit → Solver → Prop} :
    Yields (onCounters f) s ok err ↔ ok () { s with counters := f s.counters } := Iff.rfl

@[simp] theorem yields_onClauses {f : ClauseStore → α × ClauseStore} :
    Yields (onClauses f) s ok err ↔ ok (f s.clauses).1 { s with clauses := (f s.clauses).2 } := Iff.rfl

@[simp] theorem yields_require {inside : Bool} {ok : Unit → Solver → Prop} :
    Yields (require inside) s ok err ↔ if inside then ok () s else err (.breach .outOfRange) s := by
  cases inside <;> rfl

@[simp] theorem yields_ofExcept_ok {ε : Type} {error : ε → Error} {a : α} :
    Yields (ofExcept error (.ok a)) s ok err ↔ ok a s := Iff.rfl

@[simp] theorem yields_ofExcept_error {ε : Type} {error : ε → Error} {e : ε} :
    Yields (ofExcept error (.error e) : SolverM α) s ok err ↔ err (error e) s := Iff.rfl

end Solver

end ClauseLearning
