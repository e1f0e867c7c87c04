import ClauseLearning.Proofs.Outcome

/-!
# Operations that keep an invariant

`Leads P Q E m` says that the operation `m` leads from each state that has `P` to a state that has `Q`, or to an error
and a state that have `E`, and `Keeps P E m` that it leads back to `P`. As the ways to build an operation do
(`keeps_bind`, `leads_ite`, …), an operation keeps what its steps keep, so that what has to be shown of an operation is
reduced to the steps that touch the invariant.
-/

namespace ClauseLearning

namespace Solver

variable {α β : Type} {P Q R : Solver → Prop} {E : Error → Solver → Prop} {e : Error}

/-- From a state that has `P`, the operation leads to one that has `Q`, or to an error with a state that has `E`. -/
def Leads (P Q : Solver → Prop) (E : Error → Solver → Prop) (m : SolverM α) : Prop :=
  ∀ s, P s → Yields m s (fun _ t => Q t) E

/-- The operation leads from the invariant back to it. -/
abbrev Keeps (P : Solver → Prop) (E : Error → Solver → Prop) (m : SolverM α) : Prop := Leads P P E m

theorem leads_throw (he : ∀ s, P s → E e s) : Leads P Q E (throw e : SolverM α) := he

/-- After an error, an operation is not run. -/
theorem leads_throw_bind (he : ∀ s, P s → E e s) (g : β → SolverM α) : Leads P Q E (throw e >>= g) := he

theorem leads_bind {m : SolverM β} {g : β → SolverM α} (hm : Leads P Q E m) (hg : ∀ b, Leads Q R E (g b)) :
    Leads P R E (m >>= g) := fun s h => yields_bind.mpr ((hm s h).imp (fun b t ht => hg b t ht) fun _ _ ht => ht)

/-- What is done with a state may rely on the invariant of this state. -/
theorem leads_get {g : Solver → SolverM α} (h : ∀ s, P s → Leads P Q E (g s)) : Leads P Q E (get >>= g) :=
  fun s hs => h s hs s hs

theorem leads_ite {p : Prop} [Decidable p] {m n : SolverM α} (hm : Leads P Q E m) (hn : Leads P Q E n) :
    Leads P Q E (if p then m else n) := by
  split
  · exact hm
  · exact hn

theorem keeps_pure (a : α) : Keeps P E (pure a) := fun _ h => h

theorem keeps_modify {f : Solver → Solver} (h : ∀ s, P s → P (f s)) : Keeps P E (modify f) := h

theorem keeps_bind {m : SolverM β} {g : β → SolverM α} (hm : Keeps P E m) (hg : ∀ b, Keeps P E (g b)) :
    Keeps P E (m >>= g) := leads_bind hm hg

theorem keeps_require (he : ∀ s, P s → E (.breach .outOfRange) s) (inside : Bool) : Keeps P E (require inside) := by
  cases inside with
  | true => exact keeps_pure ()
  | false => exact leads_throw he

theorem keeps_ofExcept {ε : Type} {error : ε → Error} {r : Except ε α}
    (he : ∀ e, r = .error e → ∀ s, P s → E (error e) s) : Keeps P E (ofExcept error r) := by
  cases r with
  | ok a => exact keeps_pure a
  | error e => exact leads_throw (he e rfl)

/-- What deals with errors has to lead back from them to the invariant. -/
theorem keeps_tryCatch {m : SolverM α} {g : Error → SolverM α} (hm : Keeps P E m)
    (hg : ∀ e s, E e s → Yields (g e) s (fun _ t => P t) E) : Keeps P E (tryCatch m g) :=
  fun s h => yields_tryCatch.mpr ((hm s h).imp (fun _ _ ht => ht) fun e t ht => hg e t ht)

theorem keeps_discard {m : SolverM α} (hm : Keeps P E m) : Keeps P E (discard m) :=
  fun s h => yields_discard.mpr (hm s h)

/-! ## Invariants that also hold after an error -/

/-- The operation keeps the invariant, whatever it comes to. -/
abbrev AlwaysKeeps (P : Solver → Prop) (m : SolverM α) : Prop := Keeps P (fun _ s => P s) m

theorem Leads.holds_after {m : SolverM α} (h : AlwaysKeeps P m) {s : Solver} (hs : P s) : P (after m s) :=
  (h s hs).holds_after

/-! ## Errors -/

/-- An error of the operation has the property of errors. -/
theorem Leads.error {m : SolverM α} (h : Leads P Q E m) {s t : Solver} (hs : P s) (hr : m s = .error e t) : E e t := by
  have := h s hs
  rw [Yields, hr] at this
  exact this

end Solver

end ClauseLearning
