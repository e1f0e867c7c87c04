import ClauseLearning.Proofs.Rounds

/-!
# What operations leave alone

`Leaves f m` says that the part `f` of a solver is the same after the operation `m`, whatever this comes to. The
pace of a solve (`Counters.pace`) are the counts that its schedule depends on. Only the count of a conflict,
restarts and reductions change them: propagation, the analysis of conflicts and decisions do not
(`leaves_consequences`, `leaves_chooseLiteral`, `leaves_decide`), nor does building a formula (`pace_replay`). Most
operations leave the clauses of the formula as they are stored, too (`LeavesFrame`); propagation puts their literals
in another order, and additions store new ones. Restarts and the count of a conflict leave these clauses and the
limit for reductions alone (`LeavesPlan`).
-/

namespace ClauseLearning

/-- The counts that restarts and reductions depend on. -/
structure Pace where
  conflicts : Nat
  freshConflicts : Nat
  reductions : Nat
  reductionLimit : Nat
  restartLimit : Float
  luby : Luby

def Counters.pace (c : Counters) : Pace where
  conflicts := c.conflicts
  freshConflicts := c.freshConflicts
  reductions := c.reductions
  reductionLimit := c.reductionLimit
  restartLimit := c.restartLimit
  luby := c.luby

/-- With the same pace go the same numbers of conflicts and of reductions. -/
theorem Counters.counts_eq {c d : Counters} (h : c.pace = d.pace) : c.conflicts = d.conflicts ∧
    c.freshConflicts = d.freshConflicts ∧ c.reductions = d.reductions ∧ c.reductionLimit = d.reductionLimit :=
  ⟨congrArg Pace.conflicts h, congrArg Pace.freshConflicts h, congrArg Pace.reductions h,
    congrArg Pace.reductionLimit h⟩

/-- The clauses of the formula, as they are stored. -/
structure GivenPart where
  units : Std.TreeSet Literal
  binaries : Array StoredClause
  long : Array StoredClause

def ClauseStore.givenPart (s : ClauseStore) : GivenPart where
  units := s.givenUnits
  binaries := s.givenBinaries
  long := s.givenLong

namespace ClauseStore

variable (s : ClauseStore)

theorem givenPart_bumpActivity (key : ClauseKey) : (s.bumpActivity key).givenPart = s.givenPart := by
  unfold bumpActivity
  split
  · split
    · split
      · simp only
        split <;> rfl
      · rfl
    · rfl
  · rfl

theorem givenPart_foldl_bumpActivity (keys : List ClauseKey) :
    (keys.foldl bumpActivity s).givenPart = s.givenPart := by
  induction keys generalizing s with
  | nil => rfl
  | cons key keys ih => exact (ih _).trans (s.givenPart_bumpActivity key)

theorem givenPart_decayActivity : s.decayActivity.givenPart = s.givenPart := by
  unfold decayActivity
  simp only
  split <;> rfl

theorem givenPart_takeFree (c : Clause) (source : ClauseSource) : (s.takeFree c source).givenPart = s.givenPart := by
  unfold takeFree
  split <;> rfl

theorem isGiven_slotKey {key : Nat → ClauseKey} {slot : Nat} {k : ClauseKey} (hkey : ∀ i, (key i).isGiven = false)
    (h : slotKey key slot = .ok k) : k.isGiven = false := by
  unfold slotKey at h
  split at h <;> cases h
  exact hkey slot

theorem isGiven_freshKey_learned {c : Clause} {key : ClauseKey} (h : s.freshKey c .learned = .ok key) :
    key.isGiven = false := by
  match c with
  | [] => cases h
  | [l] => cases h; rfl
  | [k, l] => exact isGiven_slotKey (fun _ => rfl) h
  | k :: l :: m :: c =>
    simp only [freshKey] at h
    split at h
    · unfold ClauseKey.retoken at h
      split at h
      · split at h <;> cases h
        rfl
      · cases h
    · exact isGiven_slotKey (fun _ => rfl) h

theorem givenPart_insertLearned (c : Clause) : (s.insert c .learned).2.givenPart = s.givenPart := by
  unfold insert
  split
  · rename_i key hk
    have hgiven : key.isGiven = false := s.isGiven_freshKey_learned hk
    rw [← s.givenPart_takeFree c .learned]
    cases key <;> first | rfl | cases hgiven
  · exact s.givenPart_takeFree c .learned

theorem givenPart_removeSlots (slots : List Nat) : (removeSlots slots s).2.givenPart = s.givenPart := by
  induction slots generalizing s with
  | nil => rfl
  | cons slot slots ih =>
    have hslot : (s.removeSlot slot).2.givenPart = s.givenPart := by
      unfold removeSlot
      split <;> rfl
    rw [removeSlots]
    split
    · rename_i t ht
      rw [ht] at hslot
      exact (ih t).trans hslot
    · rename_i ht
      rw [ht] at hslot
      exact hslot

end ClauseStore

namespace Solver

variable {α β γ δ : Type} {f : Solver → γ} {s : Solver}

/-- The part of the solver is the same after the operation. -/
def Leaves (f : Solver → γ) (m : SolverM α) : Prop := ∀ s, f (after m s) = f s

/-- Whatever the operation comes to, the part is the same. -/
theorem Leaves.yields {m : SolverM α} (h : Leaves f m) (s : Solver) :
    Yields m s (fun _ t => f t = f s) fun _ t => f t = f s := by
  refine (yields_after m s).imp (fun _ t ht => ?_) fun _ t ht => ?_
  · rw [ht, h s]
  · rw [ht, h s]

/-- What depends on the part only is the same, too. -/
theorem Leaves.of_eq {m : SolverM α} {g : Solver → δ} (h : Leaves f m) (hg : ∀ s t, f t = f s → g t = g s) :
    Leaves g m :=
  fun s => hg s _ (h s)

theorem leaves_pure (a : α) : Leaves f (pure a) := fun _ => rfl

theorem leaves_throw (e : Error) : Leaves f (throw e : SolverM α) := fun _ => rfl

/-- After an error, an operation is not run. -/
theorem leaves_throw_bind (e : Error) (g : β → SolverM α) : Leaves f (throw e >>= g) := fun _ => rfl

theorem leaves_get : Leaves f get := fun _ => rfl

theorem leaves_bind {m : SolverM β} {g : β → SolverM α} (hm : Leaves f m) (hg : ∀ b, Leaves f (g b)) :
    Leaves f (m >>= g) := by
  intro s
  have hs := hm s
  rw [after_bind]
  unfold after at hs
  cases hr : m s with
  | ok b t => rw [hr] at hs; exact (hg b t).trans hs
  | error e t => rw [hr] at hs; exact hs

theorem leaves_ite {p : Prop} [Decidable p] {m n : SolverM α} (hm : Leaves f m) (hn : Leaves f n) :
    Leaves f (if p then m else n) := by
  split
  · exact hm
  · exact hn

theorem leaves_require (inside : Bool) : Leaves f (require inside) := leaves_ite (leaves_pure ()) (leaves_throw _)

theorem leaves_ofExcept {ε : Type} (error : ε → Error) (r : Except ε α) : Leaves f (ofExcept error r) := by
  cases r with
  | ok a => exact leaves_pure a
  | error e => exact leaves_throw _

theorem leaves_tryCatch {m : SolverM α} {g : Error → SolverM α} (hm : Leaves f m) (hg : ∀ e, Leaves f (g e)) :
    Leaves f (tryCatch m g) := by
  intro s
  have hs := hm s
  unfold after at hs ⊢
  simp only [tryCatch, tryCatchThe, MonadExceptOf.tryCatch, EStateM.tryCatch]
  cases hr : m s with
  | ok a t => rw [hr] at hs; exact hs
  | error e t => rw [hr] at hs; exact (hg e t).trans hs

theorem leaves_discard {m : SolverM α} (hm : Leaves f m) : Leaves f (discard m) := by
  intro s
  have hs := hm s
  unfold after at hs ⊢
  simp only [discard, Functor.discard, Functor.mapConst, EStateM.map, Function.comp]
  cases hr : m s with
  | ok a t => rw [hr] at hs; exact hs
  | error e t => rw [hr] at hs; exact hs

/-- An operation on the atom table leaves what does not depend on it. -/
theorem leaves_onAtoms (hf : ∀ (s : Solver) (atoms : AtomTable), f { s with atoms } = f s) (m : AtomM α) :
    Leaves f (onAtoms m) := by
  intro s
  simp only [after, onAtoms_eq]
  cases m s.atoms <;> exact hf s _

/-! ## The pace and the clauses of the formula -/

/-- The operation does not change the pace. -/
abbrev LeavesPace (m : SolverM α) : Prop := Leaves (fun s => s.counters.pace) m

/-- The operation does not change the clauses of the formula. -/
abbrev LeavesGiven (m : SolverM α) : Prop := Leaves (fun s => s.clauses.givenPart) m

/-- The operation changes neither the pace nor the clauses of the formula. -/
abbrev LeavesFrame (m : SolverM α) : Prop := Leaves (fun s => (s.counters.pace, s.clauses.givenPart)) m

theorem LeavesFrame.pace {m : SolverM α} (h : LeavesFrame m) : LeavesPace m := h.of_eq fun _ _ he => (Prod.mk.inj he).1

theorem LeavesFrame.given {m : SolverM α} (h : LeavesFrame m) : LeavesGiven m :=
  h.of_eq fun _ _ he => (Prod.mk.inj he).2

/-- How many reductions there were, and the limit for the next one. -/
def plan (s : Solver) : Nat × Nat := (s.counters.reductions, s.counters.reductionLimit)

/-- The operation changes neither when the next reduction is due nor the clauses of the formula. -/
abbrev LeavesPlan (m : SolverM α) : Prop := Leaves (fun s => (s.plan, s.clauses.givenPart)) m

theorem LeavesPace.plan {m : SolverM α} (h : LeavesPace m) : Leaves plan m :=
  h.of_eq fun _ _ he => Prod.ext (congrArg Pace.reductions he) (congrArg Pace.reductionLimit he)

theorem LeavesFrame.leavesPlan {m : SolverM α} (h : LeavesFrame m) : LeavesPlan m :=
  fun s => Prod.ext (h.pace.plan s) (h.given s)

theorem LeavesPlan.plan {m : SolverM α} (h : LeavesPlan m) : Leaves plan m := h.of_eq fun _ _ he => (Prod.mk.inj he).1

theorem LeavesPlan.given {m : SolverM α} (h : LeavesPlan m) : LeavesGiven m := h.of_eq fun _ _ he => (Prod.mk.inj he).2

theorem leaves_assign (l : Literal) (reason : Option ClauseKey) : LeavesFrame (assign l reason) := by
  refine leaves_bind leaves_get fun s => leaves_bind (leaves_onAtoms (fun _ _ => rfl) _) fun r => ?_
  exact leaves_bind (leaves_ofExcept _ r) fun fresh => leaves_ite (fun _ => rfl) (leaves_pure ())

theorem leaves_decide (l : Literal) : LeavesFrame (decide l) := by
  refine leaves_bind leaves_get fun s => ?_
  refine leaves_ite (leaves_throw_bind _ _) ?_
  exact leaves_bind (fun _ => rfl) fun _ => leaves_bind (leaves_assign l none) fun _ _ => rfl

theorem leaves_unassign (ls : List Literal) : LeavesFrame (unassign ls) := by
  induction ls with
  | nil => exact leaves_pure ()
  | cons l ls ih =>
    exact leaves_bind (leaves_onAtoms (fun _ _ => rfl) _) fun _ => ih

theorem leaves_backjump (level : Nat) : LeavesFrame (backjump level) :=
  leaves_bind leaves_get fun _ => leaves_bind (leaves_require _) fun _ => leaves_bind leaves_get fun _ =>
    leaves_bind (fun _ => rfl) fun _ => leaves_unassign _

/-! ### Propagation -/

theorem leaves_watchLong (l : Literal) (key : ClauseKey) : LeavesFrame (watchLong l key) :=
  leaves_bind leaves_get fun _ => leaves_bind (leaves_require _) fun _ _ => rfl

theorem leaves_visitBinary (ws : List BinaryWatch) : LeavesFrame (visitBinary ws) := by
  induction ws with
  | nil => exact leaves_pure none
  | cons w ws ih =>
    refine leaves_bind leaves_get fun s => ?_
    split
    · exact leaves_bind (leaves_assign _ _) fun _ => ih
    · exact ih
    · exact leaves_pure _
    · exact leaves_throw _

/-- Each visit passes a position or drops a key. -/
theorem leaves_visitLong (falsified : Literal) (list : Array ClauseKey) (i : Nat) :
    LeavesPace (visitLong falsified list i) := by
  induction hn : list.size - i using Nat.strongRecOn generalizing list i with
  | _ n ih =>
    rw [visitLong]
    split
    · have hdrop : LeavesPace (visitLong falsified (dropWatch list i) i) :=
        ih _ (by rw [size_dropWatch]; omega) _ _ rfl
      have hnext : LeavesPace (visitLong falsified list (i + 1)) := ih _ (by omega) _ _ rfl
      refine leaves_bind leaves_get fun s => ?_
      split
      · exact hdrop
      · refine leaves_bind leaves_get fun s => ?_
        split
        · exact leaves_throw _
        · refine leaves_bind (fun _ => rfl) fun _ => ?_
          split
          · exact hnext
          · exact leaves_bind (leaves_watchLong _ _).pace fun _ => hdrop
          · exact leaves_bind (leaves_assign _ _).pace fun _ => hnext
          · exact leaves_pure _
          · exact leaves_pure _
    · exact leaves_pure _

theorem leaves_propagateLiteral (l : Literal) : LeavesPace (propagateLiteral l) := by
  refine leaves_bind (leaves_bind leaves_get fun _ => leaves_bind (leaves_require _) fun _ =>
    leaves_bind leaves_get fun _ => leaves_pure _) fun _ => leaves_bind (leaves_visitBinary _).pace fun r => ?_
  cases r with
  | some key => exact leaves_pure _
  | none =>
    refine leaves_bind (leaves_bind leaves_get fun _ => leaves_bind (leaves_require _) fun _ _ => rfl) fun _ => ?_
    refine leaves_bind (leaves_visitLong _ _ _) fun _ => ?_
    exact leaves_bind (leaves_bind leaves_get fun _ => leaves_bind (leaves_require _) fun _ _ => rfl) fun _ =>
      leaves_ofExcept _ _

theorem leaves_propagateMany (n : Nat) : LeavesPace (propagateMany n) := by
  induction n with
  | zero => exact leaves_pure none
  | succ n ih =>
    refine leaves_bind leaves_get fun s => ?_
    split
    · exact leaves_pure _
    · refine leaves_bind (leaves_propagateLiteral _) fun r => ?_
      cases r with
      | some key => exact leaves_pure _
      | none => exact leaves_bind (fun _ => rfl) fun _ => leaves_bind (fun _ => rfl) fun _ => ih

theorem leaves_propagate : LeavesPace propagate := leaves_bind leaves_get fun _ => leaves_propagateMany _

/-! ### Analysis -/

theorem leaves_watch (c : Clause) (key : ClauseKey) : LeavesFrame (watch c key) := by
  have hbinary : ∀ l b, LeavesFrame (watchBinary l b) := fun _ _ =>
    leaves_bind leaves_get fun _ => leaves_bind (leaves_require _) fun _ _ => rfl
  match c with
  | [] => exact leaves_pure ()
  | [k] => exact leaves_pure ()
  | [k, l] => exact leaves_bind (hbinary _ _) fun _ => hbinary _ _
  | k :: l :: m :: c => exact leaves_bind (leaves_watchLong _ _) fun _ => leaves_watchLong _ _

theorem leaves_store (c : Clause) (source : ClauseSource) : LeavesPace (store c source) :=
  leaves_bind (fun _ => rfl) fun _ => leaves_bind (leaves_ofExcept _ _) fun key =>
    leaves_bind (leaves_watch c key).pace fun _ => leaves_pure key

/-- A learned clause is none of the formula. -/
theorem leaves_storeLearned (c : Clause) : LeavesFrame (store c .learned) :=
  leaves_bind (fun s => congrArg (Prod.mk s.counters.pace) (s.clauses.givenPart_insertLearned c)) fun _ =>
    leaves_bind (leaves_ofExcept _ _) fun key => leaves_bind (leaves_watch c key) fun _ => leaves_pure key

theorem leaves_bumpClauses (keys : List ClauseKey) : LeavesFrame (bumpClauses keys) := fun s =>
  congrArg (Prod.mk s.counters.pace) (s.clauses.givenPart_foldl_bumpActivity keys)

theorem leaves_resolve (key : ClauseKey) : LeavesFrame (resolve key) :=
  leaves_bind (fun _ => rfl) fun _ => leaves_bind leaves_get fun _ => leaves_bind (fun _ => rfl) fun _ =>
    leaves_ofExcept _ _

theorem leaves_bumpAtoms (xs : List Nat) : LeavesFrame (bumpAtoms xs) := by
  induction xs with
  | nil => exact leaves_pure ()
  | cons x xs ih =>
    exact leaves_bind (leaves_onAtoms (fun _ _ => rfl) _) fun _ => ih

theorem leaves_bumpConflict (c : Clause) : LeavesFrame (bumpConflict c) :=
  leaves_bind leaves_get fun _ => leaves_bind (leaves_bumpAtoms _) fun _ => leaves_bind leaves_get fun _ =>
    leaves_bumpClauses _

theorem leaves_learn (first : Literal) (rest : Clause) : LeavesFrame (learn first rest) := by
  unfold learn
  split
  · exact leaves_bind (leaves_backjump 0) fun _ => leaves_bind (leaves_storeLearned _) fun _ => leaves_pure _
  · refine leaves_bind leaves_get fun _ => leaves_bind (leaves_ofExcept _ _) fun level => ?_
    refine leaves_bind (leaves_backjump level) fun _ => leaves_bind leaves_get fun s => ?_
    refine leaves_ite (leaves_throw_bind _ _) ?_
    exact leaves_bind (leaves_storeLearned _) fun _ => leaves_bind (leaves_bumpClauses _) fun _ => leaves_pure _

theorem leaves_analyse (key : ClauseKey) : LeavesFrame (analyse key) := by
  refine leaves_bind leaves_get fun s => ?_
  refine leaves_ite (leaves_throw_bind _ _) ?_
  refine leaves_bind (leaves_resolve key) fun c => leaves_bind (leaves_bumpConflict c) fun _ => ?_
  cases c with
  | nil => exact leaves_throw _
  | cons first rest => exact leaves_learn first rest

theorem leaves_consequences : LeavesPace consequences := by
  refine leaves_bind leaves_propagate fun r => ?_
  cases r with
  | none => exact leaves_pure _
  | some key =>
    refine leaves_bind leaves_get fun s => ?_
    split
    · exact leaves_bind (leaves_analyse key).pace fun _ => leaves_pure _
    · exact leaves_bind (fun _ => rfl) fun _ => leaves_pure _

/-! ### Decisions -/

theorem leaves_terminationDue : LeavesFrame terminationDue := by
  refine leaves_bind leaves_get fun s => leaves_ite (leaves_pure _) (leaves_ite (leaves_pure _) ?_)
  refine leaves_bind leaves_get fun s => ?_
  cases s.interrupt with
  | none => exact leaves_pure _
  | some interrupt => exact leaves_bind (fun _ => rfl) fun _ => leaves_pure _

theorem leaves_randomBool (p : Float) : LeavesFrame (randomBool p) := by
  refine leaves_bind leaves_get fun s => ?_
  split
  · exact leaves_throw _
  · exact leaves_bind (fun _ => rfl) fun _ => leaves_pure _

theorem leaves_chooseAtom (random : Generator) : LeavesFrame (chooseAtom random) := by
  refine leaves_bind leaves_get fun s => ?_
  split
  · exact leaves_throw _
  · exact leaves_bind leaves_get fun _ => leaves_pure _
  · refine leaves_bind (leaves_bind leaves_get fun _ => leaves_onAtoms (fun _ _ => rfl) _) fun a => ?_
    cases a with
    | some a => exact leaves_pure _
    | none => exact leaves_bind leaves_get fun _ => leaves_pure _

theorem leaves_chooseLiteral : LeavesFrame chooseLiteral := by
  refine leaves_bind leaves_get fun _ => leaves_bind (leaves_chooseAtom _) fun r =>
    leaves_bind (fun _ => rfl) fun _ => ?_
  split
  · exact leaves_bind (fun _ => rfl) fun _ => leaves_pure _
  · refine leaves_bind leaves_get fun s => ?_
    split
    · refine leaves_bind leaves_get fun s => ?_
      split
      · exact leaves_throw _
      · exact leaves_pure _
    · exact leaves_bind leaves_get fun _ => leaves_bind (leaves_randomBool _) fun _ => leaves_pure _

theorem leaves_finish (time : Nat) : LeavesFrame (finish time) :=
  leaves_bind (fun _ => rfl) fun _ => leaves_bind leaves_get fun _ => leaves_pure _

theorem leaves_decideBy (time : Nat) : LeavesFrame (decideBy chooseLiteral time) := by
  refine leaves_bind leaves_chooseLiteral fun l => ?_
  cases l with
  | some l => exact leaves_bind (leaves_decide l) fun _ => leaves_pure none
  | none => exact leaves_bind (leaves_finish time) fun _ => leaves_pure _

/-! ### Restarts and the count of a conflict -/

theorem leaves_scheduleRestart (geometric : Float) : LeavesPlan (scheduleRestart geometric) := by
  refine leaves_bind leaves_get fun s => ?_
  cases s.config.restartPolicy.value with
  | geometric => exact leaves_bind (leaves_pure _) fun _ _ => rfl
  | luby =>
    exact leaves_bind (leaves_bind leaves_get fun _ => leaves_bind (fun _ => rfl) fun _ => leaves_pure _)
      fun _ _ => rfl

theorem leaves_restart : LeavesPlan restart :=
  leaves_bind (leaves_backjump 0).leavesPlan fun _ => leaves_bind (fun _ => rfl) fun _ =>
    leaves_bind leaves_get fun _ =>
    leaves_scheduleRestart _

theorem leaves_apply (lesson : Lesson) : LeavesPlan (apply lesson) := by
  have hafter : LeavesPlan (do
      noteConflict
      onAtoms AtomM.decayActivity
      onClauses fun clauses => ((), clauses.decayActivity)) :=
    leaves_bind (fun _ => rfl) fun _ => leaves_bind (leaves_onAtoms (fun _ _ => rfl) _) fun _ s =>
      congrArg (Prod.mk s.plan) s.clauses.givenPart_decayActivity
  cases lesson with
  | unit l => exact leaves_bind (leaves_assign l _).leavesPlan fun _ => hafter
  | asserting key l => exact leaves_bind (leaves_assign l _).leavesPlan fun _ => hafter

/-! ### Building a formula -/

theorem leaves_freshAtom : LeavesFrame freshAtom := by
  refine leaves_bind leaves_get fun _ => leaves_bind (leaves_randomBool _) fun _ => leaves_bind leaves_get fun _ => ?_
  refine leaves_ite (leaves_throw_bind _ _) ?_
  exact leaves_bind leaves_get fun _ => leaves_bind (leaves_onAtoms (fun _ _ => rfl) _) fun _ =>
    leaves_bind (fun _ => rfl) fun _ => leaves_bind (fun _ => rfl) fun _ => leaves_pure _

theorem leaves_ensureAtoms (count : Nat) : LeavesFrame (ensureAtoms count) := by
  refine leaves_bind leaves_get fun s => ?_
  induction count - s.atomCount with
  | zero => exact leaves_pure ()
  | succ n ih => exact leaves_bind leaves_freshAtom fun _ => ih

theorem leaves_addClause (c : Clause) : LeavesPace (addClause c) := by
  have hreduced : ∀ c, LeavesPace (addReduced c) := by
    intro c
    match c with
    | [] => exact leaves_bind (fun _ => rfl) fun _ => leaves_pure _
    | [l] => exact leaves_bind (leaves_store _ _) fun _ => leaves_bind (leaves_assign _ _).pace fun _ => leaves_pure _
    | k :: l :: c => exact leaves_bind (leaves_store _ _) fun _ => leaves_pure _
  refine leaves_bind leaves_get fun s => leaves_ite (leaves_throw_bind _ _) ?_
  refine leaves_bind leaves_get fun s => ?_
  split
  · exact leaves_throw_bind _ _
  · exact leaves_bind (fun _ => rfl) fun _ => leaves_bind leaves_get fun _ => leaves_ite (leaves_pure _) (hreduced _)

end Solver

theorem Dimacs.leaves_read (lines : List Line) : Solver.LeavesPace (read lines) := by
  have hperform : ∀ action : Action, Solver.LeavesPace action.perform := by
    intro action
    cases action with
    | ensureAtoms count => exact (Solver.leaves_ensureAtoms count).pace
    | addClause c =>
      refine Solver.leaves_tryCatch (Solver.leaves_discard (Solver.leaves_addClause c)) fun e => ?_
      split
      · exact Solver.leaves_pure ()
      · exact Solver.leaves_throw _
    | fail e => exact Solver.leaves_throw e
  have hall : ∀ actions, Solver.LeavesPace (performAll actions) := by
    intro actions
    induction actions with
    | nil => exact Solver.leaves_pure ()
    | cons action actions ih => exact Solver.leaves_bind (hperform action) fun _ => ih
  rw [read_eq]
  exact Solver.leaves_bind (hall _) fun _ => Solver.leaves_bind Solver.leaves_get fun _ => Solver.leaves_pure _

/-- Without a solve, the pace is that of a new solver. -/
theorem pace_replay {config : Config} {calls : List Call} (h : ∀ clock rounds, Call.solve clock rounds ∉ calls) :
    (replay config calls).solver.counters.pace = ({} : Counters).pace := by
  have hall : ∀ m : Session, (m.makeAll calls).solver.counters.pace = m.solver.counters.pace := by
    induction calls with
    | nil => exact fun _ => rfl
    | cons call calls ih =>
      intro m
      refine (ih (fun clock rounds hm => h clock rounds (List.mem_cons_of_mem _ hm)) (m.make call)).trans ?_
      cases call with
      | freshAtom => exact Solver.leaves_freshAtom.pace m.solver
      | ensureAtoms count => exact (Solver.leaves_ensureAtoms count).pace m.solver
      | addClause c => exact Solver.leaves_addClause c m.solver
      | readDimacs lines => exact Dimacs.leaves_read lines m.solver
      | askToStop interrupt => rfl
      | reseed random => rfl
      | solve clock rounds => exact absurd List.mem_cons_self (h clock rounds)
  exact hall (Session.ofConfig config)

end ClauseLearning
