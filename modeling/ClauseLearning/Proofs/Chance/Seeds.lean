import ClauseLearning.Proofs.Chance.Parallel
import ClauseLearning.Proofs.History

/-!
# Runs do not depend on the seed

Each operation of a solver is blind to the generator and the time, where the configuration leaves nothing to chance. So
the calls of a caller come to the same replies and to twins, whatever the generators were at the start and the clocks
show (`seeds_do_not_matter`). The generator is used for each new atom, and for each decision and its polarity
(`blind_freshAtom`, `blind_chooseLiteral`); the time is read by no operation but the one that compares it with the
limit (`blind_terminationDue`).
-/

namespace ClauseLearning

namespace Solver

/-! ## Assignments -/

theorem blind_assign (l : Literal) (reason : Option ClauseKey) : Blind (assign l reason) := by
  refine blind_get (fun _ _ _ => rfl) fun s _ => blind_bind (blind_onAtoms _) fun answer => ?_
  exact blind_bind (blind_ofExcept _ answer) fun fresh => parallel_ite (blind_onTrail _) (blind_pure ())

theorem blind_decide (l : Literal) : Blind (decide l) := by
  refine blind_get (fun _ _ _ => rfl) fun s _ => parallel_ite (parallel_throw_bind _ _ _) ?_
  apply blind_bind (blind_onTrail _)
  intro _
  exact blind_bind (blind_assign l none) fun _ => blind_onCounters fun _ _ => rfl

theorem blind_unassign (ls : List Literal) : Blind (unassign ls) := by
  induction ls with
  | nil => exact blind_pure ()
  | cons l ls ih => exact blind_bind (blind_onAtoms _) fun _ => ih

theorem blind_backjump (level : Nat) : Blind (backjump level) :=
  blind_get (fun _ _ _ => rfl) fun _ _ => blind_bind (blind_require _) fun _ =>
    blind_get (fun _ _ _ => rfl) fun _ _ => blind_bind (blind_onTrail _) fun _ => blind_unassign _

/-! ## Clauses -/

theorem blind_watchBinary (l : Literal) (watch : BinaryWatch) : Blind (watchBinary l watch) :=
  blind_get (fun _ _ _ => rfl) fun _ _ => blind_bind (blind_require _) fun _ => blind_onWatches _

theorem blind_watchLong (l : Literal) (key : ClauseKey) : Blind (watchLong l key) :=
  blind_get (fun _ _ _ => rfl) fun _ _ => blind_bind (blind_require _) fun _ => blind_onWatches _

theorem blind_watch (c : Clause) (key : ClauseKey) : Blind (watch c key) := by
  match c with
  | [] => exact blind_pure ()
  | [k] => exact blind_pure ()
  | [k, l] => exact blind_bind (blind_watchBinary _ _) fun _ => blind_watchBinary _ _
  | k :: l :: m :: c => exact blind_bind (blind_watchLong _ _) fun _ => blind_watchLong _ _

theorem blind_store (c : Clause) (source : ClauseSource) : Blind (store c source) := by
  apply blind_bind (blind_onClauses _)
  intro answer
  apply blind_bind (blind_ofExcept _ answer)
  intro key
  exact blind_bind (blind_watch c key) fun _ => blind_pure key

/-! ## Propagation -/

theorem blind_visitBinary (ws : List BinaryWatch) : Blind (visitBinary ws) := by
  induction ws with
  | nil => exact blind_pure none
  | cons w ws ih =>
    refine blind_get (fun _ _ _ => rfl) fun s _ => ?_
    split
    · exact blind_bind (blind_assign _ _) fun _ => ih
    · exact ih
    · exact blind_pure _
    · exact parallel_throw _

/-- Each visit passes a position or drops a key. -/
theorem blind_visitLong (falsified : Literal) (list : Array ClauseKey) (i : Nat) :
    Blind (visitLong falsified list i) := by
  induction hn : list.size - i using Nat.strongRecOn generalizing list i with
  | _ n ih =>
    rw [visitLong]
    split
    · have hdrop : Blind (visitLong falsified (dropWatch list i) i) := ih _ (by rw [size_dropWatch]; omega) _ _ rfl
      have hnext : Blind (visitLong falsified list (i + 1)) := ih _ (by omega) _ _ rfl
      refine blind_get (fun _ _ _ => rfl) fun s _ => ?_
      split
      · exact hdrop
      · refine blind_get (fun _ _ _ => rfl) fun s _ => ?_
        split
        · exact parallel_throw _
        · apply blind_bind (blind_onClauses _)
          intro _
          split
          · exact hnext
          · exact blind_bind (blind_watchLong _ _) fun _ => hdrop
          · exact blind_bind (blind_assign _ _) fun _ => hnext
          · exact blind_pure _
          · exact blind_pure _
    · exact blind_pure _

theorem blind_binaryWatches (l : Literal) : Blind (binaryWatches l) :=
  blind_get (fun _ _ _ => rfl) fun _ _ => blind_bind (blind_require _) fun _ =>
    blind_get (fun _ _ _ => rfl) fun _ _ => blind_pure _

theorem blind_takeLong (l : Literal) : Blind (takeLong l) := by
  refine blind_get (fun _ _ _ => rfl) fun _ _ => blind_bind (blind_require _) fun _ => ?_
  rintro s t hs ⟨random, time, rfl⟩
  exact .ok rfl hs ⟨random, time, rfl⟩

theorem blind_restoreLong (l : Literal) (list : Array ClauseKey) : Blind (restoreLong l list) :=
  blind_get (fun _ _ _ => rfl) fun _ _ => blind_bind (blind_require _) fun _ => blind_onWatches _

theorem blind_propagateLiteral (l : Literal) : Blind (propagateLiteral l) := by
  refine blind_bind (blind_binaryWatches _) fun _ => blind_bind (blind_visitBinary _) fun r => ?_
  cases r with
  | some key => exact blind_pure _
  | none =>
    apply blind_bind (blind_takeLong _)
    intro list
    apply blind_bind (blind_visitLong _ _ _)
    intro visited
    exact blind_bind (blind_restoreLong _ _) fun _ => blind_ofExcept _ _

theorem blind_propagateMany (n : Nat) : Blind (propagateMany n) := by
  induction n with
  | zero => exact blind_pure none
  | succ n ih =>
    refine blind_get (fun _ _ _ => rfl) fun s _ => ?_
    split
    · exact blind_pure none
    · apply blind_bind (blind_propagateLiteral _)
      intro r
      cases r with
      | some key => exact blind_pure _
      | none =>
        apply blind_bind (blind_onTrail _)
        intro _
        exact blind_bind (blind_onCounters fun _ _ => rfl) fun _ => ih

theorem blind_propagate : Blind propagate := blind_get (fun _ _ _ => rfl) fun _ _ => blind_propagateMany _

/-! ## Analysis -/

theorem blind_resolve (key : ClauseKey) : Blind (resolve key) := by
  have hbuffer : Blind (modifyGet fun s : Solver => (s.resolution, { s with resolution := {} })) := by
    rintro s t hs ⟨random, time, rfl⟩
    exact .ok rfl hs ⟨random, time, rfl⟩
  apply blind_bind hbuffer
  intro buffer
  refine blind_get (fun _ _ _ => rfl) fun s _ => ?_
  refine blind_bind (blind_modify (fun _ => rfl) fun _ _ _ => rfl) fun _ => ?_
  exact blind_ofExcept _ _

theorem blind_bumpAtoms (xs : List Nat) : Blind (bumpAtoms xs) := by
  induction xs with
  | nil => exact blind_pure ()
  | cons x xs ih => exact blind_bind (blind_onAtoms _) fun _ => ih

theorem blind_bumpConflict (c : Clause) : Blind (bumpConflict c) :=
  blind_get (fun _ _ _ => rfl) fun _ _ => blind_bind (blind_bumpAtoms _) fun _ =>
    blind_get (fun _ _ _ => rfl) fun _ _ => blind_onClauses _

theorem blind_learn (first : Literal) (rest : Clause) : Blind (learn first rest) := by
  unfold learn
  split
  · apply blind_bind (blind_backjump 0)
    intro _
    exact blind_bind (blind_store _ _) fun _ => blind_pure _
  · refine blind_get (fun _ _ _ => rfl) fun _ _ => blind_bind (blind_ofExcept _ _) fun level => ?_
    refine blind_bind (blind_backjump level) fun _ => blind_get (fun _ _ _ => rfl) fun s _ => ?_
    refine parallel_ite (parallel_throw_bind _ _ _) ?_
    apply blind_bind (blind_store _ _)
    intro key
    exact blind_bind (blind_onClauses _) fun _ => blind_pure _

theorem blind_analyse (key : ClauseKey) : Blind (analyse key) := by
  refine blind_get (fun _ _ _ => rfl) fun s _ => parallel_ite (parallel_throw_bind _ _ _) ?_
  apply blind_bind (blind_resolve key)
  intro c
  apply blind_bind (blind_bumpConflict c)
  intro _
  cases c with
  | nil => exact parallel_throw _
  | cons first rest => exact blind_learn first rest

theorem blind_consequences : Blind consequences := by
  apply blind_bind blind_propagate
  intro r
  cases r with
  | none => exact blind_pure _
  | some key =>
    refine blind_get (fun _ _ _ => rfl) fun s _ => parallel_ite ?_ ?_
    · exact blind_bind (blind_analyse key) fun _ => blind_pure _
    · exact blind_bind (blind_modify (fun _ => rfl) fun _ _ _ => rfl) fun _ => blind_pure _

/-! ## Decisions -/

/-- A truth value that is certain does not depend on the generator. -/
theorem blind_randomBool {p : Float} (hp : (p == 0) = true ∨ (p == 1) = true) : Blind (randomBool p) := by
  apply parallel_get
  intro s random time _
  rcases hp with hp | hp
  · obtain ⟨g, hg⟩ := Generator.bool_of_zero hp s.random
    obtain ⟨g', hg'⟩ := Generator.bool_of_zero hp random
    simp only [hg, withChance, hg']
    exact parallel_bind_eq (parallel_setRandom g g') fun _ => blind_pure false
  · simp only [Generator.bool_of_one hp, withChance]
    exact parallel_bind_eq (parallel_setRandom _ _) fun _ => blind_pure true

/-- The atom that is chosen does not depend on the generator, the one given back with it may do. -/
theorem parallel_chooseAtom (random random' : Generator) :
    Parallel (fun r r' => r.1 = r'.1) (chooseAtom random) (chooseAtom random') := by
  refine parallel_get_eq (fun _ _ _ => rfl) fun s hs => ?_
  obtain ⟨g, hg⟩ := Generator.bool_of_zero hs.decision random
  obtain ⟨g', hg'⟩ := Generator.bool_of_zero hs.decision random'
  simp only [hg, hg']
  refine parallel_bind_eq (blind_onAtoms _) fun a => ?_
  cases a with
  | some a => exact parallel_pure rfl
  | none => exact parallel_get_eq (fun _ _ _ => rfl) fun _ _ => parallel_pure rfl

theorem blind_chooseLiteral : Blind chooseLiteral := by
  apply parallel_get
  intro s random time _
  apply parallel_bind (parallel_chooseAtom s.random random)
  rintro ⟨atom, g⟩ ⟨atom', g'⟩ rfl
  refine parallel_bind_eq (parallel_setRandom g g') fun _ => ?_
  cases atom with
  | none => exact blind_bind (blind_modify (fun _ => rfl) fun _ _ _ => rfl) fun _ => blind_pure none
  | some a =>
    refine blind_get (fun _ _ _ => rfl) fun s _ => parallel_ite ?_ ?_
    · refine blind_get (fun _ _ _ => rfl) fun s _ => ?_
      split
      · exact parallel_throw _
      · exact blind_pure _
    · refine blind_get (fun _ _ _ => rfl) fun s hs => ?_
      exact blind_bind (blind_randomBool hs.polarity) fun _ => blind_pure _

/-! ## The schedule -/

theorem blind_scheduleRestart (geometric : Float) : Blind (scheduleRestart geometric) := by
  refine blind_get (fun _ _ _ => rfl) fun s _ => ?_
  split
  · exact blind_bind (blind_pure _) fun _ => blind_onCounters fun _ _ => rfl
  · refine blind_bind ?_ fun _ => blind_onCounters fun _ _ => rfl
    refine blind_get (fun _ _ _ => rfl) fun _ _ => ?_
    exact blind_bind (blind_onCounters fun _ _ => rfl) fun _ => blind_pure _

theorem blind_restart : Blind restart := by
  apply blind_bind (blind_backjump 0)
  intro _
  apply blind_bind (blind_onCounters fun _ _ => rfl)
  intro _
  exact blind_get (fun _ _ _ => rfl) fun _ _ => blind_scheduleRestart _

theorem blind_reduce : Blind reduce := by
  refine blind_get (fun _ _ _ => rfl) fun s _ => blind_bind ?_ fun _ => blind_onCounters fun _ _ => rfl
  exact blind_get (fun _ _ _ => rfl) fun _ _ => blind_bind (blind_onClauses _) fun _ => blind_ofExcept _ _

/-- Without a limit the time does not matter. -/
theorem blind_terminationDue : Blind terminationDue := by
  have hask : Blind askInterrupt := by
    refine blind_get (fun _ _ _ => rfl) fun s _ => ?_
    split
    · exact blind_pure false
    · exact blind_bind (blind_modify (fun _ => rfl) fun _ _ _ => rfl) fun _ => blind_pure _
  apply parallel_get
  intro s random time hs
  have hlimit : ∀ n, ¬(s.config.timeLimit.value ≠ 0 ∧ s.config.timeLimit.value ≤ n) := fun n h => h.1 hs.untimed
  show Parallel Eq (if s.config.timeLimit.value ≠ 0 ∧ s.config.timeLimit.value ≤ s.counters.time then _ else _)
    (if s.config.timeLimit.value ≠ 0 ∧ s.config.timeLimit.value ≤ time then _ else _)
  rw [if_neg (hlimit _), if_neg (hlimit _)]
  exact parallel_ite (blind_pure true) hask

/-! ## The search -/

theorem parallel_finish (time time' : Nat) : Parallel Eq (finish time) (finish time') :=
  parallel_bind_eq (parallel_setTime time time') fun _ => blind_get (fun _ _ _ => rfl) fun _ _ => blind_pure _

theorem blind_start : Blind start := by
  have hreduction : Blind (do
      if (← get).counters.reductionLimit = 0 then initReductionLimit
      return (none : Option Report)) := by
    refine blind_get (fun _ _ _ => rfl) fun _ _ =>
      parallel_ite (blind_bind ?_ fun _ => blind_pure none) (blind_pure none)
    exact blind_get (fun _ _ _ => rfl) fun _ _ => blind_onCounters fun _ _ => rfl
  have hbegin : Blind (do
      modify fun s => { s with status := .solving }
      if (← get).counters.restartLimit == 0 then initRestartLimit
      if (← get).counters.reductionLimit = 0 then initReductionLimit
      return (none : Option Report)) := by
    refine blind_bind (blind_modify (fun _ => rfl) fun _ _ _ => rfl) fun _ => ?_
    refine blind_get (fun _ _ _ => rfl) fun _ _ => parallel_ite (blind_bind ?_ fun _ => hreduction) hreduction
    exact blind_get (fun _ _ _ => rfl) fun _ _ => blind_scheduleRestart _
  refine blind_get (fun _ _ _ => rfl) fun s _ => ?_
  cases s.status with
  | satisfiable | unsatisfiable => exact blind_get (fun _ _ _ => rfl) fun _ _ => blind_pure _
  | configuration | input | solving => exact hbegin

theorem parallel_advance (time time' : Nat) : Parallel Eq (advance time) (advance time') := by
  have hdecide : ∀ k k' : Option Literal → SolverM (Option Report),
      (∀ l, k (some l) = do decide l; return none) → (∀ l, k' (some l) = do decide l; return none) →
      (k none = do return some (← finish time)) → (k' none = do return some (← finish time')) →
      Parallel Eq (chooseLiteral >>= k) (chooseLiteral >>= k') := by
    intro k k' hsome hsome' hnone hnone'
    refine parallel_bind_eq blind_chooseLiteral fun l => ?_
    cases l with
    | some l =>
      rw [hsome, hsome']
      exact blind_bind (blind_decide l) fun _ => blind_pure none
    | none =>
      rw [hnone, hnone']
      exact parallel_bind_eq (parallel_finish time time') fun _ => blind_pure _
  refine parallel_bind_eq (parallel_setTime time time') fun _ => parallel_bind_eq blind_terminationDue fun due =>
    parallel_ite ?_ ?_
  · exact blind_bind (blind_backjump 0) fun _ => blind_pure _
  · refine parallel_get_eq (fun _ _ _ => rfl) fun s _ => parallel_ite (parallel_bind_eq blind_restart fun _ => ?_) ?_
    all_goals
      refine parallel_get_eq (fun _ _ _ => rfl) fun s _ => parallel_ite (parallel_bind_eq blind_reduce fun _ => ?_) ?_
      · exact hdecide _ _ (fun _ => rfl) (fun _ => rfl) rfl rfl
      · exact hdecide _ _ (fun _ => rfl) (fun _ => rfl) rfl rfl

theorem blind_apply (lesson : Lesson) : Blind (apply lesson) := by
  have hrest : Blind (do
      noteConflict
      onAtoms AtomM.decayActivity
      onClauses fun clauses => ((), clauses.decayActivity)) := by
    apply blind_bind (blind_onCounters fun _ _ => rfl)
    intro _
    exact blind_bind (blind_onAtoms _) fun _ => blind_onClauses _
  cases lesson with
  | unit l => exact blind_bind (blind_assign _ _) fun _ => hrest
  | asserting key l => exact blind_bind (blind_assign _ _) fun _ => hrest

theorem parallel_step (time time' : Nat) : Parallel Eq (step time) (step time') := by
  apply parallel_bind_eq (blind_onCounters fun _ _ => rfl)
  intro _
  apply parallel_bind_eq blind_consequences
  intro r
  cases r with
  | fundamentalConflict => exact parallel_bind_eq (parallel_finish time time') fun _ => blind_pure _
  | exhausted => exact parallel_advance time time'
  | learned lesson => exact blind_bind (blind_apply lesson) fun _ => blind_pure none

theorem parallel_run (clock clock' : Nat → Nat) (rounds i : Nat) :
    Parallel Eq (run clock rounds i) (run clock' rounds i) := by
  induction rounds generalizing i with
  | zero => exact blind_pure none
  | succ rounds ih =>
    apply parallel_bind_eq (parallel_step _ _)
    intro r
    cases r with
    | some report => exact blind_pure _
    | none => exact ih (i + 1)

theorem parallel_solve (clock clock' : Nat → Nat) (rounds : Nat) :
    Parallel Eq (solve clock rounds) (solve clock' rounds) := by
  apply parallel_bind_eq blind_start
  intro r
  cases r with
  | some report => exact blind_pure _
  | none => exact parallel_run clock clock' rounds 0

/-! ## The formula -/

theorem blind_beginInput : Blind beginInput :=
  blind_modify (fun _ => rfl) fun _ _ _ => rfl

theorem blind_freshAtom : Blind freshAtom := by
  refine blind_get (fun _ _ _ => rfl) fun s hs => blind_bind (blind_randomBool hs.polarity) fun previous => ?_
  refine blind_get (fun _ _ _ => rfl) fun s _ => parallel_ite (parallel_throw_bind _ _ _) ?_
  refine blind_get (fun _ _ _ => rfl) fun s _ => blind_bind (blind_onAtoms _) fun _ => ?_
  exact blind_bind (blind_onWatches _) fun _ => blind_bind blind_beginInput fun _ => blind_pure _

theorem blind_addAtoms (n : Nat) : Blind (addAtoms n) := by
  induction n with
  | zero => exact blind_pure ()
  | succ n ih => exact blind_bind blind_freshAtom fun _ => ih

theorem blind_ensureAtoms (count : Nat) : Blind (ensureAtoms count) :=
  blind_get (fun _ _ _ => rfl) fun _ _ => blind_addAtoms _

theorem blind_addReduced (c : Clause) : Blind (addReduced c) := by
  match c with
  | [] => exact blind_bind (blind_modify (fun _ => rfl) fun _ _ _ => rfl) fun _ => blind_pure _
  | [l] =>
    apply blind_bind (blind_store [l] .given)
    intro key
    exact blind_bind (blind_assign l _) fun _ => blind_pure _
  | k :: l :: c => exact blind_bind (blind_store _ _) fun _ => blind_pure _

theorem blind_addClause (c : Clause) : Blind (addClause c) := by
  refine blind_get (fun _ _ _ => rfl) fun s _ => parallel_ite (parallel_throw_bind _ _ _) ?_
  refine blind_get (fun _ _ _ => rfl) fun s _ => ?_
  split
  · exact parallel_throw_bind _ _ _
  · apply blind_bind blind_beginInput
    intro _
    exact blind_get (fun _ _ _ => rfl) fun _ _ => parallel_ite (blind_pure _) (blind_addReduced _)

theorem blind_perform (action : Dimacs.Action) : Blind action.perform := by
  cases action with
  | ensureAtoms count => exact blind_ensureAtoms count
  | addClause c =>
    refine blind_tryCatch (blind_discard (blind_addClause c)) fun e => ?_
    split
    · exact blind_pure ()
    · exact parallel_throw _
  | fail e => exact parallel_throw e

theorem blind_performAll (actions : List Dimacs.Action) : Blind (Dimacs.performAll actions) := by
  induction actions with
  | nil => exact blind_pure ()
  | cons action actions ih => exact blind_bind (blind_perform action) fun _ => ih

theorem blind_read (lines : List Dimacs.Line) : Blind (Dimacs.read lines) := by
  rw [Dimacs.read_eq]
  exact blind_bind (blind_performAll _) fun _ => blind_get (fun _ _ _ => rfl) fun _ _ => blind_pure _

end Solver

/-! ## Calls -/

/-- What a caller is told. -/
inductive Reply
  /-- Nothing, as the call has no result. -/
  | done
  /-- An atom that was added. -/
  | atom (a : Nat)
  /-- What became of a clause. -/
  | addition (a : Addition)
  /-- What was read. -/
  | summary (s : Dimacs.Summary)
  /-- What a solve came to, if it came to an end in the rounds that it had. -/
  | verdict (r : Option Report)

/-- A call as an operation with a reply. -/
def Call.run : Call → SolverM Reply
  | .freshAtom => return .atom (← Solver.freshAtom)
  | .ensureAtoms count => do
    Solver.ensureAtoms count
    return .done
  | .addClause c => return .addition (← Solver.addClause c)
  | .readDimacs lines => return .summary (← Dimacs.read lines)
  | .askToStop interrupt => do
    modify fun s => { s with interrupt }
    return .done
  | .reseed random => do
    modify fun s => { s with random }
    return .done
  | .solve clock rounds => return .verdict (← Solver.solve clock rounds)

/-- The replies to calls, each with the session after the call, whether or not it fails. -/
def Session.transcript : Session → List Call → List (Except Error Reply × Session)
  | _, [] => []
  | m, call :: calls => (Solver.answer call.run m.solver, m.make call) :: (m.make call).transcript calls

/-- The operation of a call leads to the solver after the call. -/
theorem Session.solver_make (m : Session) (call : Call) : (m.make call).solver = Solver.after call.run m.solver := by
  have hreply : ∀ {α : Type} (f : α → Reply) (op : SolverM α),
      Solver.after op m.solver = Solver.after (do return f (← op)) m.solver := by
    intro α f op
    rw [Solver.after_bind, Solver.after]
    cases op m.solver <;> rfl
  cases call with
  | freshAtom => exact hreply _ _
  | ensureAtoms count => exact hreply (fun _ => .done) _
  | addClause c => exact hreply _ _
  | readDimacs lines => exact hreply _ _
  | askToStop interrupt => rfl
  | reseed random => rfl
  | solve clock rounds => exact hreply _ _

/-- The calls are the same, but for the clocks and for the generators that are put in. -/
inductive Call.Alike : Call → Call → Prop
  | same (call : Call) : Alike call call
  | solve (clock clock' : Nat → Nat) (rounds : Nat) : Alike (.solve clock rounds) (.solve clock' rounds)
  | reseed (random random' : Generator) : Alike (.reseed random) (.reseed random')

variable {m m' : Session} {call call' : Call} {calls calls' : List Call}

theorem Call.Alike.parallel (h : call.Alike call') : Solver.Parallel Eq call.run call'.run := by
  cases h with
  | same call =>
    cases call with
    | freshAtom => exact Solver.blind_bind Solver.blind_freshAtom fun _ => Solver.blind_pure _
    | ensureAtoms count => exact Solver.blind_bind (Solver.blind_ensureAtoms count) fun _ => Solver.blind_pure _
    | addClause c => exact Solver.blind_bind (Solver.blind_addClause c) fun _ => Solver.blind_pure _
    | readDimacs lines => exact Solver.blind_bind (Solver.blind_read lines) fun _ => Solver.blind_pure _
    | askToStop interrupt =>
      exact Solver.blind_bind (Solver.blind_modify (fun _ => rfl) fun _ _ _ => rfl) fun _ => Solver.blind_pure _
    | reseed random => exact Solver.blind_bind (Solver.parallel_setRandom random random) fun _ => Solver.blind_pure _
    | solve clock rounds =>
      exact Solver.blind_bind (Solver.parallel_solve clock clock rounds) fun _ => Solver.blind_pure _
  | solve clock clock' rounds =>
    exact Solver.parallel_bind_eq (Solver.parallel_solve clock clock' rounds) fun _ => Solver.blind_pure _
  | reseed random random' =>
    exact Solver.parallel_bind_eq (Solver.parallel_setRandom random random') fun _ => Solver.blind_pure _

/-! ## Main result -/

/-- Where the configuration leaves nothing to chance and sets no limit to the time, two solvers that
differ in the generator and the time only give the same replies to the same calls, and still differ in
nothing else after each of them. -/
theorem seeds_do_not_matter (hm : m.solver.config.Seedless) (ht : Solver.Twins m.solver m'.solver)
    (h : List.Forall₂ Call.Alike calls calls') :
    List.Forall₂ (fun x y => x.1 = y.1 ∧ Solver.Twins x.2.solver y.2.solver)
      (m.transcript calls) (m'.transcript calls') := by
  induction h generalizing m m' with
  | nil => exact .nil
  | @cons call call' _ _ hcall _ ih =>
    obtain ⟨hanswer, hm', ht'⟩ := hcall.parallel.answers hm ht
    rw [← m.solver_make call] at hm' ht'
    rw [← m'.solver_make call'] at ht'
    exact .cons ⟨hanswer, ht'⟩ (ih hm' ht')

theorem seedless_default : Config.Seedless default := ⟨by decide +kernel, Or.inl (by decide +kernel), rfl⟩

/-- A new solver and one of another seed, with two clauses and a solve by different clocks. -/
theorem seeds_do_not_matter_default :
    let calls (clock : Nat → Nat) : List Call := [.ensureAtoms 3, .addClause [⟨1, true⟩, ⟨2, true⟩],
      .addClause [⟨1, true⟩, ⟨2, false⟩, ⟨3, true⟩], .solve clock 5]
    List.Forall₂ (fun x y => x.1 = y.1 ∧ Solver.Twins x.2.solver y.2.solver)
      ((Session.ofConfig default).transcript (calls fun _ => 0))
      (((Session.ofConfig default).make (.reseed (.ofSeed 7))).transcript (calls id)) := by
  intro calls
  apply seeds_do_not_matter
  · exact seedless_default
  · exact ⟨.ofSeed 7, 0, rfl⟩
  · exact .cons (.same _) (.cons (.same _) (.cons (.same _) (.cons (.solve _ _ _) .nil)))

end ClauseLearning
