import ClauseLearning.Proofs.Formula.Atoms

/-!
# New atoms and additions commute

It does not matter whether atoms are added before a clause of known literals or after it: the clause is answered in the
same way, and the solver is the same in the end (`addClause_grown`, `ensureAtoms_addClause`).
-/

namespace ClauseLearning

variable {F : List Clause} {s t : Solver} {c d : Clause} {l : Literal} {key : ClauseKey} {drawn : Bool × Generator}

/-! ## Tables -/

theorem setIfInBounds_push {α : Type} {xs : Array α} {i : Nat} (hi : i < xs.size) (x y : α) :
    (xs.push y).setIfInBounds i x = (xs.setIfInBounds i x).push y := by
  ext j hj hj'
  · simp
  · simp only [Array.size_setIfInBounds, Array.size_push] at hj hj'
    grind

theorem modify_append {α : Type} {xs : Array α} {i : Nat} (hi : i < xs.size) (ys : Array α) (f : α → α) :
    (xs ++ ys).modify i f = xs.modify i f ++ ys := by
  ext j hj hj'
  · simp
  · grind

theorem AtomTable.value_grow {a : AtomTable} (h : a.Aligned) (hl : l.atom < a.size) (p : Bool) (n : Nat)
    (r : Option ClauseKey) : (a.grow p).value l n r = (a.value l n r).grow p := by
  have hlevels : l.atom < a.levels.size := by rw [h.levels]; exact hl
  have hreasons : l.atom < a.reasons.size := by rw [h.reasons]; exact hl
  have hsize : (a.value l n r).size = a.size := a.size_value l n r
  simp only [grow, value] at *
  rw [hsize, setIfInBounds_push hl, setIfInBounds_push hlevels, setIfInBounds_push hreasons]

namespace Watches

variable {w : Watches} {x : Nat}

theorem addBinary_ensure (hl : w.covers l) (b : BinaryWatch) :
    (w.ensure x).addBinary l b = (w.addBinary l b).ensure x := by
  rw [covers_iff] at hl
  simp only [ensure, addBinary, modify_append hl, Array.size_modify]

theorem addLong_ensure (hl : w.covers l) (key : ClauseKey) :
    (w.ensure x).addLong l key = (w.addLong l key).ensure x := by
  rw [covers_iff] at hl
  simp only [ensure, addLong, modify_append hl, Array.size_modify]

theorem watched_ensure (hd : ∀ l ∈ d, w.covers l) (key : ClauseKey) :
    (w.ensure x).watched d key = (w.watched d key).ensure x := by
  match d with
  | [] => rfl
  | [k] => rfl
  | [k, l] =>
    have hk := hd k List.mem_cons_self
    have hl : (w.addBinary k ⟨l, key⟩).covers l := covers_addBinary (hd l (by simp))
    simp only [watched, addBinary_ensure hk, addBinary_ensure hl]
  | k :: l :: m :: d =>
    have hk := hd k List.mem_cons_self
    have hl : (w.addLong k key).covers l := covers_addLong key (hd l (by simp))
    simp only [watched, addLong_ensure hk, addLong_ensure hl]

end Watches

/-! ## An addition after a new atom -/

namespace Solver

/-- The outcome with the state changed. -/
def onState {α : Type} (f : Solver → Solver) : EStateM.Result Error Solver α → EStateM.Result Error Solver α
  | .ok a t => .ok a (f t)
  | .error e t => .error e (f t)

theorem begun_grown (s : Solver) (drawn : Bool × Generator) : (s.grown drawn).begun = s.begun.grown drawn := by
  by_cases h : s.status = .configuration <;> simp [grown, begun, h]

theorem stored_grown (hd : ∀ l ∈ d, s.watches.covers l) (key : ClauseKey) :
    (s.grown drawn).stored d key = (s.stored d key).grown drawn := by
  simp only [stored, grown, begun, Watches.watched_ensure hd]
  rfl

theorem assigned_grown (h : s.atoms.Aligned) (hl : l.atom < s.atoms.size) (r : Option ClauseKey) :
    (s.grown drawn).assigned l r = (s.assigned l r).grown drawn := by
  simp only [assigned, grown, begun, AtomTable.value_grow h hl, AtomTable.size_value]
  rfl

theorem kept_grown (h : s.atoms.Aligned) (hd : ∀ l ∈ d, s.watches.covers l ∧ l.atom < s.atoms.size) :
    (s.grown drawn).kept d = onState (·.grown drawn) (s.kept d) := by
  match d with
  | [] => simp [kept, onState, grown, begun]
  | [l] =>
    obtain ⟨hcovers, hlt⟩ := hd l (List.mem_singleton_self l)
    simp only [kept, onState]
    rw [stored_grown fun m hm => (hd m hm).1, assigned_grown (s := s.stored [l] _) h hlt]
  | k :: l :: rest =>
    have hclauses : (s.grown drawn).clauses = s.clauses := rfl
    rw [kept, kept, hclauses]
    · cases s.clauses.freshKey (k :: l :: rest) .given with
      | ok key => exact congrArg (EStateM.Result.ok _) (stored_grown (fun m hm => (hd m hm).1) key)
      | error e => rfl
    all_goals simp

theorem satisfied_grown (s : Solver) (drawn : Bool × Generator) (c : Clause) :
    c.satisfied (s.grown drawn).atoms.valuation = c.satisfied s.atoms.valuation := by
  have hholds : (s.grown drawn).atoms.valuation.holds = s.atoms.valuation.holds := by
    funext l
    exact congrArg (· == some l.polarity) (s.valueOf_grown drawn l.atom)
  rw [Clause.satisfied, Clause.satisfied, hholds]

theorem reduced_grown (s : Solver) (drawn : Bool × Generator) (c : Clause) : (s.grown drawn).reduced c = s.reduced c :=
  congrArg (List.filter · c) (funext fun l => congrArg Option.isNone (s.valueOf_grown drawn l.atom))

theorem Knows.grown (h : s.Knows l) (drawn : Bool × Generator) : (s.grown drawn).Knows l := by
  refine ⟨h.1, Nat.le_trans h.2 ?_⟩
  simp only [atomCount, size_grown]
  omega

theorem defect_grown (hc : ∀ l ∈ c, s.Knows l) (drawn : Bool × Generator) : (s.grown drawn).defect c = s.defect c := by
  rw [defect, defect, find_unknown_eq_none_iff.mpr hc, find_unknown_eq_none_iff.mpr fun l hl => (hc l hl).grown drawn]

theorem addition_grown (h : Consistent F s) (hc : ∀ l ∈ c, s.Knows l) (drawn : Bool × Generator) :
    (s.grown drawn).addition c = onState (·.grown drawn) (s.addition c) := by
  have htrail : (s.grown drawn).trail = s.trail := rfl
  have hopen := h.reduced_open (c := c.normalise) fun l hl => hc l (Clause.mem_normalise.mp hl)
  unfold addition
  rw [htrail, defect_grown hc, satisfied_grown, reduced_grown, begun_grown]
  cases s.trail.isDecided with
  | true => rfl
  | false =>
    cases s.defect c with
    | some cause => rfl
    | none =>
      cases c.normalise.satisfied s.atoms.valuation with
      | true => rfl
      | false =>
        refine kept_grown (s := s.begun) h.agrees.aligned fun l hl => ⟨(hopen l hl).1, ?_⟩
        have hknown := hc l (Clause.mem_normalise.mp (mem_reduced.mp hl).1)
        have hpos : topAtom < s.atoms.size := AtomTable.lt_size_of_valueOf h.agrees.top
        obtain ⟨-, hle⟩ := hknown
        show l.atom < s.atoms.size
        simp only [topAtom, atomCount] at *
        omega

end Solver

theorem Sound.grown (h : Sound F s) (drawn : Bool × Generator) : Sound F (s.grown drawn) :=
  (Alike.other _ _ drawn.2 _).sound (h.grow drawn.1).beginInput.sound

/-- A clause of known literals is answered in the same way after a new atom, and what it does is the same. -/
theorem addClause_grown (h : Sound F s) (hc : ∀ l ∈ c, s.Knows l) (drawn : Bool × Generator) :
    Solver.addClause c (s.grown drawn) = Solver.onState (·.grown drawn) (Solver.addClause c s) := by
  rw [addClause_eq (h.grown drawn).toConsistent, addClause_eq h.toConsistent, Solver.addition_grown h.toConsistent hc]

/-! ## Additions and any number of atoms -/

/-- An addition changes neither the number of atoms nor what is drawn for the next one. -/
theorem addClause_undrawn (h : Sound F s) (c : Clause) :
    let t := Solver.after (Solver.addClause c) s
    t.atoms.Aligned ∧ t.atoms.size = s.atoms.size ∧ t.draw = s.draw := by
  have ha := h.agrees.aligned
  unfold Solver.after
  cases hr : Solver.addClause c s with
  | error e t => rcases refuses_of_addClause h.toConsistent hr with ⟨-, rfl⟩ | ⟨-, -, rfl⟩ <;> exact ⟨ha, rfl, rfl⟩
  | ok r t =>
    cases (adds_of_addClause h.toConsistent hr).2 with
    | unit _ => exact ⟨ha.value _ _ _, AtomTable.size_value _ _ _ _, rfl⟩
    | _ => exact ⟨ha, rfl, rfl⟩

theorem after_onState {α : Type} {m : SolverM α} {f : Solver → Solver} {t : Solver} (h : m t = Solver.onState f (m s)) :
    Solver.answer m t = Solver.answer m s ∧ Solver.after m t = f (Solver.after m s) := by
  unfold Solver.answer Solver.after
  rw [h]
  cases m s <;> exact ⟨rfl, rfl⟩

/-- By the atoms, with the clause passed on from one to the next. -/
theorem addAtoms_addClause (h : Sound F s) (hc : ∀ l ∈ c, s.Knows l) {n : Nat} (hn : Solver.addAtoms n s = .ok () t) :
    Solver.answer (Solver.addClause c) t = Solver.answer (Solver.addClause c) s ∧
      Solver.addAtoms n (Solver.after (Solver.addClause c) s) = .ok () (Solver.after (Solver.addClause c) t) := by
  induction n generalizing s with
  | zero =>
    cases hn
    exact ⟨rfl, rfl⟩
  | succ n ih =>
    obtain ⟨hroom, drawn, hdraw, hn⟩ := (Solver.addAtoms_succ_ok_iff h.agrees.aligned).mp hn
    obtain ⟨hanswer, hafter⟩ := after_onState (addClause_grown h hc drawn)
    obtain ⟨hanswer', hn'⟩ := ih (h.grown drawn) (fun l hl => (hc l hl).grown drawn) hn
    -- the same is drawn for the atom after the clause
    obtain ⟨haligned, hsize, hundrawn⟩ := addClause_undrawn h c
    refine ⟨hanswer'.trans hanswer,
      (Solver.addAtoms_succ_ok_iff haligned).mpr ⟨hsize ▸ hroom, drawn, hundrawn.trans hdraw, ?_⟩⟩
    rwa [hafter] at hn'

/-- Atoms may be added before a clause of known literals or after it. -/
theorem ensureAtoms_addClause (h : Sound F s) (hc : ∀ l ∈ c, s.Knows l) {count : Nat}
    (hn : Solver.ensureAtoms count s = .ok () t) :
    Solver.answer (Solver.addClause c) t = Solver.answer (Solver.addClause c) s ∧
      Solver.ensureAtoms count (Solver.after (Solver.addClause c) s) =
      .ok () (Solver.after (Solver.addClause c) t) := by
  rw [Solver.ensureAtoms_apply] at hn ⊢
  rw [Solver.atomCount, (addClause_undrawn h c).2.1]
  exact addAtoms_addClause h hc hn

end ClauseLearning
