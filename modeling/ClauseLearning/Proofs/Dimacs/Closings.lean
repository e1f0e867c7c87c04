import ClauseLearning.Proofs.Dimacs.Feasible
import ClauseLearning.Proofs.Dimacs.Grammar

/-!
# The scripts of grammatical lines

The script of a text is feasible exactly if its lines are grammatical (`feasible_script_iff`), and then it adds the
clauses between the zeros, in order (`Grammatical.script`). The reader does not see where lines of integers end: their
script is that of their integers in a row (`closings`).
-/

namespace ClauseLearning

namespace Dimacs

variable {lines rest : List (List Char)} {line : List Char} {words : List (List Char)} {problem : Option Problem}
  {p : Progress} {ints more : List Int} {count number n : Nat}

/-! ## The script of integers -/

/-- The actions of integers in a row, and what has been read after them. -/
def closings : List Int → Progress → List Action × Progress
  | [], p => ([], p)
  | i :: ints, p =>
    if i = 0 then
      let rest := closings ints { p with clauses := p.clauses + 1, pending := #[] }
      (closeActions p.problem p.pending.toList ++ rest.1, rest.2)
    else closings ints { p with pending := p.pending.push i }

theorem closings_append (ints more : List Int) (p : Progress) : closings (ints ++ more) p =
    ((closings ints p).1 ++ (closings more (closings ints p).2).1, (closings more (closings ints p).2).2) := by
  induction ints generalizing p with
  | nil => rfl
  | cons i ints ih =>
    rw [List.cons_append, closings, closings]
    split
    · simp only [ih, List.append_assoc]
    · exact ih _

theorem integerActions_parsed (h : Parsed words) (p : Progress) :
    integerActions number words p = closings (words.filterMap Text.signed32?) p := by
  induction words generalizing p with
  | nil => rfl
  | cons word words ih =>
    obtain ⟨hword, hwords⟩ := parsed_cons.mp h
    obtain ⟨i, hi⟩ := Option.isSome_iff_exists.mp hword
    rw [List.filterMap_cons_some hi, integerActions, hi, closings]
    by_cases hzero : i = 0
    · subst hzero
      simp only [ih hwords, if_pos]
    · rw [if_neg hzero, ← ih hwords]
      split
      · rename_i heq
        cases heq
      · rename_i heq
        exact absurd (Option.some.inj heq) hzero
      · rename_i heq
        rw [Option.some.inj heq]

/-- Where lines end makes no difference to the actions. -/
theorem lineActions_parsed (hproblem : Headless (body lines)) (h : Parsed (tokens (body lines))) (p : Progress) :
    lineActions count (lines.map some) p = closings (integers (body lines)) p := by
  induction lines generalizing count p with
  | nil => rfl
  | cons line lines ih =>
    rw [List.map_cons, lineActions]
    cases hk : lineKind line with
    | skipped =>
      rw [body_skipped hk] at hproblem h ⊢
      exact ih hproblem h p
    | last =>
      rw [body_last hk]
      rfl
    | problem =>
      rw [body_problem hk] at hproblem
      have := (headless_cons.mp hproblem).1
      rw [lineKind_eq_problem_iff.mp hk] at this
      cases this
    | integers =>
      have hline := isProblem_eq_false hk
      rw [body_integers hk] at hproblem h ⊢
      rw [tokens_integers hline, parsed_append] at h
      rw [integers_integers hline, closings_append]
      dsimp only
      rw [integerActions_parsed h.1, ih (headless_cons.mp hproblem).2 h.2]

/-! ## The problem line -/

/-- The actions of a problem line. -/
def opening : Option Problem → List Action
  | none => []
  | some problem => [.ensureAtoms problem.atoms]

theorem lineActions_behind {problem : Problem} (hbody : body lines = line :: rest) (hline : isProblem line = true)
    (hd : problem? line = some problem) (hrest : Headless rest) (h : Parsed (tokens rest)) :
    lineActions count (lines.map some) {} =
      (opening problem ++ (closings (integers rest) { problem }).1, (closings (integers rest) { problem }).2) := by
  induction lines generalizing count with
  | nil => cases hbody
  | cons first lines ih =>
    rw [List.map_cons, lineActions]
    cases hk : lineKind first with
    | skipped =>
      rw [body_skipped hk] at hbody
      exact ih hbody
    | last =>
      rw [body_last hk] at hbody
      cases hbody
    | problem =>
      rw [body_problem hk] at hbody
      cases hbody
      have hfirst : problemActions (count + 1) line {} = (opening problem, { problem }) := by
        simp [problemActions, hd, opening]
      dsimp only
      rw [hfirst, lineActions_parsed hrest h]
    | integers =>
      rw [body_integers hk] at hbody
      cases hbody
      rw [isProblem_eq_false hk] at hline
      cases hline

theorem lineActions_headed (hh : Headed (body lines) problem rest) (h : Parsed (tokens rest)) :
    lineActions count (lines.map some) {} =
      (opening problem ++ (closings (integers rest) { problem }).1, (closings (integers rest) { problem }).2) := by
  generalize hbody : body lines = read at hh
  cases hh with
  | without hrest =>
    subst hbody
    exact lineActions_parsed hrest h {}
  | behind hline hd hrest => exact lineActions_behind hbody hline hd hrest h

/-! ## Scripts without failures -/

/-- There is no failure among the actions. -/
def Unfailing (actions : List Action) : Prop := ∀ e, .fail e ∉ actions

theorem unfailing_append {actions more : List Action} :
    Unfailing (actions ++ more) ↔ Unfailing actions ∧ Unfailing more := by
  simp only [Unfailing, List.mem_append, not_or, forall_and]

theorem not_unfailing (e : Error) : ¬Unfailing [.fail e] := fun h => h e (List.mem_singleton_self _)

/-- Something other than blank lines and comments has been read. -/
def Progress.started (p : Progress) : Bool := p.problem.isSome || 0 < p.clauses || !p.pending.isEmpty

/-- All words of a line are integers, and after one of them no problem line may come. -/
theorem parsed_of_unfailing (h : Unfailing (integerActions number words p).1) :
    Parsed words ∧ (p.started = true ∨ words ≠ [] → (integerActions number words p).2.started = true) := by
  induction words generalizing p with
  | nil => exact ⟨by simp, fun hp => hp.resolve_right fun hne => hne rfl⟩
  | cons word words ih =>
    rw [integerActions] at h ⊢
    split at h
    · exact absurd h (not_unfailing _)
    · rename_i hword
      obtain ⟨hwords, hstarted⟩ := ih (unfailing_append.mp h).2
      refine ⟨parsed_cons.mpr ⟨by rw [hword]; rfl, hwords⟩, fun _ => ?_⟩
      exact hstarted (.inl (by simp [Progress.started]))
    · rename_i i hzero hword
      obtain ⟨hwords, hstarted⟩ := ih h
      refine ⟨parsed_cons.mpr ⟨by rw [hword]; rfl, hwords⟩, fun _ => ?_⟩
      exact hstarted (.inl (by simp [Progress.started]))

/-- After something was read, all lines are lines of integers. -/
theorem headless_of_unfailing (hp : p.started = true) (h : Unfailing (lineActions count (lines.map some) p).1) :
    Headless (body lines) ∧ Parsed (tokens (body lines)) := by
  induction lines generalizing count p with
  | nil => simp [tokens]
  | cons line lines ih =>
    rw [List.map_cons, lineActions] at h
    cases hk : lineKind line with
    | skipped =>
      rw [hk] at h
      rw [body_skipped hk]
      exact ih hp h
    | last =>
      rw [body_last hk]
      simp [tokens]
    | problem =>
      rw [hk] at h
      have hmisplaced : (problemActions (count + 1) line p).1 = [.fail (.parse (.misplacedProblem (count + 1)))] :=
        congrArg Prod.fst (if_pos hp)
      dsimp only at h
      rw [hmisplaced, unfailing_append] at h
      exact absurd h.1 (not_unfailing _)
    | integers =>
      rw [hk] at h
      have hline := isProblem_eq_false hk
      obtain ⟨hfirst, hrest⟩ := unfailing_append.mp h
      obtain ⟨hwords, hstarted⟩ := parsed_of_unfailing hfirst
      obtain ⟨hproblem, hparsed⟩ := ih (hstarted (.inl hp)) hrest
      rw [body_integers hk, tokens_integers hline]
      exact ⟨headless_cons.mpr ⟨hline, hproblem⟩, parsed_append.mpr ⟨hwords, hparsed⟩⟩

theorem headed_of_unfailing (h : Unfailing (lineActions count (lines.map some) {}).1) :
    ∃ problem rest, Headed (body lines) problem rest ∧ Parsed (tokens rest) := by
  induction lines generalizing count with
  | nil => exact ⟨none, [], .without (by simp), by simp [tokens]⟩
  | cons line lines ih =>
    rw [List.map_cons, lineActions] at h
    cases hk : lineKind line with
    | skipped =>
      rw [hk] at h
      rw [body_skipped hk]
      exact ih h
    | last =>
      rw [body_last hk]
      exact ⟨none, [], .without (by simp), by simp [tokens]⟩
    | problem =>
      rw [hk] at h
      obtain ⟨hfirst, hrest⟩ := unfailing_append.mp h
      rw [body_problem hk]
      cases hd : problem? line with
      | none =>
        have hbad : (problemActions (count + 1) line {}).1 = [.fail (.parse .problemSpecification)] := by
          simp [problemActions, hd]
        rw [hbad] at hfirst
        exact absurd hfirst (not_unfailing _)
      | some problem =>
        have hnext : (problemActions (count + 1) line {}).2 = { problem := some problem } := by
          simp [problemActions, hd]
        rw [hnext] at hrest
        obtain ⟨hproblem, hparsed⟩ := headless_of_unfailing rfl hrest
        exact ⟨some problem, _, .behind (lineKind_eq_problem_iff.mp hk) hd hproblem, hparsed⟩
    | integers =>
      rw [hk] at h
      have hline := isProblem_eq_false hk
      obtain ⟨hfirst, hrest⟩ := unfailing_append.mp h
      obtain ⟨hwords, hstarted⟩ := parsed_of_unfailing hfirst
      have hbody : body (line :: lines) = line :: body lines := body_integers hk
      have hne : Text.words line ≠ [] := words_ne_nil_of_mem_body (by rw [hbody]; exact List.mem_cons_self)
      obtain ⟨hproblem, hparsed⟩ := headless_of_unfailing (hstarted (.inr hne)) hrest
      rw [hbody]
      refine ⟨none, _, .without (headless_cons.mpr ⟨hline, hproblem⟩), ?_⟩
      rw [tokens_integers hline]
      exact parsed_append.mpr ⟨hwords, hparsed⟩

/-! ## Feasible scripts -/

/-- An atom up to the largest one may be used, and then it is there. -/
theorem feasible_allowActions (hn : ∀ d ∈ problem, d.atoms ≤ n) (i : Int) :
    (Feasible n (allowActions problem i) ↔ i.natAbs ≤ limit problem) ∧
      (i.natAbs ≤ limit problem → i.natAbs ≤ atomsAfter n (allowActions problem i)) := by
  by_cases hbound : limit problem < i.natAbs
  · rw [show allowActions problem i = [.fail (.clause (.unknownAtom i))] from if_pos hbound]
    exact ⟨⟨fun h => h.elim, fun h => absurd hbound (Nat.not_lt.mpr h)⟩, fun h => absurd hbound (Nat.not_lt.mpr h)⟩
  · have hle := Nat.not_lt.mp hbound
    cases problem with
    | none =>
      have hmax : i.natAbs ≤ maxAtom := Nat.le_trans hle (by decide)
      rw [show allowActions none i = [.ensureAtoms i.natAbs] from if_neg hbound]
      exact ⟨⟨fun _ => hle, fun _ => ⟨hmax, trivial⟩⟩, fun _ => Nat.le_max_right _ _⟩
    | some d =>
      rw [show allowActions (some d) i = [] from if_neg hbound]
      exact ⟨⟨fun _ => hle, fun _ => trivial⟩, fun _ => Nat.le_trans hle (hn d rfl)⟩

theorem feasible_allowActions_all (hn : ∀ d ∈ problem, d.atoms ≤ n) (ints : List Int) :
    (Feasible n (ints.flatMap (allowActions problem)) ↔ ∀ i ∈ ints, i.natAbs ≤ limit problem) ∧
      ((∀ i ∈ ints, i.natAbs ≤ limit problem) →
        ∀ i ∈ ints, i.natAbs ≤ atomsAfter n (ints.flatMap (allowActions problem))) := by
  induction ints generalizing n with
  | nil => simp [Feasible]
  | cons i ints ih =>
    obtain ⟨hfeasible, hafter⟩ := feasible_allowActions hn i
    obtain ⟨hrest, hall⟩ := ih (n := atomsAfter n (allowActions problem i)) fun d hd =>
      Nat.le_trans (hn d hd) (le_atomsAfter _ _)
    rw [List.flatMap_cons, feasible_append, hfeasible, hrest, atomsAfter_append]
    simp only [List.forall_mem_cons, true_and]
    exact fun h => ⟨Nat.le_trans (hafter h.1) (le_atomsAfter _ _), hall h.2⟩

theorem feasible_closeActions (hn : ∀ d ∈ problem, d.atoms ≤ n) (h : ∀ i ∈ ints, i ≠ 0) :
    Feasible n (closeActions problem ints) ↔ ∀ i ∈ ints, i.natAbs ≤ limit problem := by
  obtain ⟨hfeasible, hafter⟩ := feasible_allowActions_all hn ints
  rw [closeActions, feasible_append, hfeasible]
  refine ⟨fun hclose => hclose.1, fun hbound => ⟨hbound, ?_, trivial⟩⟩
  intro l hl
  obtain ⟨i, hi, rfl⟩ := List.mem_map.mp hl
  have := h i hi
  have := hafter hbound i hi
  simp only [Literal.ofInt]
  omega

/-- All integers are bounded if the last clause is closed. -/
theorem feasible_closings (hn : ∀ d ∈ p.problem, d.atoms ≤ n) (hp : ∀ i ∈ p.pending.toList, i ≠ 0)
    (hend : (closings ints p).2.pending = #[]) :
    Feasible n (closings ints p).1 ↔ ∀ i ∈ p.pending.toList ++ ints, i.natAbs ≤ limit p.problem := by
  induction ints generalizing p n with
  | nil =>
    have hpending : p.pending = #[] := hend
    rw [hpending]
    simp [closings, Feasible]
  | cons i ints ih =>
    rw [closings] at hend ⊢
    split at hend
    · rename_i hzero
      have hn' : ∀ d ∈ p.problem, d.atoms ≤ atomsAfter n (closeActions p.problem p.pending.toList) := fun d hd =>
        Nat.le_trans (hn d hd) (le_atomsAfter _ _)
      rw [if_pos hzero]
      dsimp only
      rw [feasible_append, feasible_closeActions hn hp,
        ih (p := { p with clauses := p.clauses + 1, pending := #[] }) hn' (by simp) hend]
      simp [hzero, or_imp, forall_and]
    · rename_i hzero
      rw [if_neg hzero, ih (p := { p with pending := p.pending.push i }) hn ?_ hend]
      · simp
      · simpa [or_imp, forall_and, hzero] using hp

/-! ## What a script adds -/

theorem closings_problem (ints : List Int) (p : Progress) : (closings ints p).2.problem = p.problem := by
  induction ints generalizing p with
  | nil => rfl
  | cons i ints ih =>
    rw [closings]
    split <;> exact ih _

theorem closings_clauses (ints : List Int) (p : Progress) : (closings ints p).2.clauses = p.clauses + ints.count 0 := by
  induction ints generalizing p with
  | nil => rfl
  | cons i ints ih =>
    rw [closings, List.count_cons]
    split
    · rename_i hzero
      refine (ih _).trans ?_
      simp only [hzero, BEq.rfl, if_true]
      omega
    · rename_i hzero
      rw [ih, if_neg (by simpa using hzero), Nat.add_zero]

theorem closings_pending (hp : p.pending = #[]) : (closings ints p).2.pending = #[] ↔ Closed ints := by
  rcases List.eq_nil_or_concat ints with rfl | ⟨before, i, rfl⟩
  · simp [closings, hp, Closed]
  · rw [List.concat_eq_append, closings_append]
    by_cases hzero : i = 0 <;> simp [closings, Closed, hzero]

theorem clausesOf_closeActions (problem : Option Problem) (ints : List Int) :
    clausesOf (closeActions problem ints) = [ints.map Literal.ofInt] := by
  have hallow : clausesOf (ints.flatMap (allowActions problem)) = [] := by
    induction ints with
    | nil => rfl
    | cons i ints ih =>
      rw [List.flatMap_cons, clausesOf_append, ih, List.append_nil, allowActions]
      split
      · rfl
      · split <;> rfl
  rw [closeActions, clausesOf_append, hallow]
  rfl

theorem clausesOf_closings (hp : 0 ∉ p.pending.toList) :
    clausesOf (closings ints p).1 = segments (p.pending.toList ++ ints) := by
  induction ints generalizing p with
  | nil =>
    rw [List.append_nil, segments, List.splitOn_eq_singleton hp]
    rfl
  | cons i ints ih =>
    rw [closings]
    split
    · rename_i hzero
      rw [clausesOf_append, clausesOf_closeActions, ih (by simp), hzero, segments, segments,
        List.splitOn_append_cons_self_of_not_mem hp, List.dropLast_cons_of_ne_nil (List.splitOn_ne_nil _ _)]
      rfl
    · rename_i hzero
      rw [ih (by simpa [eq_comm, hzero] using hp)]
      simp

/-- The script of lines, the last clause of which is closed. -/
theorem script_headed (hh : Headed (body lines) problem rest) (h : Parsed (tokens rest))
    (hend : Closed (integers rest)) : script (lines.map some) =
      (opening problem ++ (closings (integers rest) { problem }).1, (closings (integers rest) { problem }).2) := by
  have hpending : (closings (integers rest) { problem }).2.pending = #[] := (closings_pending rfl).mpr hend
  rw [script, lineActions_headed hh h]
  simp [hpending]

/-! ## Feasible scripts and grammatical lines -/

theorem feasible_opening (problem : Option Problem) :
    (Feasible 0 (opening problem) ↔ ∀ d ∈ problem, d.atoms ≤ maxAtom) ∧
    ∀ d ∈ problem, d.atoms ≤ atomsAfter 0 (opening problem) := by
  cases problem <;> simp [opening, Feasible, atomsAfter]

theorem feasible_script (hh : Headed (body lines) problem rest) (h : Parsed (tokens rest)) :
    Feasible 0 (script (lines.map some)).1 ↔
      (∀ d ∈ problem, d.atoms ≤ maxAtom) ∧ (∀ i ∈ integers rest, i.natAbs ≤ limit problem) ∧
      Closed (integers rest) := by
  by_cases hend : Closed (integers rest)
  · obtain ⟨hopening, hatoms⟩ := feasible_opening problem
    rw [script_headed hh h hend, feasible_append, hopening,
      feasible_closings (p := { problem }) hatoms (by simp) ((closings_pending rfl).mpr hend)]
    simp [hend]
  · have hpending : (closings (integers rest) { problem }).2.pending ≠ #[] := fun hnil =>
      hend ((closings_pending rfl).mp hnil)
    rw [script, lineActions_headed hh h]
    refine ⟨fun hfeasible => ?_, fun hall => absurd hall.2.2 hend⟩
    refine absurd hfeasible (not_feasible_of_fail (e := .clause .unterminated) ?_ 0)
    simp [hpending]

/-- The script of a text is feasible exactly if its lines are grammatical. -/
theorem feasible_script_iff : Feasible 0 (script (lines.map some)).1 ↔ Grammatical (body lines) := by
  constructor
  · intro hf
    have hunfailing : Unfailing (script (lines.map some)).1 := fun e he => not_feasible_of_fail he 0 hf
    obtain ⟨problem, rest, hh, h⟩ := headed_of_unfailing (unfailing_append.mp hunfailing).1
    exact (grammatical_iff hh h).mpr ((feasible_script hh h).mp hf)
  · intro hg
    obtain ⟨problem, rest, hh, h⟩ := hg.headed fun _ => words_ne_nil_of_mem_body
    exact (feasible_script hh h).mpr ((grammatical_iff hh h).mp hg)

/-- The script of grammatical lines adds the clauses between the zeros, and counts them. -/
theorem Grammatical.script (hg : Grammatical (body lines)) :
    clausesOf (script (lines.map some)).1 = segments (integers (body lines)) ∧
      (script (lines.map some)).2.clauses = (integers (body lines)).count 0 := by
  obtain ⟨problem, rest, hh, h⟩ := hg.headed fun _ => words_ne_nil_of_mem_body
  have hend : Closed (integers rest) := ((grammatical_iff hh h).mp hg).2.2
  have hopening : clausesOf (opening problem) = [] := by cases problem <;> rfl
  rw [script_headed hh h hend, hh.integers_eq, clausesOf_append,
    hopening, clausesOf_closings (by simp), closings_clauses]
  exact ⟨rfl, Nat.zero_add _⟩

end Dimacs

end ClauseLearning
