import ClauseLearning.Proofs.Dimacs.Acceptance

/-!
# Writing formulas and reading them back

Words may be laid out on a line with any blanks (`Spread`), and on lines with blank lines and comments between them, and
anything after a line of `%` (`Layout`). However the words of a list of clauses are laid out, behind a problem line or
without one (`Written`), they are read as these clauses, by what the grammar asks for (`Written.headed`): the layout
makes no difference to the solver (`readText_written`).
-/

namespace ClauseLearning

namespace Dimacs

/-! ## Layouts -/

/-- The words are those of the line. -/
inductive Spread : List (List Char) → List Char → Prop
  | nil : Spread [] []
  | blank {c : Char} {words : List (List Char)} {line : List Char}
      (hc : Text.isBlank c = true) (h : Spread words line) : Spread words (c :: line)
  | word {word : List Char} {words : List (List Char)} {line : List Char} (hne : word ≠ [])
      (hink : ∀ c ∈ word, Text.isBlank c = false) (hend : ∀ c, line.head? = some c → Text.isBlank c = true)
      (h : Spread words line) : Spread (word :: words) (word ++ line)

/-- The words are those of the lines, but for comments, up to a line of `%`. -/
inductive Layout : List (List Char) → List (List Char) → Prop
  | nil : Layout [] []
  | row {words more : List (List Char)} {line : List Char} {lines : List (List Char)} (hline : Spread words line)
      (h : Layout more lines) : Layout (words ++ more) (line :: lines)
  | comment {words : List (List Char)} {line : List Char} {lines : List (List Char)} (hline : firstInk line = some 'c')
      (h : Layout words lines) : Layout words (line :: lines)
  | rest {line : List Char} (hline : firstInk line = some '%') (lines : List (List Char)) : Layout [] (line :: lines)

/-- The words of a problem line. -/
def Problem.words (problem : Problem) : List (List Char) :=
  [['p'], ['c', 'n', 'f'], (toString problem.atoms).toList, (toString problem.clauses).toList]

/-- The words of clauses, one after the other. -/
def wordsOf (clauses : List Clause) : List (List Char) := clauses.flatMap fun c => Text.words c.dimacs.toList

/-- The clauses are written on the lines, behind a problem line if there is one. -/
inductive Written (clauses : List Clause) : Option Problem → List (List Char) → Prop
  | without {lines : List (List Char)} (h : Layout (wordsOf clauses) lines) : Written clauses none lines
  | behind {problem : Problem} {line : List Char} {lines : List (List Char)} (hline : Spread problem.words line)
      (h : Layout (wordsOf clauses) lines) : Written clauses (some problem) (line :: lines)
  | skip {problem : Option Problem} {line : List Char} {lines : List (List Char)}
      (hline : firstInk line = none ∨ firstInk line = some 'c') (h : Written clauses problem lines) :
      Written clauses problem (line :: lines)

/-- There are so many atoms for the clauses: the declared ones, or without a problem line those up
to the largest that is used. -/
inductive Spans (clauses : List Clause) : Option Problem → Nat → Prop
  | declared {problem : Problem} (hmax : problem.atoms ≤ maxAtom) (hclauses : problem.clauses < 18446744073709551616)
      (hc : ∀ c ∈ clauses, ∀ l ∈ c, 1 ≤ l.atom ∧ l.atom ≤ problem.atoms) : Spans clauses (some problem) problem.atoms
  | used {n : Nat} (hmax : n ≤ headerlessLimit) (hc : ∀ c ∈ clauses, ∀ l ∈ c, 1 ≤ l.atom ∧ l.atom ≤ n)
      (hlargest : n = 0 ∨ ∃ c ∈ clauses, ∃ l ∈ c, l.atom = n) : Spans clauses none n

variable {clauses : List Clause} {c : Clause} {l : Literal} {problem : Option Problem} {line word : List Char}
  {words lines rest : List (List Char)} {n : Nat}

/-! ## Words on lines -/

theorem Spread.words_eq (h : Spread words line) : Text.words line = words := by
  induction h with
  | nil => rfl
  | blank hc _ ih => rw [Text.words_blank hc, ih]
  | word hne hink hend _ ih => rw [Text.words_word hne hink hend, ih]

/-- Every line is a layout of its words. -/
theorem spread_words : ∀ line : List Char, Spread (Text.words line) line
  | [] => .nil
  | c :: line => by
    cases hc : Text.isBlank c with
    | true =>
      rw [Text.words_blank hc]
      exact .blank hc (spread_words line)
    | false =>
      -- the word goes on up to the next blank
      have hsplit : c :: line = (c :: line.takeWhile (! Text.isBlank ·)) ++ line.dropWhile (! Text.isBlank ·) := by
        rw [List.cons_append, List.takeWhile_append_dropWhile]
      have hink : ∀ d ∈ c :: line.takeWhile (! Text.isBlank ·), Text.isBlank d = false :=
        List.forall_mem_cons.mpr ⟨hc, fun d hd => by simpa using List.all_eq_true.mp List.all_takeWhile d hd⟩
      have hend : ∀ d, (line.dropWhile (! Text.isBlank ·)).head? = some d → Text.isBlank d = true := by
        intro d hd
        have := List.head?_dropWhile_not (! Text.isBlank ·) line
        rw [hd] at this
        simpa using this
      rw [hsplit, Text.words_word (List.cons_ne_nil _ _) hink hend]
      exact .word (List.cons_ne_nil _ _) hink hend (spread_words _)
termination_by line => line.length
decreasing_by
  all_goals simp only [List.length_cons]
  · have := (List.dropWhile_sublist (! Text.isBlank ·) (l := line)).length_le
    omega
  · omega

theorem spread_iff : Spread words line ↔ Text.words line = words := by
  constructor
  · exact Spread.words_eq
  · rintro rfl
    exact spread_words line

/-- A line begins with its first word, but for blanks. -/
theorem Spread.firstInk_eq (h : Spread words line) : firstInk line = words.head?.bind List.head? := by
  induction h with
  | nil => rfl
  | blank hc _ ih =>
    rw [firstInk, List.find?_cons_of_neg (by simp [hc])]
    exact ih
  | word hne hink hend _ ih =>
    rename_i word words line _
    obtain ⟨c, word, rfl⟩ := List.exists_cons_of_ne_nil hne
    rw [firstInk, List.cons_append, List.find?_cons_of_pos (by simp [hink c List.mem_cons_self])]
    rfl

/-! ## Numerals on lines -/

/-- The word begins like a number. -/
def IsNumeral (word : List Char) : Prop := ∃ c, word.head? = some c ∧ (c.isDigit = true ∨ c = '-')

theorem isNumeral_toString (i : Int) : IsNumeral (toString i).toList := by
  obtain ⟨c, digits, hdigits⟩ := List.exists_cons_of_ne_nil (Text.toString_ne_nil i)
  exact ⟨c, by rw [hdigits]; rfl, Text.mem_toString (by rw [hdigits]; exact List.mem_cons_self)⟩

/-- A line that begins with a numeral is a line of integers. -/
theorem Spread.lineKind_eq (h : Spread (word :: words) line) (hword : IsNumeral word) : lineKind line = .integers := by
  obtain ⟨c, hhead, hc⟩ := hword
  have hink : firstInk line = some c := h.firstInk_eq.trans hhead
  cases hk : lineKind line with
  | integers => rfl
  | skipped =>
    rcases lineKind_eq_skipped_iff.mp hk with hnone | hcomment
    · cases hink.symm.trans hnone
    · cases hink.symm.trans hcomment
      exact absurd hc (by decide)
  | last =>
    cases hink.symm.trans (lineKind_eq_last_iff.mp hk)
    exact absurd hc (by decide)
  | problem =>
    cases hink.symm.trans (beq_iff_eq.mp (lineKind_eq_problem_iff.mp hk))
    exact absurd hc (by decide)

/-- Numerals are read as they were laid out. -/
theorem Layout.tokens_eq (h : Layout words lines) (hwords : ∀ word ∈ words, IsNumeral word) :
    Headless (body lines) ∧ tokens (body lines) = words := by
  induction h with
  | nil => simp [tokens]
  | comment hline _ ih =>
    rw [body_skipped (lineKind_eq_skipped_iff.mpr (.inr hline))]
    exact ih hwords
  | rest hline lines =>
    rw [body_last (lineKind_eq_last_iff.mpr hline)]
    simp [tokens]
  | row hline _ ih =>
    rename_i words more line lines _
    obtain ⟨hfirst, hmore⟩ := List.forall_mem_append.mp hwords
    obtain ⟨hproblem, htokens⟩ := ih hmore
    cases words with
    | nil =>
      rw [body_skipped (lineKind_eq_skipped_iff.mpr (.inl hline.firstInk_eq))]
      exact ⟨hproblem, htokens⟩
    | cons word words =>
      have hk := hline.lineKind_eq (hfirst word List.mem_cons_self)
      have hk' := isProblem_eq_false hk
      rw [body_integers hk, tokens_integers hk', hline.words_eq, htokens]
      exact ⟨headless_cons.mpr ⟨hk', hproblem⟩, rfl⟩

/-! ## The words of clauses -/

/-- The numbers that a clause is written with. -/
def numbers (c : Clause) : List Int := c.map Literal.toInt ++ [0]

theorem toList_dimacs (c : Clause) :
    c.dimacs.toList = c.flatMap (fun l => (toString l.toInt).toList ++ [' ']) ++ ['0'] := by
  have hfold : ∀ (c : Clause) (s : String), (c.foldl (fun s l => s ++ toString l ++ " ") s).toList =
      s.toList ++ c.flatMap fun l => (toString l.toInt).toList ++ [' '] := by
    intro c
    induction c with
    | nil => simp
    | cons l c ih =>
      intro s
      rw [List.foldl_cons, ih, String.toList_append, String.toList_append, List.flatMap_cons]
      simp only [List.append_assoc]
      rfl
  rw [Clause.dimacs, String.toList_append, hfold]
  rfl

theorem words_dimacs (c : Clause) : Text.words c.dimacs.toList = (numbers c).map fun i => (toString i).toList := by
  rw [toList_dimacs]
  induction c with
  | nil => decide +kernel
  | cons l c ih =>
    have hink : ∀ d ∈ (toString l.toInt).toList, Text.isBlank d = false := by
      intro d hd
      rcases Text.mem_toString hd with hdigit | rfl
      · exact Text.isBlank_of_isDigit hdigit
      · decide
    rw [List.flatMap_cons, List.append_assoc, List.append_assoc, List.singleton_append,
      Text.words_word (Text.toString_ne_nil _) hink (by simp; decide), Text.words_blank (by decide), ih]
    rfl

theorem wordsOf_eq (clauses : List Clause) :
    wordsOf clauses = (clauses.flatMap numbers).map fun i => (toString i).toList := by
  rw [wordsOf, List.map_flatMap]
  exact congrArg (clauses.flatMap ·) (funext words_dimacs)

theorem isNumeral_of_mem_wordsOf (h : word ∈ wordsOf clauses) : IsNumeral word := by
  rw [wordsOf_eq, List.mem_map] at h
  obtain ⟨i, -, rfl⟩ := h
  exact isNumeral_toString i

theorem natAbs_toInt (l : Literal) : l.toInt.natAbs = l.atom := by
  unfold Literal.toInt
  split <;> omega

/-- The numbers of clauses are bounded by the atoms. -/
theorem natAbs_le_of_mem_numbers (hc : ∀ c ∈ clauses, ∀ l ∈ c, l.atom ≤ n) :
    ∀ i ∈ clauses.flatMap numbers, i.natAbs ≤ n := by
  intro i hi
  obtain ⟨c, hmem, hi⟩ := List.mem_flatMap.mp hi
  rcases List.mem_append.mp hi with hi | hi
  · obtain ⟨l, hl, rfl⟩ := List.mem_map.mp hi
    rw [natAbs_toInt]
    exact hc c hmem l hl
  · rw [List.mem_singleton.mp hi]
    exact Nat.zero_le n

/-- Numbers up to the largest atom are read back. -/
theorem signed32?_of_natAbs_le {i : Int} (h : i.natAbs ≤ maxAtom) : Text.signed32? (toString i).toList = some i := by
  simp only [maxAtom] at h
  exact Text.signed32?_toString (by omega) (by omega)

theorem integers_eq (hc : ∀ c ∈ clauses, ∀ l ∈ c, l.atom ≤ maxAtom) (h : tokens rest = wordsOf clauses) :
    (Parsed (tokens rest)) ∧ integers rest = clauses.flatMap numbers := by
  have hread : ∀ i ∈ clauses.flatMap numbers, Text.signed32? (toString i).toList = some i := fun i hi =>
    signed32?_of_natAbs_le (natAbs_le_of_mem_numbers hc i hi)
  rw [integers, h, wordsOf_eq]
  constructor
  · intro word hword
    obtain ⟨i, hi, rfl⟩ := List.mem_map.mp hword
    rw [hread i hi]
    rfl
  · rw [List.filterMap_map]
    refine (List.filterMap_congr (g := some) hread).trans List.filterMap_some

/-- The parts between the zeros are the clauses. -/
theorem segments_numbers (hc : ∀ c ∈ clauses, ∀ l ∈ c, 1 ≤ l.atom) : segments (clauses.flatMap numbers) = clauses := by
  induction clauses with
  | nil => rfl
  | cons c clauses ih =>
    obtain ⟨hfirst, hrest⟩ := List.forall_mem_cons.mp hc
    have hzero : 0 ∉ c.map Literal.toInt := by
      intro hmem
      obtain ⟨l, hl, hl0⟩ := List.mem_map.mp hmem
      have := hfirst l hl
      have := natAbs_toInt l
      omega
    have hback : (c.map Literal.toInt).map Literal.ofInt = c := by
      rw [List.map_map]
      refine (List.map_congr_left fun l hl => ?_).trans (List.map_id c)
      exact Literal.ofInt_toInt (Nat.one_le_iff_ne_zero.mp (hfirst l hl))
    rw [List.flatMap_cons, numbers, List.append_assoc, List.singleton_append, segments,
      List.splitOn_append_cons_self_of_not_mem hzero,
        List.dropLast_cons_of_ne_nil (List.splitOn_ne_nil _ _), List.map_cons, hback]
    exact congrArg (c :: ·) (ih hrest)

theorem closed_numbers (clauses : List Clause) : Closed (clauses.flatMap numbers) := by
  rcases List.eq_nil_or_concat clauses with rfl | ⟨before, c, rfl⟩
  · simp [Closed]
  · simp [Closed, numbers]

/-! ## Reading what was written -/

/-- Clauses that are written are read as a problem line, if there is one, and the words of the clauses. -/
theorem Written.headed (hw : Written clauses problem lines) (hs : Spans clauses problem n) :
    ∃ rest, Headed (body lines) problem rest ∧ tokens rest = wordsOf clauses := by
  induction hw with
  | without h =>
    obtain ⟨hproblem, htokens⟩ := h.tokens_eq fun _ => isNumeral_of_mem_wordsOf
    exact ⟨_, .without hproblem, htokens⟩
  | behind hline h =>
    rename_i problem line lines
    obtain ⟨hproblem, htokens⟩ := h.tokens_eq fun _ => isNumeral_of_mem_wordsOf
    have hk : isProblem line = true := beq_iff_eq.mpr hline.firstInk_eq
    have hdeclares : Declares line problem := by
      cases hs with
      | declared hmax hclauses hc =>
        simp only [maxAtom] at hmax
        exact ⟨_, _, [], hline.words_eq, Text.unsigned64?_toString (by omega), Text.unsigned64?_toString hclauses⟩
    rw [body_problem (lineKind_eq_problem_iff.mpr hk)]
    exact ⟨_, .behind hk (problem?_eq_some_iff.mpr hdeclares) hproblem, htokens⟩
  | skip hline _ ih =>
    rw [body_skipped (lineKind_eq_skipped_iff.mpr hline)]
    exact ih hs

namespace Spans

theorem le_maxAtom (h : Spans clauses problem n) : n ≤ maxAtom := by
  cases h with
  | declared hmax _ _ => exact hmax
  | used hmax _ _ => exact Nat.le_trans hmax (by decide)

theorem literals (h : Spans clauses problem n) : ∀ c ∈ clauses, ∀ l ∈ c, 1 ≤ l.atom ∧ l.atom ≤ n := by
  cases h with
  | declared _ _ hc => exact hc
  | used _ hc _ => exact hc

theorem le_limit (h : Spans clauses problem n) : n ≤ limit problem := by
  cases h with
  | declared _ _ _ => exact Nat.le_refl _
  | used hmax _ _ => exact hmax

end Spans

/-- The atoms that a reader asks for are declared, or are those of literals. -/
theorem ensureAtoms_of_mem_closings {ints : List Int} {p : Progress} {count : Nat}
    (h : .ensureAtoms count ∈ (closings ints p).1) : ∃ i ∈ p.pending.toList ++ ints, count = i.natAbs := by
  induction ints generalizing p with
  | nil => cases h
  | cons i ints ih =>
    rw [closings] at h
    split at h
    · rcases List.mem_append.mp h with h | h
      · rcases List.mem_append.mp h with h | h
        · obtain ⟨j, hj, h⟩ := List.mem_flatMap.mp h
          rw [allowActions] at h
          split at h
          · simp at h
          · split at h
            · cases h
            · simp only [List.mem_singleton, Action.ensureAtoms.injEq] at h
              exact ⟨j, List.mem_append_left _ hj, h⟩
        · simp at h
      · obtain ⟨j, hj, hcount⟩ := ih h
        exact ⟨j, List.mem_append_right _ (List.mem_cons_of_mem _ (by simpa using hj)), hcount⟩
    · obtain ⟨j, hj, hcount⟩ := ih h
      exact ⟨j, by simpa using hj, hcount⟩

/-- What is known of the script of clauses that are written. -/
structure Copied (clauses : List Clause) (problem : Option Problem) (n : Nat) (lines : List (List Char)) : Prop where
  grammatical : Grammatical (body lines)
  problem_eq : (script (lines.map some)).2.problem = problem
  clauses_eq : segments (integers (body lines)) = clauses
  atoms_eq : atomsAfter 0 (script (lines.map some)).1 = n

theorem copied_of_headed (hh : Headed (body lines) problem rest) (htokens : tokens rest = wordsOf clauses)
    (hs : Spans clauses problem n) : Copied clauses problem n lines := by
  have hatoms : ∀ c ∈ clauses, ∀ l ∈ c, l.atom ≤ n := fun c hc l hl => (hs.literals c hc l hl).2
  obtain ⟨hparsed, hintegers⟩ := integers_eq (fun c hc l hl => Nat.le_trans (hatoms c hc l hl) hs.le_maxAtom) htokens
  have hend : Closed (integers rest) := hintegers ▸ closed_numbers clauses
  have hbound : ∀ i ∈ integers rest, i.natAbs ≤ n := hintegers ▸ natAbs_le_of_mem_numbers hatoms
  have hmax : ∀ d ∈ problem, d.atoms ≤ maxAtom := by
    rintro d ⟨⟩
    cases hs with
    | declared hmax _ _ => exact hmax
  have hg : Grammatical (body lines) :=
    (grammatical_iff hh hparsed).mpr ⟨hmax, fun i hi => Nat.le_trans (hbound i hi) hs.le_limit, hend⟩
  have hclauses : segments (integers (body lines)) = clauses := by
    rw [hh.integers_eq, hintegers]
    exact segments_numbers fun c hc l hl => (hs.literals c hc l hl).1
  have hscript := script_headed hh hparsed hend
  refine ⟨hg, ?_, hclauses, Nat.le_antisymm (atomsAfter_le (fun count hcount => ?_) (Nat.zero_le n)) ?_⟩
  · rw [hscript]
    exact closings_problem _ _
  · rw [hscript] at hcount
    rcases List.mem_append.mp hcount with hopening | hclosings
    · cases hs with
      | declared _ _ _ => simp_all [opening]
      | used _ _ _ => cases hopening
    · obtain ⟨i, hi, rfl⟩ := ensureAtoms_of_mem_closings hclosings
      exact hbound i hi
  · cases hs with
    | declared _ _ _ =>
      rw [hscript, atomsAfter_append]
      refine Nat.le_trans ?_ (le_atomsAfter _ _)
      simp [opening, atomsAfter]
    | used _ _ hlargest =>
      rcases hlargest with rfl | ⟨c, hc, l, hl, rfl⟩
      · exact Nat.zero_le _
      · refine (feasible_script_iff.mpr hg).le_atomsAfter ?_ hl
        rwa [hg.script.1, hclauses]

/-- However clauses are written, reading them into a new solver gives the counts of the problem line, the atoms and the
number of clauses, and the solver is the one to which the atoms and then the clauses are added in order, of which only
those are refused that hold a literal and its negation; unless there are more clauses than keys. -/
theorem readText_written {config : Config} (h : IsProbability config.polarityBias.value) (hs : Spans clauses problem n)
    {text : String} (hw : Written clauses problem (text.toList.splitOn '\n')) :
    let m := replay config (.ensureAtoms n :: clauses.map .addClause)
    (readText text (.ofConfig config) = .ok ⟨problem, n, clauses.length⟩ m.solver ∧
      replay config [.readDimacs (linesOfText text)] = m ∧ m.log.map Prod.fst = clauses ∧
        ∀ entry ∈ m.log, Passes entry.2) ∨
    ClauseKey.slotCount < clauses.length ∧
      ∃ t, readText text (.ofConfig config) = .error (.store .storageExhausted) t := by
  intro m
  obtain ⟨lines, hlines, hbody⟩ := linesOfText_eq text
  obtain ⟨rest, hh, htokens⟩ := hw.headed hs
  rw [show body (text.toList.splitOn '\n') = body lines from hbody.symm] at hh
  have hc := copied_of_headed hh htokens hs
  have hcount : (integers (body lines)).count 0 = clauses.length := by rw [← length_segments, hc.clauses_eq]
  have hspec := read_spec h hc.grammatical
  rw [readText, hlines]
  cases hr : read (lines.map some) (.ofConfig config) with
  | ok r t =>
    have hnormal := hspec.of_ok hr
    obtain ⟨-, hatoms, hclauses, hreplay⟩ := read_ok h hr
    obtain ⟨hperform, hsummary⟩ := read_ok_iff.mp hr
    have hn : t.atomCount = n := hnormal.atomCount.trans hc.atoms_eq
    rw [hn, hc.clauses_eq] at hreplay
    have hlog := log_of_read h hr
    rw [hreplay, hc.clauses_eq] at hlog
    refine .inl ⟨?_, hreplay, hlog⟩
    have hsolver : m.solver = t := by
      rw [← congrArg Session.solver hreplay]
      show Solver.after (read (lines.map some)) (.ofConfig config) = t
      rw [Solver.after, hr]
    rw [hsolver, hsummary, hc.problem_eq, hn, hc.grammatical.script.2, hcount]
  | error e t =>
    obtain ⟨rfl, hfull⟩ := (Solver.yields_iff.mp hspec).2 e t hr
    exact .inr ⟨hcount ▸ hfull, t, rfl⟩

/-- Two clauses, of which the first goes over two lines with a comment between them. -/
theorem readText_written_two : let text := "c two clauses\n\np cnf 2 2\n 1\nc and\n-2 0\t2\n0\n%\n0"
    let m := replay default [.ensureAtoms 2, .addClause [⟨1, true⟩, ⟨2, false⟩], .addClause [⟨2, true⟩]]
    readText text (.ofConfig default) = .ok ⟨some ⟨2, 2⟩, 2, 2⟩ m.solver ∧
        replay default [.readDimacs (linesOfText text)] = m := by
  intro text m
  have hspans : Spans [[⟨1, true⟩, ⟨2, false⟩], [⟨2, true⟩]] (some ⟨2, 2⟩) 2 :=
    @Spans.declared _ ⟨2, 2⟩ (by decide) (by decide) (by decide)
  have hlayout : Layout (wordsOf [[⟨1, true⟩, ⟨2, false⟩], [⟨2, true⟩]])
      [" 1".toList, "c and".toList, "-2 0\t2".toList, "0".toList, "%".toList, "0".toList] := by
    rw [show wordsOf [[⟨1, true⟩, ⟨2, false⟩], [⟨2, true⟩]] = Text.words " 1".toList ++ (Text.words "-2 0\t2".toList ++
      (Text.words "0".toList ++ [])) by decide +kernel]
    exact .row (spread_words _) (.comment (by decide +kernel) (.row (spread_words _) (.row (spread_words _)
      (.rest (by decide +kernel) _))))
  have hwritten : Written [[⟨1, true⟩, ⟨2, false⟩], [⟨2, true⟩]] (some ⟨2, 2⟩) (text.toList.splitOn '\n') := by
    rw [show text.toList.splitOn '\n' = "c two clauses".toList :: [] :: "p cnf 2 2".toList ::
      [" 1".toList, "c and".toList, "-2 0\t2".toList, "0".toList, "%".toList, "0".toList] by decide +kernel]
    exact .skip (.inr (by decide +kernel))
      (.skip (.inl (by decide +kernel)) (.behind (spread_iff.mpr (by decide +kernel)) hlayout))
  rcases readText_written biased_default.polarity hspans hwritten with ⟨hread, hreplay, -⟩ | ⟨hfull, -⟩
  · exact ⟨hread, hreplay⟩
  · exact absurd hfull (by decide)

end Dimacs

end ClauseLearning
