import ClauseLearning.Proofs.Dimacs.Script
import ClauseLearning.Proofs.Text.Tokens

/-!
# The grammar of formulas

`Grammatical` says when the lines of a formula, which are those before a line of `%` but for blank lines and comments
(`body`), are well formed, and does so without the state of a reader. Grammatical lines are a problem line, if any, and
lines of integers after it (`Headed`), and then the grammar asks no more than that the atoms are bounded and that the
last clause is closed (`grammatical_iff`).
-/

namespace ClauseLearning

namespace Dimacs

/-! ## The grammar -/

/-- The first character of a line that is not blank. -/
def firstInk (line : List Char) : Option Char := line.find? (! Text.isBlank ·)

/-- The lines before the first line of `%`, but for blank lines and comments. -/
def body (lines : List (List Char)) : List (List Char) :=
  (lines.takeWhile (firstInk · != some '%')).filter fun line => firstInk line != none && firstInk line != some 'c'

/-- The lines of a text that make up the formula. -/
def formula (text : String) : List (List Char) := body (text.toList.splitOn '\n')

/-- The line is a problem line. -/
def isProblem (line : List Char) : Bool := firstInk line == some 'p'

/-- There is no problem line among the lines. -/
def Headless (lines : List (List Char)) : Prop := ∀ line ∈ lines, isProblem line = false

/-- The words of the lines but for problem lines. -/
def tokens (lines : List (List Char)) : List (List Char) := (lines.filter (! isProblem ·)).flatMap Text.words

/-- The integers of the lines. -/
def integers (lines : List (List Char)) : List Int := (tokens lines).filterMap Text.signed32?

/-- The parts of integers between zeros, and before the first zero, as clauses. -/
def segments (ints : List Int) : List Clause := (ints.splitOn 0).dropLast.map (·.map Literal.ofInt)

/-- All words are integers. -/
def Parsed (words : List (List Char)) : Prop := ∀ word ∈ words, (Text.signed32? word).isSome = true

/-- The last integer, if any, is zero. -/
def Closed (ints : List Int) : Prop := ∀ i ∈ ints.getLast?, i = 0

instance (lines : List (List Char)) : Decidable (Headless lines) :=
  inferInstanceAs (Decidable (∀ line ∈ lines, isProblem line = false))

instance (words : List (List Char)) : Decidable (Parsed words) :=
  inferInstanceAs (Decidable (∀ word ∈ words, (Text.signed32? word).isSome = true))

instance (ints : List Int) : Decidable (Closed ints) := inferInstanceAs (Decidable (∀ i ∈ ints.getLast?, i = 0))

/-- The line begins with the words of a problem line and its two counts. -/
def Declares (line : List Char) (problem : Problem) : Prop :=
  ∃ atoms clauses more, Text.words line = ['p'] :: ['c', 'n', 'f'] :: atoms :: clauses :: more ∧
    Text.unsigned64? atoms = some problem.atoms ∧ Text.unsigned64? clauses = some problem.clauses

/-- The lines are those of a formula. -/
structure Grammatical (lines : List (List Char)) : Prop where
  /-- There is at most one problem line. -/
  single : (lines.filter isProblem).length ≤ 1
  /-- A problem line declares its counts, and no integer comes before it. -/
  header : ∀ before line after, lines = before ++ line :: after → isProblem line = true →
    (∃ problem, Declares line problem ∧ problem.atoms ≤ maxAtom) ∧ integers before = []
  /-- All words of other lines are integers. -/
  parsed : Parsed (tokens lines)
  /-- The atoms are among the declared ones. -/
  declared : ∀ line ∈ lines, isProblem line = true → ∀ problem, Declares line problem →
    ∀ i ∈ integers lines, i ≠ 0 → i.natAbs ≤ problem.atoms
  /-- Without a problem line, there is a limit for the atoms. -/
  undeclared : Headless lines → ∀ i ∈ integers lines, i ≠ 0 → i.natAbs ≤ headerlessLimit
  /-- The last clause is closed. -/
  closed : Closed (integers lines)

variable {lines rest : List (List Char)} {line : List Char} {words more : List (List Char)} {problem : Option Problem}

/-! ## Words -/

@[simp] theorem parsed_nil : Parsed [] := fun _ h => nomatch h

theorem parsed_cons {word : List Char} :
    Parsed (word :: words) ↔ (Text.signed32? word).isSome = true ∧ Parsed words := List.forall_mem_cons

theorem parsed_append : Parsed (words ++ more) ↔ Parsed words ∧ Parsed more := List.forall_mem_append

/-! ## Lines -/

theorem lineKind_eq_skipped_iff : lineKind line = .skipped ↔ firstInk line = none ∨ firstInk line = some 'c' := by
  unfold lineKind firstInk
  generalize List.find? _ line = ink
  split <;> simp_all

theorem lineKind_eq_last_iff : lineKind line = .last ↔ firstInk line = some '%' := by
  unfold lineKind firstInk
  generalize List.find? _ line = ink
  split <;> simp_all

theorem lineKind_eq_problem_iff : lineKind line = .problem ↔ isProblem line = true := by
  unfold lineKind isProblem firstInk
  generalize List.find? _ line = ink
  split <;> simp_all

theorem isProblem_eq_false (h : lineKind line = .integers) : isProblem line = false := by
  rw [Bool.eq_false_iff, Ne, ← lineKind_eq_problem_iff, h]
  decide

@[simp] theorem body_nil : body [] = [] := rfl

theorem body_skipped (h : lineKind line = .skipped) : body (line :: lines) = body lines := by
  rw [body, body]
  rcases lineKind_eq_skipped_iff.mp h with hink | hink <;> simp [hink]

theorem body_last (h : lineKind line = .last) : body (line :: lines) = [] := by
  simp [body, lineKind_eq_last_iff.mp h]

theorem body_problem (h : lineKind line = .problem) : body (line :: lines) = line :: body lines := by
  simp [body, beq_iff_eq.mp (lineKind_eq_problem_iff.mp h)]

theorem body_integers (h : lineKind line = .integers) : body (line :: lines) = line :: body lines := by
  have hskipped : ¬(firstInk line = none ∨ firstInk line = some 'c') := by
    rw [← lineKind_eq_skipped_iff, h]
    decide
  have hlast : firstInk line ≠ some '%' := by
    rw [Ne, ← lineKind_eq_last_iff, h]
    decide
  simp [body, not_or.mp hskipped, hlast]

/-- A line of the body is not blank. -/
theorem words_ne_nil_of_mem_body (h : line ∈ body lines) : Text.words line ≠ [] := by
  rw [body, List.mem_filter, Bool.and_eq_true] at h
  obtain ⟨c, hc⟩ := Option.ne_none_iff_exists'.mp (bne_iff_ne.mp h.2.1)
  refine Text.words_ne_nil ⟨c, List.mem_of_find?_eq_some hc, ?_⟩
  have := List.find?_some hc
  rwa [Bool.not_eq_true'] at this

@[simp] theorem headless_nil : Headless [] := fun _ h => nomatch h

theorem headless_cons : Headless (line :: lines) ↔ isProblem line = false ∧ Headless lines := List.forall_mem_cons

theorem filter_isProblem_eq_nil_iff : lines.filter isProblem = [] ↔ Headless lines := by
  simp [Headless]

theorem tokens_problem (h : isProblem line = true) (lines : List (List Char)) :
    tokens (line :: lines) = tokens lines := by
  rw [tokens, List.filter_cons_of_neg (by simp [h]), tokens]

theorem tokens_integers (h : isProblem line = false) (lines : List (List Char)) :
    tokens (line :: lines) = Text.words line ++ tokens lines := by
  rw [tokens, List.filter_cons_of_pos (by simp [h]), List.flatMap_cons, tokens]

theorem integers_integers (h : isProblem line = false) (lines : List (List Char)) :
    integers (line :: lines) = (Text.words line).filterMap Text.signed32? ++ integers lines := by
  rw [integers, tokens_integers h, List.filterMap_append, integers]

/-- The counts of a problem line are those it declares. -/
theorem problem?_eq_some_iff {problem : Problem} : problem? line = some problem ↔ Declares line problem := by
  unfold Declares problem?
  constructor
  · split
    · rename_i atoms clauses more heq
      intro h
      simp only [bind, pure, Option.bind_eq_some_iff, Option.some.injEq] at h
      obtain ⟨m, hm, k, hk, rfl⟩ := h
      exact ⟨atoms, clauses, more, heq, hm, hk⟩
    · intro h
      cases h
  · rintro ⟨atoms, clauses, more, heq, hm, hk⟩
    simp [heq, hm, hk]

theorem Declares.eq {problem problem' : Problem} (h : Declares line problem) (h' : Declares line problem') :
    problem = problem' :=
  Option.some.inj ((problem?_eq_some_iff.mpr h).symm.trans (problem?_eq_some_iff.mpr h'))

theorem length_segments (ints : List Int) : (segments ints).length = ints.count 0 := by
  have hparts : (ints.splitOn 0).length = ints.count 0 + 1 := by
    induction ints with
    | nil => rfl
    | cons i ints ih =>
      rw [List.splitOn_cons_eq_if_modifyHead, List.count_cons]
      split
      · rw [List.length_cons, ih]
      · rw [List.length_modifyHead, ih, Nat.add_zero]
  rw [segments, List.length_map, List.length_dropLast, hparts, Nat.add_sub_cancel]

/-! ## The problem line -/

/-- The lines begin with a problem line or have none, and what they are after it. -/
inductive Headed : List (List Char) → Option Problem → List (List Char) → Prop
  | without {lines : List (List Char)} (h : Headless lines) : Headed lines none lines
  | behind {line : List Char} {lines : List (List Char)} {problem : Problem} (hline : isProblem line = true)
      (hd : problem? line = some problem) (h : Headless lines) : Headed (line :: lines) (some problem) lines

theorem Headed.tokens_eq (h : Headed lines problem rest) : tokens lines = tokens rest := by
  cases h with
  | without h => rfl
  | behind hline hd h => exact tokens_problem hline rest

theorem Headed.integers_eq (h : Headed lines problem rest) : integers lines = integers rest :=
  congrArg (List.filterMap Text.signed32?) h.tokens_eq

/-- The largest atom that may be used. -/
def limit (problem : Option Problem) : Nat := problem.elim headerlessLimit (·.atoms)

theorem grammatical_without (hrest : Headless lines) (h : Parsed (tokens lines))
    (hbound : ∀ i ∈ integers lines, i.natAbs ≤ headerlessLimit) (hend : Closed (integers lines)) :
    Grammatical lines where
  single := by
    rw [filter_isProblem_eq_nil_iff.mpr hrest]
    exact Nat.zero_le 1
  header := by
    rintro before line after rfl hline
    rw [hrest line (by simp)] at hline
    cases hline
  parsed := h
  declared := by
    intro line hmem hline
    rw [hrest line hmem] at hline
    cases hline
  undeclared _ i hi _ := hbound i hi
  closed := hend

theorem grammatical_behind {d : Problem} (hline : isProblem line = true) (hd : Declares line d) (hrest : Headless rest)
    (h : Parsed (tokens rest)) (hmax : d.atoms ≤ maxAtom) (hbound : ∀ i ∈ integers rest, i.natAbs ≤ d.atoms)
    (hend : Closed (integers rest)) : Grammatical (line :: rest) := by
  have htokens : tokens (line :: rest) = tokens rest := tokens_problem hline rest
  have hintegers : integers (line :: rest) = integers rest := congrArg (List.filterMap Text.signed32?) htokens
  have honly : ∀ other ∈ line :: rest, isProblem other = true → other = line := by
    intro other hmem hother
    rcases List.mem_cons.mp hmem with rfl | hmem
    · rfl
    · rw [hrest other hmem] at hother
      cases hother
  constructor
  case single =>
    rw [List.filter_cons_of_pos hline, filter_isProblem_eq_nil_iff.mpr hrest]
    exact Nat.le_refl 1
  case header =>
    intro before other after hsplit hother
    cases before with
    | nil =>
      cases hsplit
      exact ⟨⟨d, hd, hmax⟩, rfl⟩
    | cons first before =>
      have hmem : other ∈ rest := by rw [(List.cons.inj hsplit).2]; simp
      rw [hrest other hmem] at hother
      cases hother
  case parsed =>
    rw [htokens]
    exact h
  case declared =>
    intro other hmem hother problem hproblem i hi _
    cases honly other hmem hother
    rw [hintegers] at hi
    rw [hproblem.eq hd]
    exact hbound i hi
  case undeclared =>
    intro hnone
    rw [hnone line List.mem_cons_self] at hline
    cases hline
  case closed =>
    rw [hintegers]
    exact hend

/-- Of lines that are read, the grammar asks for bounds, and that the last clause is closed. -/
theorem grammatical_iff (hh : Headed lines problem rest) (h : Parsed (tokens rest)) : Grammatical lines ↔
      (∀ d ∈ problem, d.atoms ≤ maxAtom) ∧ (∀ i ∈ integers rest, i.natAbs ≤ limit problem) ∧
      Closed (integers rest) := by
  have hzero : ∀ {m : Nat} {i : Int}, (i ≠ 0 → i.natAbs ≤ m) → i.natAbs ≤ m := by omega
  have hintegers := hh.integers_eq
  cases hh with
  | without hrest =>
    constructor
    · intro hg
      exact ⟨by simp, fun i hi => hzero (hg.undeclared hrest i hi), hg.closed⟩
    · rintro ⟨-, hbound, hend⟩
      exact grammatical_without hrest h hbound hend
  | behind hline hd hrest =>
    rename_i line d
    rw [problem?_eq_some_iff] at hd
    constructor
    · intro hg
      obtain ⟨⟨d', hd', hmax⟩, -⟩ := hg.header [] line rest rfl hline
      rw [hd'.eq hd] at hmax
      rw [← hintegers]
      exact ⟨by simpa using hmax, fun i hi => hzero (hg.declared line List.mem_cons_self hline d hd i hi), hg.closed⟩
    · rintro ⟨hmax, hbound, hend⟩
      exact grammatical_behind hline hd hrest h (hmax d rfl) hbound hend

/-- Grammatical lines that are not blank are a problem line, if any, and lines of integers after it. -/
theorem Grammatical.headed (hg : Grammatical lines) (hne : ∀ line ∈ lines, Text.words line ≠ []) :
    ∃ problem rest, Headed lines problem rest ∧ Parsed (tokens rest) := by
  by_cases hnone : Headless lines
  · exact ⟨none, lines, .without hnone, hg.parsed⟩
  · simp only [Headless, not_forall, Bool.not_eq_false] at hnone
    obtain ⟨line, hmem, hline⟩ := hnone
    obtain ⟨before, after, rfl⟩ := List.append_of_mem hmem
    obtain ⟨⟨d, hd, -⟩, hbefore⟩ := hg.header before line after rfl hline
    have hsingle := hg.single
    rw [List.filter_append, List.filter_cons_of_pos hline, List.length_append, List.length_cons] at hsingle
    have hfirst : Headless before := filter_isProblem_eq_nil_iff.mp (List.eq_nil_of_length_eq_zero (by omega))
    have hrest : Headless after := filter_isProblem_eq_nil_iff.mp (List.eq_nil_of_length_eq_zero (by omega))
    cases before with
    | nil =>
      have hh := Headed.behind hline (problem?_eq_some_iff.mpr hd) hrest
      refine ⟨some d, after, hh, ?_⟩
      rw [← hh.tokens_eq]
      exact hg.parsed
    | cons first before =>
      -- the words of the first line would be integers before the problem line
      have hparsed := hg.parsed
      obtain ⟨word, words, hwords⟩ := List.exists_cons_of_ne_nil (hne first (by simp))
      rw [List.cons_append, tokens_integers (hfirst first (by simp)), hwords] at hparsed
      obtain ⟨i, hi⟩ := Option.isSome_iff_exists.mp (hparsed word (by simp))
      rw [integers_integers (hfirst first (by simp)), hwords, List.filterMap_cons_some hi] at hbefore
      cases hbefore

end Dimacs

end ClauseLearning
