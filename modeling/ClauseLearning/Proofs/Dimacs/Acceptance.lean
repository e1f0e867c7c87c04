import ClauseLearning.Proofs.Dimacs.Closings
import ClauseLearning.Proofs.Soundness.Moments

/-!
# What is read

On a new solver, a text is read exactly if its lines are grammatical, unless there are more clauses than keys
(`readText_accepts`). The reader then does what a caller would do who asks for all atoms and adds the clauses in order.
-/

namespace ClauseLearning

namespace Dimacs

variable {config : Config} {lines : List (List Char)} {text : String} {r : Summary} {t : Solver}

/-! ## The lines of a text -/

/-- An empty line in the end makes no difference. -/
theorem body_append_nil (lines : List (List Char)) : body (lines ++ [[]]) = body lines := by
  induction lines with
  | nil => exact body_skipped rfl
  | cons line lines ih =>
    rw [List.cons_append]
    cases hk : lineKind line with
    | skipped => rw [body_skipped hk, body_skipped hk, ih]
    | last => rw [body_last hk, body_last hk]
    | problem => rw [body_problem hk, body_problem hk, ih]
    | integers => rw [body_integers hk, body_integers hk, ih]

theorem body_pieces (cs : List Char) : body (pieces '\n' cs) = body (cs.splitOn '\n') := by
  rw [pieces]
  split
  · rename_i hlast
    conv => rhs; rw [← List.dropLast_append_getLast? [] hlast]
    exact (body_append_nil _).symm
  · rfl

/-- The lines of a text, of which the last may be empty. -/
theorem linesOfText_eq (text : String) : ∃ lines, linesOfText text = lines.map some ∧ body lines = formula text :=
  ⟨pieces '\n' text.toList, rfl, body_pieces text.toList⟩

/-! ## Reading into a new solver -/

theorem read_ok_iff {lines : List Line} : read lines (.ofConfig config) = .ok r t ↔
    performAll (script lines).1 (.ofConfig config) = .ok () t ∧
      r = ⟨(script lines).2.problem, t.atomCount, (script lines).2.clauses⟩ := by
  rw [read_eq, Solver.bind_ok_iff]
  constructor
  · rintro ⟨_, u, hu, hr⟩
    cases hr
    exact ⟨hu, rfl⟩
  · rintro ⟨ht, rfl⟩
    exact ⟨(), t, ht, rfl⟩

/-- Where the lines are grammatical, reading them fails only if there are more clauses than keys. -/
theorem read_spec (h : IsProbability config.polarityBias.value) (hg : Grammatical (body lines)) :
    Solver.Yields (read (lines.map some)) (.ofConfig config)
      (fun _ t => Normal (.ofConfig config) (script (lines.map some)).1 t) fun e _ =>
        e = .store .storageExhausted ∧ ClauseKey.slotCount < (integers (body lines)).count 0 := by
  have hf : Feasible 0 (script (lines.map some)).1 := feasible_script_iff.mpr hg
  rw [read_eq, Solver.yields_bind]
  refine (performAll_spec (ready_ofConfig h) hf).imp (fun _ t ht => ht) fun e t he => ?_
  rw [hg.script.1, length_segments] at he
  exact ⟨he.1, Nat.lt_of_lt_of_eq he.2 (Nat.zero_add _)⟩

/-- What is read without an error is grammatical, and the caller may add it in place of the reader. -/
theorem read_ok (h : IsProbability config.polarityBias.value)
    (hr : read (lines.map some) (.ofConfig config) = .ok r t) :
    Grammatical (body lines) ∧ r.atoms = t.atomCount ∧ r.clauses = (integers (body lines)).count 0 ∧
      replay config [.readDimacs (lines.map some)] =
        replay config (.ensureAtoms t.atomCount :: (segments (integers (body lines))).map .addClause) := by
  obtain ⟨hperform, rfl⟩ := read_ok_iff.mp hr
  have hg : Grammatical (body lines) := feasible_script_iff.mp (feasible_of_performAll (ready_ofConfig h) hperform)
  have hnormal := (read_spec h hg).of_ok hr
  refine ⟨hg, rfl, hg.script.2, ?_⟩
  rw [hnormal.replay hperform, hg.script.1]

/-- The log of a text that was read is of its clauses, of which only those are refused that hold
a literal and its negation. -/
theorem log_of_read (h : IsProbability config.polarityBias.value)
    (hr : read (lines.map some) (.ofConfig config) = .ok r t) :
    let log := (replay config [.readDimacs (lines.map some)]).log
    log.map Prod.fst = segments (integers (body lines)) ∧ ∀ entry ∈ log, Passes entry.2 := by
  obtain ⟨hperform, -⟩ := read_ok_iff.mp hr
  have hlog := log_of_performAll hperform
  rw [(read_ok h hr).1.script.1] at hlog
  exact hlog

/-- A text is read exactly if it is grammatical, unless it has more clauses than there are keys for. Its clauses are the
parts of its integers between zeros, and to read it is to ask for atoms and to add them in order. -/
theorem readText_accepts (h : IsProbability config.polarityBias.value) (text : String) :
    (((∃ r t, readText text (.ofConfig config) = .ok r t) ↔ Grammatical (formula text)) ∨
      Grammatical (formula text) ∧ ClauseKey.slotCount < (integers (formula text)).count 0 ∧
        ∃ t, readText text (.ofConfig config) = .error (.store .storageExhausted) t) ∧
    ∀ r t, readText text (.ofConfig config) = .ok r t →
      r.clauses = (integers (formula text)).count 0 ∧
      (replay config [.readDimacs (linesOfText text)]).log.map Prod.fst = segments (integers (formula text)) ∧
      replay config [.readDimacs (linesOfText text)] =
        replay config (.ensureAtoms t.atomCount :: (segments (integers (formula text))).map .addClause) := by
  obtain ⟨lines, hlines, hbody⟩ := linesOfText_eq text
  rw [readText, hlines, ← hbody]
  constructor
  · by_cases hg : Grammatical (body lines)
    · cases hr : read (lines.map some) (.ofConfig config) with
      | ok r t => exact .inl ⟨fun _ => hg, fun _ => ⟨r, t, rfl⟩⟩
      | error e t =>
        obtain ⟨rfl, hfull⟩ := (Solver.yields_iff.mp (read_spec h hg)).2 e t hr
        exact .inr ⟨hg, hfull, t, rfl⟩
    · exact .inl ⟨fun ⟨r, t, hr⟩ => (read_ok h hr).1, fun hg' => absurd hg' hg⟩
  · intro r t hr
    obtain ⟨-, -, hclauses, hreplay⟩ := read_ok h hr
    exact ⟨hclauses, (log_of_read h hr).1, hreplay⟩

/-- A clause that goes over two lines, and a unit clause. -/
theorem readText_accepts_two : let text := "p cnf 2 2\n1 -2\n0 2 0\n"
    ∃ r t, readText text (.ofConfig default) = .ok r t ∧ r.clauses = 2 ∧
      replay default [.readDimacs (linesOfText text)] =
        replay default [.ensureAtoms t.atomCount, .addClause [⟨1, true⟩, ⟨2, false⟩], .addClause [⟨2, true⟩]] := by
  intro text
  have hformula : formula text = ["p cnf 2 2".toList, "1 -2".toList, "0 2 0".toList] := by decide +kernel
  have hintegers : integers (formula text) = [1, -2, 0, 2, 0] := by rw [hformula]; decide +kernel
  have hg : Grammatical (formula text) := by
    rw [hformula]
    exact grammatical_behind (d := ⟨2, 2⟩) (by decide +kernel) ⟨['2'], ['2'], [], by decide +kernel⟩ (by decide +kernel)
      (by decide +kernel) (by decide) (by decide +kernel) (by decide +kernel)
  obtain ⟨haccepts, hadds⟩ := readText_accepts biased_default.polarity text
  rw [hintegers] at haccepts hadds
  rcases haccepts with haccepts | ⟨-, hfull, -⟩
  · obtain ⟨r, t, hr⟩ := haccepts.mpr hg
    obtain ⟨hclauses, -, hreplay⟩ := hadds r t hr
    exact ⟨r, t, hr, hclauses, hreplay⟩
  · exact absurd hfull (by decide)

end Dimacs

end ClauseLearning
