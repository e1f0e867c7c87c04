import ClauseLearning.Main
import ClauseLearning.Proofs.Soundness.Moments
import ClauseLearning.Proofs.Soundness.Verdicts
import ClauseLearning.Proofs.Propagation.TwoWatched
import ClauseLearning.Proofs.Propagation.Antecedents
import ClauseLearning.Proofs.Propagation.UnitClosure
import ClauseLearning.Proofs.Termination.Moves
import ClauseLearning.Proofs.Termination.Rank
import ClauseLearning.Proofs.Termination.Search
import ClauseLearning.Proofs.Formula.Retention
import ClauseLearning.Proofs.Formula.Additions
import ClauseLearning.Proofs.Building
import ClauseLearning.Proofs.Dimacs.Acceptance
import ClauseLearning.Proofs.Dimacs.Layout
import ClauseLearning.Proofs.Formula.Meaning
import ClauseLearning.Proofs.Soundness.Growth
import ClauseLearning.Proofs.ClauseStore.Slots
import ClauseLearning.Proofs.ClauseStore.Ledger
import ClauseLearning.Proofs.Exhaustion
import ClauseLearning.Proofs.Bounds
import ClauseLearning.Proofs.InStep
import ClauseLearning.Proofs.Conflict.Novelty
import ClauseLearning.Proofs.Conflict.ImplicationPoint
import ClauseLearning.Proofs.Chance.Seeds
import ClauseLearning.Proofs.Heap.Queue
import ClauseLearning.Proofs.Reduction
import ClauseLearning.Proofs.Undo
import ClauseLearning.Proofs.Decision.Completeness
import ClauseLearning.Proofs.Heap.NewValues
import ClauseLearning.Proofs.Spacing
import ClauseLearning.Proofs.Refusal
import ClauseLearning.Proofs.Luby
import ClauseLearning.Proofs.Conflict.Reuse
import ClauseLearning.Proofs.Conflict.Premises
import ClauseLearning.Proofs.Conflict.Bumps
import ClauseLearning.Proofs.Depth
