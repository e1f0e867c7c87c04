import ClauseLearning.ClauseStore.Basic

/-!
# Activity of clauses

Long learned clauses have an activity, which grows when they are used in the analysis of a conflict. Decay of all
activities is growth of the next bump; when a number outgrows its bound, all are scaled down.
-/

namespace ClauseLearning

namespace ClauseStore

/-- The store with the activities of all long learned clauses, and the next bump, divided by the greatest bump. -/
def rescale (s : ClauseStore) : ClauseStore :=
  let factor := 1 / s.bump.greatest
  { s with
    bump := s.bump.force (s.bump.value * factor)
    learnedSlots := s.learnedSlots.map fun slot => slot.map fun c => { c with activity := c.activity * factor } }

/-- The store with a long learned clause bumped. Other clauses have no activity. -/
def bumpActivity (s : ClauseStore) (key : ClauseKey) : ClauseStore :=
  match key with
  | .learned slot _ =>
    match s.learnedSlots[slot]? with
    | some (some c) =>
      if c.key = key then
        let activity := c.activity + s.bump.value
        let outgrown := s.bump.greatest < activity
        let s := { s with learnedSlots := s.learnedSlots.setIfInBounds slot (some { c with activity }) }
        if outgrown then s.rescale else s
      else
        s
    | _ => s
  | _ => s

/-- The store with a greater next bump, by the factor that makes older bumps decay. -/
def decayActivity (s : ClauseStore) : ClauseStore :=
  let value := s.bump.value * (1 / (1 - s.decay.value))
  let outgrown := s.bump.greatest < value
  let s := { s with bump := s.bump.force value }
  if outgrown then s.rescale else s

end ClauseStore

end ClauseLearning
