/-
# Faults of a model

The checks that accompany a compilation find a model that breaks its contract.
A fault carries what was found; `message` words it.
-/

import DiagramSearch.Decision
import DiagramSearch.Sense

namespace DiagramSearch

/-- What a check may find wrong with a model. -/
inductive Fault (σ V : Type) where
  /-- One decision applied twice to a state gave two states. -/
  | nonDeterministic (state : σ) (decision : Decision) (first second : σ)
  /-- A state has a completion worth more than its upper bound. -/
  | inadmissible (state : σ) (depth : Nat) (bound actual : V)
  /-- An absorbed state has a completion worth more than the merged one's. -/
  | unsound (merged state : σ) (relaxed exact : V)
deriving Repr

namespace Fault

variable {σ V : Type}

/-- The fault in the user's space, its values oriented by the sense. -/
def orient [Value V] (sense : Sense) : Fault σ V → Fault σ V
  | nonDeterministic state decision first second =>
    nonDeterministic state decision first second
  | inadmissible state depth bound actual =>
    inadmissible state depth (sense.orient bound) (sense.orient actual)
  | unsound merged state relaxed exact =>
    unsound merged state (sense.orient relaxed) (sense.orient exact)

/-- The wording of a fault. -/
def message [Label σ] [Label V] : Fault σ V → String
  | nonDeterministic state decision first second =>
    "transition is not deterministic: applying " ++ text decision ++ " to " ++ text state
      ++ " gave " ++ text first ++ " then " ++ text second
  | inadmissible state depth bound actual =>
    "fast upper bound of " ++ text state ++ " (depth " ++ text depth ++ ") is not admissible: "
      ++ text bound ++ " < " ++ text actual
  | unsound merged state relaxed exact =>
    "relaxation is unsound: merged node " ++ text merged ++ " is worth " ++ text relaxed
      ++ " but absorbed " ++ text state ++ " is worth " ++ text exact

end Fault
end DiagramSearch
