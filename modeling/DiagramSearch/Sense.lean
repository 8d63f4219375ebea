/-
# The sense of an optimisation

The engine maximises.  To minimise, every value is negated on its way in and
negated again on its way out; `orient` is that passage, in both directions.
-/

import DiagramSearch.Value.Basic

namespace DiagramSearch

/-- The direction of an optimisation. -/
inductive Sense where
  | maximize
  | minimize
deriving Repr, DecidableEq

namespace Sense

variable {V : Type} [Value V]

/-- Takes a value from the user's space to the engine's, and back. -/
def orient (sense : Sense) (v : V) : V :=
  match sense with
  | maximize => v
  | minimize => -v

/-- Holds when `a` is strictly better than `b`, both in the user's space. -/
def prefers (sense : Sense) (a b : V) : Bool :=
  decide (sense.orient b < sense.orient a)

/-- The worst value in the user's space. -/
def bottom (sense : Sense) : V :=
  sense.orient Value.negInf

/-- The name shown in messages. -/
def name : Sense → String
  | maximize => "Maximize"
  | minimize => "Minimize"

end Sense
end DiagramSearch
