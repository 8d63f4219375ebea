/-
# Thresholds

A threshold is remembered for a state.  A path that reaches the state again
with at most that value need not be explored again; at exactly that value it
still has to be, unless the threshold is marked explored.
-/

import DiagramSearch.Value.Basic

namespace DiagramSearch

/-- A value to beat, and whether it was explored. -/
structure Threshold (V : Type) where
  /-- The value that has to be beaten. -/
  value : V
  /-- Whether a node with that very value was explored. -/
  explored : Bool
deriving Repr

namespace Threshold

variable {V : Type} [Value V]

/-- Thresholds are ordered by value; of two with the same value the explored
one is the tighter. -/
def order (a b : Threshold V) : Ordering :=
  (Value.order a.value b.value).then (compare a.explored b.explored)

/-- The tighter of two thresholds. -/
def tighter (a b : Threshold V) : Threshold V :=
  match a.order b with
  | .gt => a
  | _ => b

/-- Whether a path of the given value may lead further than those before it. -/
def admits (t : Threshold V) (value : V) : Bool :=
  decide (t.value < value) || (value == t.value && !t.explored)

end Threshold
end DiagramSearch
