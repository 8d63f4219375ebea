/-
# Sub-problems

A sub-problem is what is left of a problem once a path of decisions is taken:
the state reached, its value so far, a bound on what its completions are
worth, and the number of decisions taken.
-/

import DiagramSearch.Value.Basic
import DiagramSearch.Variables

namespace DiagramSearch

/-- A residual problem, its values in the maximising space of the engine. -/
structure Subproblem (σ V : Type) where
  /-- The state the path leads to. -/
  state : σ
  /-- The value of the path. -/
  value : V
  /-- The decisions taken so far. -/
  path : Path
  /-- An upper bound on the objective of every completion. -/
  bound : V
  /-- How many decisions were taken. -/
  depth : Nat
deriving Repr

namespace Subproblem

variable {σ V : Type}

/-- The variables that a path leaves free, of `n` variables. -/
def freeAfter (n : Nat) (path : Path) : Variables :=
  path.foldl (fun free d => free.erase d.var) (Variables.all n)

/-- The variables that are still free, of `n` variables. -/
def free (s : Subproblem σ V) (n : Nat) : Variables :=
  freeAfter n s.path

/-- Best bound first: sub-problems are ordered by their bound, then by their
value, then by the ranking of their states. -/
def byBound [Value V] (ranking : σ → σ → Ordering) (a b : Subproblem σ V) : Ordering :=
  ((Value.order a.bound b.bound).then (Value.order a.value b.value)).then (ranking a.state b.state)

end Subproblem
end DiagramSearch
