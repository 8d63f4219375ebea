/-
# Decisions

A decision gives a value to a variable.  A path lists decisions: first those
that lead from the root of the problem to the root of a diagram, then those of
the diagram with the deepest one first.
-/

import DiagramSearch.Label

namespace DiagramSearch

/-- The assignment of a value to a variable. -/
structure Decision where
  /-- The variable that is assigned; variables are numbered from zero. -/
  var : Nat
  /-- The value it is given. -/
  value : Int
deriving Repr, DecidableEq, Hashable, Inhabited

/-- A list of decisions. -/
abbrev Path := List Decision

namespace Decision

/-- The order of decisions: by variable, then by value. -/
def order (a b : Decision) : Ordering :=
  (compare a.var b.var).then (compare a.value b.value)

instance : Label Decision where
  text d := "Decision \x7b variable: Variable(" ++ text d.var ++ "), value: " ++ text d.value
    ++ " \x7d"

end Decision

namespace Path

/-- The lexicographic order of paths: a path stands before its extensions. -/
def order : Path → Path → Ordering
  | [], [] => .eq
  | [], _ :: _ => .lt
  | _ :: _, [] => .gt
  | a :: as, b :: bs => (a.order b).then (order as bs)

end Path
end DiagramSearch
