/-
# Bounds of the catalogue

A bound on the completions of a state is either left open, which is always
right, or given by a rule.  A problem may have a natural bound of its own.
-/

import DiagramSearch.Catalog.State
import DiagramSearch.Model
import DiagramSearch.Value.Binary64

namespace DiagramSearch
namespace Catalog

/-- How the completions of a state are bounded. -/
inductive BoundRule where
  /-- Not at all. -/
  | unknown
  /-- Always by the same value. -/
  | const (x : Float)
  /-- By a value for each free variable. -/
  | perVariable (x : Float)
  /-- By the sum of a value for each free variable. -/
  | «variables» (xs : Array Float)
  /-- By a value that the first element selects. -/
  | states (table : List (Int × Float)) (default : Float)
  /-- By the bound that comes with the problem. -/
  | natural
deriving Repr

/-- The bound that a rule gives. -/
def BoundRule.apply (rule : BoundRule) (unbounded : Float) (natural : State → Variables → Float)
    (s : State) (free : Variables) : Float :=
  match rule with
  | unknown => unbounded
  | const x => x
  | perVariable x => x * Float.ofNat free.size
  | «variables» xs => free.toList.foldl (fun total v => total + xs.getD v 0) 0
  | states table default => (table.lookup s.first).getD default
  | .natural => natural s free

/-- Bounds from both sides. -/
structure Bounds where
  upper : BoundRule := .unknown
  lower : BoundRule := .unknown
deriving Repr

end Catalog
end DiagramSearch
