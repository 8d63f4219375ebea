/-
# What to compile

A request names the sub-problem, the kind of diagram, and the rules that guide
the compilation.  Its model is already oriented: greater is better.
-/

import DiagramSearch.Diagram.Basic
import DiagramSearch.Branching
import DiagramSearch.Journal
import DiagramSearch.Model

namespace DiagramSearch

/-- Which nodes a relaxed diagram hands out to be explored. -/
inductive CutsetKind where
  /-- The deepest layer above the first merge. -/
  | lastExactLayer
  /-- The exact nodes with an inexact child. -/
  | frontier
deriving Repr, DecidableEq

/-- How closely a model is watched. -/
inductive Checks where
  | off
  /-- Transitions and bounds are checked. -/
  | on
  /-- Merges are checked too. -/
  | extended
deriving Repr, DecidableEq

namespace Checks

/-- Whether transitions and bounds are checked. -/
def watches : Checks → Bool
  | off => false
  | on | extended => true

end Checks

/-- A compilation to carry out. -/
structure Request (σ κ V : Type) where
  kind : Kind
  model : Model σ V
  ranking : σ → σ → Ordering
  branching : Branching σ
  reduction : Reduction σ V
  dominance : Option (Dominance σ κ)
  cutset : CutsetKind
  /-- The most nodes a layer may hold; nought counts as one. -/
  width : Nat
  /-- The sub-problem to compile. -/
  residual : Subproblem σ V
  /-- The value to beat. -/
  toBeat : V
  checks : Checks

end DiagramSearch
