/-
# Settings of a solver

A draft collects what was decided so far.  Four things have to be given: the
problem, its relaxation, the ranking of states and the order of the queue.  All
else has a default.
-/

import DiagramSearch.Diagram.Request
import DiagramSearch.Width

namespace DiagramSearch

/-- All that a solver has to be told. -/
structure Settings (σ κ V : Type) where
  model : Model σ V
  ranking : σ → σ → Ordering
  /-- The order of the open sub-problems; the greatest is explored first. -/
  queueOrder : Subproblem σ V → Subproblem σ V → Ordering
  /-- The width of the diagrams of a sub-problem. -/
  width : Subproblem σ V → Nat
  branching : Branching σ
  dominance : Option (Dominance σ κ)
  /-- How the nodes to merge are chosen. -/
  mergeOrder : Reduction σ V
  /-- How the nodes to drop are chosen. -/
  dropOrder : Reduction σ V
  cutset : CutsetKind
  useCache : Bool
  checks : Checks
  /-- The time a search has taken, in nanoseconds, after a number of
  iterations. -/
  clock : Nat → Nat

/-- Settings of which some are still open. -/
structure Draft (σ κ V : Type) where
  problem : Option (Problem σ V) := none
  relaxation : Option (Relaxation σ V) := none
  ranking : Option (σ → σ → Ordering) := none
  queueOrder : Option (Subproblem σ V → Subproblem σ V → Ordering) := none
  width : Option (Subproblem σ V → Nat) := none
  branching : Option (Branching σ) := none
  dominance : Option (Dominance σ κ) := none
  mergeOrder : Option (Reduction σ V) := none
  dropOrder : Option (Reduction σ V) := none
  cutset : Option CutsetKind := none
  useCache : Option Bool := none
  checks : Option Checks := none

/-- A setting without default that was left open. -/
inductive Missing where
  | problem
  | relaxation
  | ranking
  | frontier
deriving Repr, DecidableEq

namespace Missing

/-- The name of the setting. -/
def name : Missing → String
  | problem => "problem"
  | relaxation => "relaxation"
  | ranking => "ranking"
  | frontier => "frontier"

/-- The wording of the complaint. -/
def message (m : Missing) : String :=
  "`" ++ m.name ++ "` must be initialized"

end Missing

/-- The width of a sub-problem under a rule. -/
def Width.of {σ V : Type} (w : Width) (s : Subproblem σ V) : Nat :=
  w.after s.path.length

namespace Draft

variable {σ κ V : Type} [Value V]

/-- A setting that has to be given. -/
def required {α : Type} (m : Missing) : Option α → Except Missing α
  | some a => .ok a
  | none => .error m

/-- Completes a draft with the defaults. -/
def build (d : Draft σ κ V) : Except Missing (Settings σ κ V) := do
  let problem ← required .problem d.problem
  let relaxation ← required .relaxation d.relaxation
  let ranking ← required .ranking d.ranking
  let queueOrder ← required .frontier d.queueOrder
  return {
    model := ⟨problem, relaxation⟩
    ranking
    queueOrder
    width := d.width.getD (Width.fixed 10).of
    branching := d.branching.getD Branching.least
    dominance := d.dominance
    mergeOrder := d.mergeOrder.getD Reduction.byCost
    dropOrder := d.dropOrder.getD Reduction.byCost
    cutset := d.cutset.getD .lastExactLayer
    useCache := d.useCache.getD false
    checks := d.checks.getD .off
    clock := fun _ => 0 }

end Draft
end DiagramSearch
