/-
# Models

A problem is a dynamic program: states, decisions that lead from state to
state, and a cost for each of them.  A relaxation says how states are merged,
what an edge costs once its target is merged, and what a state is worth at
most and at least.

The engine maximises.  `Model.orient` presents a model so that maximising it
answers the question asked: values are negated for a minimisation, where the
upper bound is the negated lower bound.
-/

import DiagramSearch.Sense
import DiagramSearch.Variables

namespace DiagramSearch

/-- A combinatorial problem as a dynamic program. -/
structure Problem (σ V : Type) where
  /-- The number of variables to assign. -/
  «variables» : Nat
  /-- The state before any decision. -/
  initialState : σ
  /-- The value before any decision. -/
  initialValue : V
  /-- The state that a decision leads to.  The first argument numbers the
  applications of a whole session from zero: a lawful problem ignores it, and
  one that does not is what the determinism check is there to catch. -/
  transition : Nat → σ → Decision → σ
  /-- What a decision adds to the value. -/
  cost : σ → Decision → V
  /-- The decisions on a variable that are possible in a state. -/
  domain : Nat → σ → List Decision

/-- How the states of a problem are merged and bounded. -/
structure Relaxation (σ V : Type) where
  /-- One state that stands for all of the given ones. -/
  merge : List σ → σ
  /-- The cost of an edge from `source` to `target` once `target` is merged
  into `merged`. -/
  relax : (source target merged : σ) → Decision → V → V
  /-- At least the worth of every completion over the given free variables. -/
  upperBound : σ → Variables → V
  /-- At most the worth of every completion over the given free variables. -/
  lowerBound : σ → Variables → V

/-- A problem with a relaxation of it. -/
structure Model (σ V : Type) where
  problem : Problem σ V
  relaxation : Relaxation σ V

namespace Problem

variable {σ V : Type} [Value V]

/-- The problem whose maximisation answers the question. -/
def orient (p : Problem σ V) (sense : Sense) : Problem σ V :=
  { p with
    initialValue := sense.orient p.initialValue
    cost := fun s d => sense.orient (p.cost s d) }

/-- Transitions do not depend on when they are applied. -/
def Pure (p : Problem σ V) : Prop :=
  ∀ i j s d, p.transition i s d = p.transition j s d

end Problem

namespace Relaxation

variable {σ V : Type} [Value V]

/-- The relaxation of the oriented problem. -/
def orient (r : Relaxation σ V) (sense : Sense) : Relaxation σ V where
  merge := r.merge
  relax source target merged d c :=
    sense.orient (r.relax source target merged d (sense.orient c))
  upperBound s free :=
    match sense with
    | .maximize => r.upperBound s free
    | .minimize => -r.lowerBound s free
  lowerBound s free :=
    match sense with
    | .maximize => r.lowerBound s free
    | .minimize => -r.upperBound s free

end Relaxation

/-- The model as the maximising engine sees it. -/
def Model.orient {σ V : Type} [Value V] (m : Model σ V) (sense : Sense) : Model σ V where
  problem := m.problem.orient sense
  relaxation := m.relaxation.orient sense

end DiagramSearch
