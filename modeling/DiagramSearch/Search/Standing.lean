/-
# Standing of a search

The incumbent and the bounds of one search, in the maximising space of the
engine, and the counters that its statistics report.
-/

import DiagramSearch.Sense
import DiagramSearch.Statistics

namespace DiagramSearch

/-- Where a search stands, as the engine sees it. -/
structure Standing (V : Type) where
  sense : Sense
  /-- The value of the best solution; nothing at or below it is of interest. -/
  lower : V
  /-- A bound on every solution. -/
  upper : V
  solution : Option Path
  iterations : Nat
  queueMax : Nat
  status : Status
deriving Repr

namespace Standing

variable {V : Type} [Value V]

/-- The state of a search that did nothing yet. -/
def start (sense : Sense) : Standing V where
  sense
  lower := Value.negInf
  upper := Value.posInf
  solution := none
  iterations := 0
  queueMax := 0
  status := .unknown

/-- The value of the best solution, in the user's space. -/
def incumbent (p : Standing V) : Option V :=
  p.solution.map fun _ => p.sense.orient p.lower

/-- The tightest bound, in the user's space, if it is finite. -/
def bound (p : Standing V) : Option V :=
  let upper := max p.upper p.lower
  if Value.isFinite upper then some (p.sense.orient upper) else none

/-- A snapshot for the user. -/
def statistics (p : Standing V) (clock : Nat → Nat) : Statistics V where
  status := p.status
  iterations := p.iterations
  queueMax := p.queueMax
  elapsed := clock p.iterations
  incumbent := p.incumbent
  bound := p.bound

/-- Takes over a solution of a given value. -/
def adopt (p : Standing V) (value : V) (solution : Path) : Standing V :=
  { p with lower := value, solution := some solution, status := .sat }

/-- Ends the search, which was exhaustive or not. -/
def conclude (p : Standing V) (exhausted : Bool) : Standing V :=
  { p with
    status :=
      match exhausted, p.solution.isSome with
      | true, true => .optimal
      | true, false => .infeasible
      | false, true => .sat
      | false, false => .unknown
    upper := if exhausted then p.lower else p.upper }

end Standing
end DiagramSearch
