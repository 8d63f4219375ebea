/-
# Statistics of a search

A snapshot of where a search stands, in the user's space, and the rules that
stop a search on the strength of such a snapshot.
-/

import DiagramSearch.Decision
import DiagramSearch.Value.Basic

namespace DiagramSearch

/-- Where a search stands. -/
inductive Status where
  /-- Nothing was found yet. -/
  | unknown
  /-- A solution was found, not proved optimal. -/
  | sat
  /-- The best solution was proved optimal. -/
  | optimal
  /-- It was proved that there is no solution. -/
  | infeasible
deriving Repr, DecidableEq

namespace Status

/-- The name shown in messages. -/
def name : Status → String
  | unknown => "Unknown"
  | sat => "Sat"
  | optimal => "Optimal"
  | infeasible => "Infeasible"

/-- Whether the search was carried to the proof. -/
def isExact : Status → Bool
  | optimal | infeasible => true
  | unknown | sat => false

end Status

/-- A snapshot of a search. -/
structure Statistics (V : Type) where
  status : Status
  /-- How many sub-problems were taken from the queue. -/
  iterations : Nat
  /-- The greatest length the queue ever had. -/
  queueMax : Nat
  /-- The time the search took so far, in nanoseconds. -/
  elapsed : Nat
  /-- The value of the best solution. -/
  incumbent : Option V
  /-- The tightest bound on the optimum. -/
  bound : Option V
deriving Repr

/-- The relative distance between incumbent and bound. -/
def Statistics.gap {V : Type} [Value V] (s : Statistics V) : V :=
  Value.gap s.incumbent s.bound

/-- A rule that stops a search. -/
abbrev Cutoff (V : Type) := Statistics V → Bool

namespace Cutoff

variable {V : Type}

/-- Never stops. -/
def never : Cutoff V := fun _ => false

/-- Stops once a time budget, in nanoseconds, is spent. -/
def afterTime (budget : Nat) : Cutoff V := fun s => decide (budget ≤ s.elapsed)

/-- Stops once a number of sub-problems were explored. -/
def afterIterations (n : Nat) : Cutoff V := fun s => decide (n ≤ s.iterations)

/-- Stops once there is a solution and a number of sub-problems were explored. -/
def onceSolved (n : Nat) : Cutoff V := fun s =>
  s.incumbent.isSome && decide (n ≤ s.iterations)

/-- Stops once the gap is small enough. -/
def belowGap [Value V] (g : V) : Cutoff V := fun s => decide (s.gap ≤ g)

/-- Stops once the queue was too long. -/
def aboveQueue (n : Nat) : Cutoff V := fun s => decide (n ≤ s.queueMax)

end Cutoff
end DiagramSearch
