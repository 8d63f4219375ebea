/-
# Solvers

A solver holds its settings, a solution to start from, and what the last search
left: its standing, its session, its diagram and its queue.  Every search
starts anew from the settings and the starting solution.
-/

import DiagramSearch.Diagram.Compile
import DiagramSearch.Frontier
import DiagramSearch.Search.Standing
import DiagramSearch.Search.Settings

namespace DiagramSearch

/-- A solver between two searches. -/
structure Solver (σ κ V : Type) where
  settings : Settings σ κ V
  /-- A known solution and its value, in the user's space. -/
  primal : Option (V × Path)
  standing : Standing V
  session : Session σ κ V
  /-- The last diagram compiled. -/
  diagram : Diagram σ V
  /-- The open sub-problems. -/
  queue : Frontier (Subproblem σ V)
  /-- How many sub-problems of each depth are open. -/
  openAt : Array Nat
  /-- No open sub-problem is less deep than this. -/
  shallowest : Nat

namespace Solver

variable {σ κ V : Type} [BEq σ] [Hashable σ] [BEq κ] [Value V]

/-- A solver that has not searched yet. -/
def ofSettings (settings : Settings σ κ V) : Solver σ κ V where
  settings
  primal := none
  standing := .start .maximize
  session := .fresh
  diagram := .empty
  queue := .empty
  openAt := #[]
  shallowest := 0

/-- Gives the solver a solution to start from. -/
def startFrom (s : Solver σ κ V) (value : V) (solution : Path) : Solver σ κ V :=
  { s with primal := some (value, solution) }

/-- A snapshot for the user. -/
def statistics (s : Solver σ κ V) : Statistics V :=
  s.standing.statistics s.settings.clock

/-- The number of variables of the problem. -/
def «variables» (s : Solver σ κ V) : Nat := s.settings.model.problem.variables

/-- Reports to the log. -/
def note (s : Solver σ κ V) (n : Notice σ V) : Solver σ κ V :=
  { s with session := s.session.note n }

/-- Adds an event to the journal. -/
def record (s : Solver σ κ V) (e : Event σ V) : Solver σ κ V :=
  { s with session := s.session.record e }

/-- The whole problem, seen by the engine. -/
def root (s : Solver σ κ V) (sense : Sense) : Subproblem σ V where
  state := s.settings.model.problem.initialState
  value := sense.orient s.settings.model.problem.initialValue
  path := []
  bound := Value.posInf
  depth := 0

/-- The request for a diagram of a sub-problem. -/
def request (s : Solver σ κ V) (kind : Kind) (width : Nat) (node : Subproblem σ V) :
    Request σ κ V where
  kind
  model := s.settings.model.orient s.standing.sense
  ranking := s.settings.ranking
  branching := s.settings.branching
  reduction := if kind = .restricted then s.settings.dropOrder else s.settings.mergeOrder
  dominance := s.settings.dominance
  cutset := s.settings.cutset
  width
  residual := node
  toBeat := s.standing.lower
  checks := s.settings.checks

/-- Compiles a diagram of a sub-problem. -/
def compile (s : Solver σ κ V) (kind : Kind) (width : Nat) (node : Subproblem σ V) :
    Solver σ κ V × Except (Fault σ V) (Report V) :=
  let c := (s.request kind width node).compile s.session
  ({ s with session := c.session, diagram := c.diagram }, c.outcome)

/-- Takes over a solution if it is better than the best one known, and reports
it. -/
def improve (s : Solver σ κ V) (value : Option V) (solution : Option Path) : Solver σ κ V :=
  match value, solution with
  | some v, some path =>
    if s.standing.lower < v then
      let s := { s with standing := s.standing.adopt v path }
      s.note (.improved (s.standing.sense.orient v))
    else s
  | _, _ => s

/-- Takes over a solution if it is better than the best one known, reports it
and hands it out. -/
def publish (s : Solver σ κ V) (value : Option V) (solution : Option Path) : Solver σ κ V :=
  match value, solution with
  | some v, some path =>
    if s.standing.lower < v then
      let s := s.improve value solution
      s.record (.incumbent path s.statistics)
    else s
  | _, _ => s

/-- Starts a new page of the journal and a new search. -/
def renew (s : Solver σ κ V) (sense : Sense) (n : Notice σ V) : Solver σ κ V :=
  let session := ({ s.session with events := [] }.note n).clearTable
  { s with session, standing := .start sense }

/-- Ends a search, exhaustive or not. -/
def conclude (s : Solver σ κ V) (exhausted : Bool) : Solver σ κ V :=
  { s with standing := s.standing.conclude exhausted }

end Solver
end DiagramSearch
