/-
# Solving with a single diagram

One diagram of the whole problem is compiled.  An exact one solves the problem,
a restricted one gives a solution, and a relaxed one gives a bound, together
with the best of its exact solutions.
-/

import DiagramSearch.Search.Solver

namespace DiagramSearch
namespace Solver

variable {σ κ V : Type} [BEq σ] [Hashable σ] [BEq κ] [Value V]

/-- Draws the conclusions from a diagram of the whole problem. -/
def learn (s : Solver σ κ V) (kind : Kind) (c : Report V) : Solver σ κ V :=
  let d := s.diagram
  if c.isExact then (s.publish c.bestValue d.bestSolution).conclude true
  else
    match kind with
    | .relaxed =>
      let s := s.publish d.bestExactValue d.bestExactSolution
      match c.bestValue with
      | some bound =>
        if s.standing.lower < bound then
          { s with standing := { s.standing with upper := bound }.conclude false }
        else s.conclude true
      | none => s.conclude true
    | _ => (s.publish c.bestValue d.bestSolution).conclude false

/-- Compiles one diagram of the problem. -/
def solveOnce (s : Solver σ κ V) (kind : Kind) (sense : Sense) (cutoff : Cutoff V) :
    Solver σ κ V × Except (Fault σ V) (Statistics V) :=
  let s := s.renew sense (.compilationStarted kind sense s.variables)
  let s :=
    match s.primal with
    | some (value, solution) => s.improve (some (sense.orient value)) (some solution)
    | none => s
  if cutoff s.statistics then
    let s := s.conclude false
    (s, .ok s.statistics)
  else
    let s := { s with
      standing := { s.standing with iterations := 1 }
      session := { s.session with cache := .off } }
    let root := s.root sense
    match s.compile kind (s.settings.width root) root with
    | (s, .error fault) =>
      let fault := fault.orient sense
      ((s.conclude false).note (.compilationAborted fault), .error fault)
    | (s, .ok c) =>
      let s := s.learn kind c
      (s.note (.compilationOver s.statistics), .ok s.statistics)

end Solver
end DiagramSearch
