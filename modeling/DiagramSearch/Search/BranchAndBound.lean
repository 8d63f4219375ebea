/-
# Branch and bound

The open sub-problems are explored best first.  For each a restricted diagram
looks for a better solution; unless that diagram is exact, a relaxed one bounds
the sub-problem, and the nodes of its cut-set that may still beat the incumbent
are opened.  The search is over when nothing is open, or when the best bound no
longer beats the incumbent.

With the cache, a sub-problem is skipped if its state was met at its depth with
a value that leaves nothing to gain; the thresholds of depths above all open
sub-problems are forgotten.

`search` takes the number of rounds it may go through; it gives no ending if
they do not suffice.
-/

import DiagramSearch.Search.Solver

namespace DiagramSearch

/-- What to do next. -/
inductive Move (σ V : Type) where
  /-- Nothing is left to explore. -/
  | exhausted
  /-- The search was told to stop. -/
  | stopped
  /-- A sub-problem has to be explored. -/
  | explore (node : Subproblem σ V)

/-- How a search ended. -/
inductive Ending (σ V : Type) where
  /-- Nothing was left to explore. -/
  | exhausted
  /-- The search was told to stop. -/
  | stopped
  /-- A check found a fault of the model. -/
  | faulty (fault : Fault σ V)

namespace Solver

variable {σ κ V : Type} [BEq σ] [Hashable σ] [BEq κ] [Value V]

/-- Opens a sub-problem. -/
def push (s : Solver σ κ V) (node : Subproblem σ V) : Solver σ κ V :=
  { s with
    queue := s.queue.push s.settings.queueOrder node
    openAt := s.openAt.modify node.depth (· + 1)
    session := s.session.record (.pushed node) }

/-- Forgets the open sub-problems. -/
def clearQueue (s : Solver σ κ V) : Solver σ κ V :=
  { s with queue := .empty, session := s.session.record .queueCleared }

/-- Brings the record of the queue's length up to date. -/
def measureQueue (s : Solver σ κ V) : Solver σ κ V :=
  { s with standing := { s.standing with queueMax := max s.standing.queueMax s.queue.size } }

/-- Opens the root, with the starting solution as incumbent. -/
def openRoot (s : Solver σ κ V) (sense : Sense) : Solver σ κ V :=
  let s := s.renew sense (.searchStarted sense s.variables)
  let s := s.clearQueue
  let standing :=
    match s.primal with
    | some (value, solution) => s.standing.adopt (sense.orient value) solution
    | none => s.standing
  let cache := if s.settings.useCache then .ofSize s.variables else .off
  let s := { s with
    standing
    session := { s.session with cache }
    openAt := Array.replicate (s.variables + 1) 0
    shallowest := 0 }
  (s.push (s.root sense)).measureQueue

/-- Forgets the thresholds of the depths above all open sub-problems. -/
def retireLayers (s : Solver σ κ V) : Solver σ κ V :=
  if s.settings.useCache then
    let candidates := (s.openAt.toList.take s.variables).drop s.shallowest
    let idle := (candidates.takeWhile (· == 0)).length
    let cache := (List.range' s.shallowest idle).foldl Cache.forget s.session.cache
    { s with session := { s.session with cache }, shallowest := s.shallowest + idle }
  else s

/-- Decides what to do next. -/
def nextMove (s : Solver σ κ V) (cutoff : Cutoff V) : Solver σ κ V × Move σ V :=
  let s := s.retireLayers
  match s.queue.pop? with
  | none => (s, .exhausted)
  | some (node, queue) =>
    if cutoff s.statistics then (s, .stopped)
    else
      let s := { s with
        queue
        openAt := s.openAt.modify node.depth (· - 1)
        standing := { s.standing with iterations := s.standing.iterations + 1 }
        session := s.session.record (.popped node) }
      if node.bound ≤ s.standing.lower then (s.clearQueue, .exhausted)
      else ({ s with standing := { s.standing with upper := node.bound } }, .explore node)

/-- Opens the sub-problems of the cut-set that may still beat the incumbent. -/
def openCutset (s : Solver σ κ V) (bound : V) : Solver σ κ V :=
  let (subs, diagram) := s.diagram.handOut
  let s := subs.foldl (fun s node =>
    let node := { node with bound := min bound node.bound }
    if s.standing.lower < node.bound then s.push node else s) { s with diagram }
  s.measureQueue

/-- Bounds a sub-problem by a relaxed diagram. -/
def bound (s : Solver σ κ V) (width : Nat) (node : Subproblem σ V) :
    Solver σ κ V × Option (Fault σ V) :=
  match s.compile .relaxed width node with
  | (s, .error fault) => (s, some fault)
  | (s, .ok c) =>
    if c.isExact then (s.publish c.bestValue s.diagram.bestSolution, none)
    else
      let s := s.publish s.diagram.bestExactValue s.diagram.bestExactSolution
      if c.bestValue.any (fun v => s.standing.lower < v) then (s.openCutset node.bound, none)
      else (s, none)

/-- Explores a sub-problem. -/
def explore (s : Solver σ κ V) (node : Subproblem σ V) :
    Solver σ κ V × Option (Fault σ V) :=
  let width := s.settings.width node
  let sense := s.standing.sense
  let s := s.note
    (.exploring node.depth (sense.orient node.value) (sense.orient node.bound) width s.queue.size)
  match s.compile .restricted width node with
  | (s, .error fault) => (s, some fault)
  | (s, .ok c) =>
    let s := s.publish s.diagram.bestValue s.diagram.bestSolution
    if c.isExact then (s, none) else s.bound width node

/-- Explores a sub-problem unless the cache knows that it is of no use. -/
def visit (s : Solver σ κ V) (node : Subproblem σ V) :
    Solver σ κ V × Option (Fault σ V) :=
  if s.settings.useCache then
    if s.session.cache.admits node then
      let session := s.session.remember node.state node.depth ⟨node.value, true⟩
      { s with session }.explore node
    else (s.note (.skipped node.depth), none)
  else s.explore node

/-- Explores sub-problems until the search ends, in at most a number of
rounds. -/
def search (cutoff : Cutoff V) : Nat → Solver σ κ V → Solver σ κ V × Option (Ending σ V)
  | 0, s => (s, none)
  | rounds + 1, s =>
    match s.nextMove cutoff with
    | (s, .exhausted) => (s, some .exhausted)
    | (s, .stopped) => (s, some .stopped)
    | (s, .explore node) =>
      match s.visit node with
      | (s, some fault) => (s, some (.faulty fault))
      | (s, none) => search cutoff rounds s

/-- Ends a search in the way it came to its end. -/
def finish (s : Solver σ κ V) (sense : Sense) : Ending σ V →
    Solver σ κ V × Except (Fault σ V) (Statistics V)
  | .faulty fault =>
    let fault := fault.orient sense
    ((s.clearQueue.conclude false).note (.searchAborted fault), .error fault)
  | .exhausted =>
    let s := s.conclude true
    (s.note (.searchOver s.statistics), .ok s.statistics)
  | .stopped =>
    let s := s.conclude false
    (s.note (.searchOver s.statistics), .ok s.statistics)

/-- Solves the problem by branch and bound, in at most a number of rounds. -/
def solve (s : Solver σ κ V) (rounds : Nat) (sense : Sense) (cutoff : Cutoff V) :
    Solver σ κ V × Option (Except (Fault σ V) (Statistics V)) :=
  match search cutoff rounds (s.openRoot sense) with
  | (s, none) => (s, none)
  | (s, some ending) =>
    let (s, outcome) := s.finish sense ending
    (s, some outcome)

end Solver
end DiagramSearch
