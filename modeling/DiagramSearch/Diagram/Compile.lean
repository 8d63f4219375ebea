/-
# Compiling a sub-problem

`compile` unrolls the diagram of a sub-problem and computes what can be told
from it.  A compilation that meets a fault leaves the diagram as far as it got.

With extended checks every merge is audited: the merged node and each absorbed
one are compiled exactly, on the side, and the merged one must not be worth
less.
-/

import DiagramSearch.Diagram.Summary
import DiagramSearch.Diagram.Sweep
import DiagramSearch.Diagram.Unrolling

namespace DiagramSearch

/-- What a successful compilation reports. -/
structure Report (V : Type) where
  /-- Whether the value is that of the sub-problem. -/
  isExact : Bool
  /-- The value of the best node. -/
  bestValue : Option V
deriving Repr

/-- A compilation and what it leaves behind. -/
structure Compiled (σ κ V : Type) where
  session : Session σ κ V
  diagram : Diagram σ V
  outcome : Except (Fault σ V) (Report V)

namespace Request

variable {σ κ V : Type} [BEq σ] [Hashable σ] [BEq κ] [Value V]

/-- Computes what can be told from an unrolled diagram. -/
def evaluate (r : Request σ κ V) (session : Session σ κ V) (d : Diagram σ V) :
    Compiled σ κ V :=
  let d := (d.markBest.markExact r.kind).markCutset r.kind r.cutset
  let d := if r.kind == .relaxed || r.checks.watches then d.markBounds else d
  let fault := if r.checks.watches && r.kind != .relaxed then d.inadmissible? else none
  match fault with
  | some fault => ⟨session, d, .error fault⟩
  | none =>
    let (session, d) :=
      if r.kind == .relaxed || d.isExact then d.sweep r session else (session, d)
    ⟨session, d, .ok ⟨d.isExact, d.bestValue⟩⟩

/-- Compiles a request whose merges are judged by an audit. -/
def compileWith (r : Request σ κ V) (audit : Audit σ κ V) (session : Session σ κ V) :
    Compiled σ κ V :=
  let u := r.unroll audit session
  match u.fault with
  | some fault => ⟨u.session, u.diagram, .error fault⟩
  | none => r.evaluate u.session u.diagram

/-- The request for the exact diagram of a sub-problem, unwatched. -/
def exactly (r : Request σ κ V) (s : Subproblem σ V) : Request σ κ V :=
  { r with
    kind := .exact
    residual := s
    toBeat := Value.negInf
    dominance := none
    checks := .off }

/-- The value of a sub-problem, found by compiling it exactly on the side. -/
def worth (r : Request σ κ V) (session : Session σ κ V) (s : Subproblem σ V) :
    Option V × Session σ κ V :=
  let c := (r.exactly s).compileWith (fun session _ _ => (session, none)) session.aside
  (c.diagram.bestValue, session.resume c.session)

/-- Looks for an absorbed sub-problem that is worth more than the merged one. -/
def findUnsound (r : Request σ κ V) (merged : Subproblem σ V) (relaxed : Option V) :
    Session σ κ V → List (Subproblem σ V) → Session σ κ V × Option (Fault σ V)
  | session, [] => (session, none)
  | session, s :: rest =>
    let (exact, session) := r.worth session s
    match exact, relaxed with
    | none, _ => findUnsound r merged relaxed session rest
    | some v, none => (session, some (.unsound merged.state s.state Value.negInf v))
    | some v, some m =>
      if Value.surpasses v m then (session, some (.unsound merged.state s.state m v))
      else findUnsound r merged relaxed session rest

/-- Judges the merges of a watched compilation. -/
def audit (r : Request σ κ V) : Audit σ κ V := fun session merged absorbed =>
  match r.checks with
  | .extended =>
    let (relaxed, session) := r.worth session merged
    r.findUnsound merged relaxed session absorbed
  | _ => (session, none)

/-- Compiles the requested sub-problem. -/
def compile (r : Request σ κ V) (session : Session σ κ V) : Compiled σ κ V :=
  r.compileWith r.audit session

end Request

namespace Diagram

variable {σ V : Type} [Value V]

/-- The sub-problem of a node of the cut-set, bounded by its rough bound, its
longest path and the best value of the diagram.  A node from which no path
leads to the deepest layer is none. -/
def subproblem? (d : Diagram σ V) (best : V) (a : Address) : Option (Subproblem σ V) :=
  match d.node? a with
  | none => none
  | some n => n.tail.map fun tail =>
    { state := n.state
      value := n.longest
      path := d.pathTo a
      bound := min (min (n.longest + n.roughBound) (n.longest + tail)) best
      depth := n.depth }

/-- Hands out the sub-problems of the cut-set, once. -/
def handOut (d : Diagram σ V) : List (Subproblem σ V) × Diagram σ V :=
  match d.bestValue with
  | none => ([], d)
  | some best => (d.cutset.filterMap (d.subproblem? best), { d with cutset := [] })

end Diagram
end DiagramSearch
