/-
# Expanding a layer

Every kept node of a layer is bounded and, unless its bound rules it out,
branched on the decisions of the chosen variable.  Decisions that lead to the
same state lead to the same node of the pending layer.
-/

import DiagramSearch.Diagram.Request

namespace DiagramSearch

/-- A layer in the course of its expansion. -/
structure Expansion (σ κ V : Type) where
  session : Session σ κ V
  /-- The layer that is expanded. -/
  layer : Layer σ V
  /-- The nodes reached from it. -/
  pending : Layer σ V
  /-- The first fault found. -/
  fault : Option (Fault σ V)

/-- Whether two states are the same to a layer: equal, with equal hashes. -/
def sameState {σ : Type} [BEq σ] [Hashable σ] (a b : σ) : Bool :=
  a == b && hash a == hash b

/-- Leads an edge to the node of a state, which is created if it is missing. -/
def Layer.connect {σ V : Type} [BEq σ] [Hashable σ] [Value V] (pending : Layer σ V)
    (parent : Node σ V) (state : σ) (e : Edge V) : Layer σ V :=
  match pending.findIdx? fun n => sameState n.state state with
  | some i => pending.modify i fun n => n.attach parent e
  | none =>
    let child : Node σ V :=
      .bare state (parent.depth + 1) (parent.longest + e.cost) Value.posInf parent.exact
    pending.push (child.attach parent e)

namespace Expansion

variable {σ κ V : Type} [BEq σ] [Hashable σ] [BEq κ] [Value V]

/-- Takes one decision in a node.  When the model is watched the transition is
applied twice, and has to lead to the same state. -/
def branch (problem : Problem σ V) (checks : Checks) (source : Nat) (parent : Node σ V)
    (x : Expansion σ κ V) (d : Decision) : Expansion σ κ V :=
  if x.fault.isSome then x
  else
    let first := problem.transition x.session.applications parent.state d
    let session := x.session.applied
    let edge : Edge V := ⟨source, d, problem.cost parent.state d⟩
    if checks.watches then
      let second := problem.transition session.applications parent.state d
      let session := session.applied
      if sameState second first then
        { x with session, pending := x.pending.connect parent first edge }
      else
        { x with session, fault := some (.nonDeterministic parent.state d first second) }
    else
      { x with session, pending := x.pending.connect parent first edge }

/-- Bounds a node and, if it may still beat the value to beat, takes every
decision on the variable. -/
def expand (r : Request σ κ V) (free : Variables) (var : Nat) (x : Expansion σ κ V)
    (position : Nat) : Expansion σ κ V :=
  match x.fault, x.layer[position]? with
  | none, some node =>
    let roughBound := r.model.relaxation.upperBound node.state free
    let x := { x with layer := x.layer.modify position fun n => { n with roughBound } }
    if node.longest + roughBound ≤ r.toBeat then x
    else
      (r.model.problem.domain var node.state).foldl
        (branch r.model.problem r.checks position node) x
  | _, _ => x

end Expansion
end DiagramSearch
