/-
# Thresholds of a compiled diagram

A sweep from the deepest layer upwards finds, for each node, the value under
which its state cannot lead to an improvement, and tells the cache those that
are worth keeping: the nodes of the cut-set and those above it.

A node that is ruled out by its bound, or whose longest path is too short, has
the room that is left.  A node of the cut-set that still has to be explored has
its own value.  Any other node inherits from its children what they leave it.
-/

import DiagramSearch.Diagram.Request

namespace DiagramSearch

variable {σ κ V : Type}

namespace Node

/-- The threshold of a node whose children were swept. -/
def settle [Value V] (best : V) (n : Node σ V) : Node σ V :=
  if n.isDeleted || n.isPruned then n
  else if n.longest + n.roughBound ≤ best then
    { n with threshold := some (Value.headroom best n.roughBound) }
  else if n.cutset then
    let tail := n.tail.getD Value.negInf
    if n.longest + tail ≤ best then
      { n with threshold := some (min (n.threshold.getD Value.posInf) (Value.headroom best tail)) }
    else { n with threshold := some n.longest }
  else if n.exact && n.threshold.isNone then { n with threshold := some Value.posInf }
  else n

/-- The threshold of a node as the cache is told it. -/
def lesson? (n : Node σ V) : Option (Threshold V) :=
  if n.isDeleted || n.isPruned then none
  else n.threshold.map fun threshold => ⟨threshold, !n.cutset && !n.borrowed⟩

/-- Tells the parents of a node what it leaves them. -/
def inform [Value V] (parents : Layer σ V) (n : Node σ V) : Layer σ V :=
  match n.isDeleted, n.threshold with
  | false, some threshold =>
    let borrowed := n.fate == .dominated || n.borrowed
    n.inbound.foldl (fun parents e =>
      parents.modify e.source fun p =>
        { p with
          threshold := some (min (p.threshold.getD Value.posInf) (threshold - e.cost))
          borrowed := p.borrowed || borrowed }) parents
  | _, _ => parents

end Node

variable [BEq σ] [BEq κ] [Value V]

/-- Tells the cache the thresholds of a layer. -/
def Layer.teach (layer : Layer σ V) (lasting : Node σ V → Bool) (session : Session σ κ V) :
    Session σ κ V :=
  layer.foldl (fun session n =>
    match n.lesson? with
    | some t => if lasting n then session.remember n.state n.depth t else session
    | none => session) session

/-- Sweeps a layer and all layers above it.  `lasting` says which nodes of a
layer, counted from the root, are told to the cache. -/
def sweepLayers (best : V) (lasting : Nat → Node σ V → Bool) :
    Session σ κ V → Layer σ V → List (Layer σ V) → Session σ κ V × List (Layer σ V)
  | session, layer, [] =>
    let layer : Layer σ V := layer.map (Node.settle best)
    (layer.teach (lasting 0) session, [layer])
  | session, layer, parents :: above =>
    let layer : Layer σ V := layer.map (Node.settle best)
    let session := layer.teach (lasting (above.length + 1)) session
    let (session, layers) :=
      sweepLayers best lasting session (layer.foldl Node.inform parents) above
    (session, layer :: layers)

namespace Diagram

/-- Which nodes the cache is told about: those down to the last exact layer if
that is the cut-set, else the exact ones. -/
def lasting (d : Diagram σ V) (kind : Kind) (cutset : CutsetKind) (index : Nat)
    (n : Node σ V) : Bool :=
  match d.lastExact, kind, cutset with
  | some l, .relaxed, .lastExactLayer => decide (index ≤ l)
  | _, _, _ => n.exact

/-- Computes the thresholds of a diagram and tells them to the cache. -/
def sweep (d : Diagram σ V) (r : Request σ κ V) (session : Session σ κ V) :
    Session σ κ V × Diagram σ V :=
  match d.layers with
  | [] => (session, d)
  | last :: above =>
    let (best, last) :=
      match d.bestExactValue with
      | none => (r.toBeat, last)
      | some value =>
        let best := max r.toBeat value
        (best, last.map fun n =>
          if n.isAlive && n.exact then { n with threshold := some best } else n)
    let (session, layers) :=
      sweepLayers best (d.lasting r.kind r.cutset) session last above
    (session, { d with layers })

end Diagram
end DiagramSearch
