/-
# What a diagram tells once it is unrolled

* `markBest` finds the best node of the deepest layer, and the best exact one;
  of equal ones the last.
* `markExact` decides whether the best value is that of the sub-problem: no
  layer was reduced, or the longest path of a relaxed diagram meets an exact
  node before any merged one.
* `markCutset` collects the nodes to be explored further.
* `markBounds` computes the longest paths to the deepest layer.
-/

import DiagramSearch.Diagram.Request

namespace DiagramSearch

variable {σ κ V : Type}

/-- The last of the best nodes among those that satisfy a condition. -/
def Layer.best? [Value V] (layer : Layer σ V) (p : Node σ V → Bool) : Option Nat :=
  (layer.toList.zipIdx.foldl (fun (best : Option (Nat × V)) (n, i) =>
    if p n then
      match best with
      | none => some (i, n.longest)
      | some (j, v) => if v ≤ n.longest then some (i, n.longest) else some (j, v)
    else best) none).map (·.1)

namespace Diagram

/-- Finds the best nodes. -/
def markBest [Value V] (d : Diagram σ V) : Diagram σ V :=
  match d.layers with
  | [] => d
  | last :: _ =>
    { d with
      best := last.best? fun n => n.isAlive
      bestExact := last.best? fun n => n.isAlive && n.exact }

/-- Whether the longest path to a node meets an exact node before any merged
one, going upwards. -/
def climbsToExact : List (Layer σ V) → Nat → Bool
  | [], _ => true
  | layer :: above, i =>
    match layer[i]? with
    | none => true
    | some n =>
      if n.exact then true
      else if n.merged then false
      else
        match n.bestEdge? with
        | some e => climbsToExact above e.source
        | none => true

/-- Decides whether the diagram is exact. -/
def markExact (d : Diagram σ V) (kind : Kind) : Diagram σ V :=
  { d with
    isExact := d.lastExact.isNone
      || (kind == .relaxed && (d.best.map (climbsToExact d.layers)).getD true) }

/-- The alive nodes of a layer become the cut-set. -/
def cutAtLayer (d : Diagram σ V) (layer : Nat) : Diagram σ V :=
  let place := d.layers.length - 1 - layer
  let members := ((d.layers[place]?.getD #[]).toList.zipIdx.filter (·.1.isAlive)).map (·.2)
  { d with
    layers := d.layers.modify place fun l =>
      l.map fun n => if n.isAlive then { n with cutset := true } else n
    cutset := members.map fun i => ⟨layer, i⟩ }

/-- Puts the exact parents of a node in the cut-set, unless they are in it. -/
def flagParents (parents : Layer σ V) (n : Node σ V) : Layer σ V × List Nat :=
  if n.isAlive && !n.exact then
    n.inbound.foldl (fun (parents, found) e =>
      match parents[e.source]? with
      | some p =>
        if p.exact && !p.cutset then
          (parents.modify e.source fun p => { p with cutset := true }, found ++ [e.source])
        else (parents, found)
      | none => (parents, found)) (parents, [])
  else (parents, [])

/-- Collects the exact parents of inexact nodes, from the deepest layer up to a
given layer. -/
def cutAbove (stop : Nat) : Layer σ V → List (Layer σ V) → List (Layer σ V) × List Address
  | layer, [] => ([layer], [])
  | layer, parents :: above =>
    if above.length + 1 < stop then (layer :: parents :: above, [])
    else
      let (parents, found) := layer.foldl (fun (parents, found) n =>
        let (parents, more) := flagParents parents n
        (parents, found ++ more)) (parents, [])
      let (layers, rest) := cutAbove stop parents above
      (layer :: layers, found.map (fun i => ⟨above.length, i⟩) ++ rest)

/-- Collects the cut-set of a relaxed diagram. -/
def markCutset (d : Diagram σ V) (kind : Kind) (cutset : CutsetKind) : Diagram σ V :=
  match kind, d.lastExact, d.layers with
  | .relaxed, some l, last :: above =>
    match cutset with
    | .lastExactLayer => d.cutAtLayer l
    | .frontier =>
      let (layers, cutset) := cutAbove l last above
      { d with layers, cutset }
  | _, _, _ => d

/-- Extends the longest path of a node to its parents. -/
def liftBound [Value V] (parents : Layer σ V) (n : Node σ V) : Layer σ V :=
  match n.tail with
  | none => parents
  | some value =>
    n.inbound.foldl (fun parents e =>
      parents.modify e.source fun p =>
        { p with tail := some (max (p.tail.getD Value.negInf) (value + e.cost)) }) parents

/-- Extends the longest paths from a layer to all layers above it. -/
def liftBounds [Value V] : Layer σ V → List (Layer σ V) → List (Layer σ V)
  | layer, [] => [layer]
  | layer, parents :: above => layer :: liftBounds (layer.foldl liftBound parents) above

/-- Computes the longest paths to the deepest layer. -/
def markBounds [Value V] (d : Diagram σ V) : Diagram σ V :=
  match d.layers with
  | [] => d
  | last :: above =>
    let ends := last.map fun n => if n.isAlive then { n with tail := some 0 } else n
    { d with layers := liftBounds ends above }

/-- The first node, from the root on, whose bound is below its longest path. -/
def inadmissible? [Value V] (d : Diagram σ V) : Option (Fault σ V) :=
  d.layers.reverse.findSome? fun layer => layer.toList.findSome? fun n =>
    match n.tail with
    | some actual =>
      if n.isAlive && Value.surpasses actual n.roughBound then
        some (.inadmissible n.state n.depth n.roughBound actual)
      else none
    | none => none

end Diagram
end DiagramSearch
