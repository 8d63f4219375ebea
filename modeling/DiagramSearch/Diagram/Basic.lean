/-
# Decision diagrams

The layers of a diagram are listed deepest first, so the edges of a layer start
in the next one of the list and a walk towards the root is a walk along the
list.  Beside the layers stands the pending one, whose nodes were reached but
not yet taken in.
-/

import DiagramSearch.Diagram.Node

namespace DiagramSearch

/-- The place of a node: its layer, counted from the root, and its position. -/
structure Address where
  layer : Nat
  position : Nat
deriving Repr, DecidableEq

/-- A compiled, or partly compiled, decision diagram. -/
structure Diagram (σ V : Type) where
  /-- The decisions that lead to the root of the diagram. -/
  path : Path
  /-- The completed layers, deepest first. -/
  layers : List (Layer σ V)
  /-- The nodes reached from the deepest layer. -/
  pending : Layer σ V
  /-- The last layer above the first reduction, counted from the root. -/
  lastExact : Option Nat
  /-- The nodes of the cut-set that were not handed out yet. -/
  cutset : List Address
  /-- The best node of the deepest layer. -/
  best : Option Nat
  /-- The best exact node of the deepest layer. -/
  bestExact : Option Nat
  /-- Whether the best value is that of the compiled sub-problem. -/
  isExact : Bool
deriving Repr

namespace Diagram

variable {σ V : Type}

/-- The diagram without nodes. -/
def empty : Diagram σ V where
  path := []
  layers := []
  pending := #[]
  lastExact := none
  cutset := []
  best := none
  bestExact := none
  isExact := true

/-- The diagram of a sub-problem before its first layer is completed. -/
def rooted [Value V] (s : Subproblem σ V) : Diagram σ V :=
  { empty with
    path := s.path
    pending := #[Node.bare s.state s.depth s.value s.bound true] }

/-- The decisions of the longest path to a node, deepest first. -/
def climb : List (Layer σ V) → Nat → Path
  | [], _ => []
  | layer :: above, i =>
    match layer[i]? >>= Node.bestEdge? with
    | some e => e.decision :: climb above e.source
    | none => []

/-- The decisions of the longest path to a node of a layer below the given
ones. -/
def climbFrom (above : List (Layer σ V)) (n : Node σ V) : Path :=
  match n.bestEdge? with
  | some e => e.decision :: climb above e.source
  | none => []

/-- The completed layers from a layer, counted from the root, upwards. -/
def upTo (d : Diagram σ V) (layer : Nat) : List (Layer σ V) :=
  d.layers.drop (d.layers.length - 1 - layer)

/-- The node at an address. -/
def node? (d : Diagram σ V) (a : Address) : Option (Node σ V) :=
  (d.upTo a.layer).head? >>= fun layer => layer[a.position]?

/-- The path to an address: that of the root, then that of the diagram. -/
def pathTo (d : Diagram σ V) (a : Address) : Path :=
  d.path ++ climb (d.upTo a.layer) a.position

/-- A node of the deepest layer. -/
def terminal? (d : Diagram σ V) (position : Nat) : Option (Node σ V) :=
  d.layers.head? >>= fun layer => layer[position]?

/-- The value of the best node. -/
def bestValue (d : Diagram σ V) : Option V :=
  (d.best >>= d.terminal?).map (·.longest)

/-- The path to the best node. -/
def bestSolution (d : Diagram σ V) : Option Path :=
  d.best.map fun i => d.path ++ climb d.layers i

/-- The value of the best exact node. -/
def bestExactValue (d : Diagram σ V) : Option V :=
  (d.bestExact >>= d.terminal?).map (·.longest)

/-- The path to the best exact node. -/
def bestExactSolution (d : Diagram σ V) : Option Path :=
  d.bestExact.map fun i => d.path ++ climb d.layers i

end Diagram
end DiagramSearch
