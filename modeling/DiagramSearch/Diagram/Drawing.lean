/-
# Drawing a diagram

The text of a diagram in the dot language.  Nodes are numbered from the root,
layer after layer, the pending ones last.  Each node is followed by the edges
that enter it, latest first, and the deepest layer leads to one terminal.
-/

import DiagramSearch.Diagram.Basic

namespace DiagramSearch

/-- What a drawing shows. -/
structure Drawing where
  /-- The longest path from the root. -/
  value : Bool := true
  /-- The longest path to the deepest layer. -/
  localBound : Bool := true
  /-- The rough upper bound. -/
  roughBound : Bool := true
  /-- The threshold. -/
  threshold : Bool := false
  /-- The nodes that were dropped or merged into others. -/
  deleted : Bool := true
  /-- A box around the merged and deleted nodes of a layer. -/
  grouped : Bool := false
deriving Repr, DecidableEq

namespace Drawing

variable {σ V : Type} [Value V] [Label V]

/-- A layer in a drawing, with the number of its first node, the number of its
parents' first node, and its parents. -/
structure Row (σ V : Type) where
  layer : Layer σ V
  first : Nat
  parentsFirst : Nat
  parents : Layer σ V

/-- Numbers the layers, which are given from the root on. -/
def rows : List (Layer σ V) → List (Row σ V) :=
  go 0 0 #[]
where
  /-- Numbers the layers below the given parents. -/
  go (first parentsFirst : Nat) (parents : Layer σ V) : List (Layer σ V) → List (Row σ V)
    | [] => []
    | layer :: below =>
      ⟨layer, first, parentsFirst, parents⟩ :: go (first + layer.size) first layer below

/-- A value, with a sign on both infinities. -/
def signed (v : V) : String :=
  if v == Value.posInf then "+inf" else if v == Value.negInf then "-inf" else text v

/-- The fill of a node. -/
def color (n : Node σ V) : String :=
  if n.cutset then "red"
  else if n.exact then "\"#99ccff\""
  else if n.merged then "yellow"
  else "lightgray"

/-- The text in a node. -/
def label [Label σ] (w : Drawing) (n : Node σ V) : String :=
  text n.state
    ++ (if w.value then "\\nval: " ++ signed n.longest else "")
    ++ (if w.localBound then "\\nlocb: " ++ signed (n.tail.getD Value.negInf) else "")
    ++ (if w.roughBound then "\\nrub: " ++ signed n.roughBound else "")
    ++ (if w.threshold then "\\ntheta: " ++ signed (n.threshold.getD Value.posInf) else "")

/-- The line of a node. -/
def node [Label σ] (w : Drawing) (id : Nat) (n : Node σ V) : String :=
  "\t" ++ text id ++ " [shape=" ++ (if n.merged || n.isDeleted then "square" else "circle")
    ++ ",style=filled,color=" ++ color n ++ ",peripheries=" ++ (if n.cutset then "4" else "1")
    ++ ",label=\"" ++ w.label n ++ "\"];\n"

/-- The line of an edge. -/
def edge (source target : Nat) (isBest : Bool) (e : Edge V) : String :=
  "\t" ++ text source ++ " -> " ++ text target ++ " [penwidth=" ++ (if isBest then "3" else "1")
    ++ ",label=\"(x" ++ text e.decision.var ++ " = " ++ text e.decision.value ++ ")\\ncost = "
    ++ signed e.cost ++ "\"];\n"

/-- Whether a node is drawn. -/
def shows (w : Drawing) (n : Node σ V) : Bool := w.deleted || !n.isDeleted

/-- The lines of the edges that enter a node. -/
def edges (w : Drawing) (row : Row σ V) (id : Nat) (n : Node σ V) : String :=
  String.join <| n.inbound.zipIdx.filterMap fun (e, age) =>
    if (row.parents[e.source]?).all w.shows then
      let isBest := n.best == some (n.inbound.length - 1 - age)
      some (edge (row.parentsFirst + e.source) id isBest e)
    else none

/-- The nodes of a row with their numbers. -/
def Row.numbered (row : Row σ V) : List (Node σ V × Nat) :=
  row.layer.toList.zipIdx row.first

/-- The lines of a layer. -/
def layer [Label σ] (w : Drawing) (row : Row σ V) : String :=
  String.join <| row.numbered.filterMap fun (n, id) =>
    if w.shows n then some (w.node id n ++ w.edges row id n) else none

/-- The box around the merged and deleted nodes of a layer. -/
def group (row : Row σ V) : String :=
  match row.numbered.filter fun (n, _) => n.isDeleted || n.merged with
  | [] => ""
  | (n, id) :: rest =>
    "\tsubgraph cluster_" ++ text n.depth ++ " \x7b\n\t\tstyle=filled;\n\t\tcolor=purple;\n\t\t"
      ++ ";".intercalate (text id :: rest.map fun (_, id) => text id) ++ "\n\t\x7d;\n"

/-- The terminal and the lines that lead to it. -/
def terminal (row : Row σ V) (best : Nat) : String :=
  "\tterminal [shape=\"circle\", label=\"\", style=\"filled\", color=\"black\"];\n"
    ++ String.join (row.numbered.filterMap fun (n, id) =>
      if n.isAlive then
        let width := if id == row.first + best then "3" else "1"
        some ("\t" ++ text id ++ " -> terminal [penwidth=" ++ width ++ "];\n")
      else none)

end Drawing

/-- The text of a diagram in the dot language. -/
def Diagram.draw {σ V : Type} [Value V] [Label σ] [Label V] (d : Diagram σ V) (w : Drawing) :
    String :=
  let completed := Drawing.rows d.layers.reverse
  let all := Drawing.rows (d.layers.reverse ++ [d.pending])
  let groups := if w.deleted && w.grouped then String.join (all.map Drawing.group) else ""
  let terminal :=
    match d.best, completed.getLast? with
    | some best, some row => Drawing.terminal row best
    | _, _ => ""
  "digraph \x7b\n\tranksep = 3;\n\n" ++ String.join (all.map w.layer) ++ groups ++ terminal
    ++ "\x7d\n"

end DiagramSearch
