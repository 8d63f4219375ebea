/-
# Selecting the nodes of a layer

Of the nodes that were reached, those the cache covers are set aside, then the
exact ones that the dominance table covers.  The others are kept, the best
first.
-/

import DiagramSearch.Diagram.Request

namespace DiagramSearch

/-- A layer with the nodes that are kept of it. -/
structure Selection (σ κ V : Type) where
  session : Session σ κ V
  layer : Layer σ V
  /-- The nodes kept, in the order in which they are expanded. -/
  kept : List (Candidate σ V)

variable {σ κ V : Type} [BEq σ] [BEq κ] [Value V]

/-- What a reduction is told of the nodes that are alive. -/
def Layer.candidates (layer : Layer σ V) : List (Candidate σ V) :=
  layer.toList.zipIdx.filterMap fun (n, i) =>
    if n.isAlive then some ⟨i, n.state, n.longest⟩ else none

/-- Sets a node aside if the cache knows a threshold that it does not beat. -/
def Node.screen (n : Node σ V) (cache : Cache σ V) : Node σ V :=
  match cache.get? n.state n.depth with
  | some t =>
    if n.longest ≤ t.value then { n with fate := .cached, threshold := some t.value } else n
  | none => n

/-- Asks the dominance table about the exact nodes, one after the other. -/
def sift (rel : Option (Dominance σ κ)) :
    List (Candidate σ V) → Layer σ V → Session σ κ V → Selection σ κ V
  | [], layer, session => ⟨session, layer, []⟩
  | c :: rest, layer, session =>
    match layer[c.position]? with
    | some n =>
      if n.exact then
        match session.check rel n.state n.depth n.longest with
        | (some threshold, session) =>
          let drop (n : Node σ V) := { n with fate := .dominated, threshold := some threshold }
          sift rel rest (layer.modify c.position drop) session
        | (none, session) =>
          let s := sift rel rest layer session
          { s with kept := c :: s.kept }
      else
        let s := sift rel rest layer session
        { s with kept := c :: s.kept }
    | none => sift rel rest layer session

/-- Selects the nodes of a pending layer.  The root is not held against the
cache. -/
def select (r : Request σ κ V) (session : Session σ κ V) (isRoot : Bool) (pending : Layer σ V) :
    Selection σ κ V :=
  let screened := if isRoot then pending else pending.map fun n => n.screen session.cache
  sift r.dominance (Reduction.sortByCost r.ranking screened.candidates) screened session

end DiagramSearch
