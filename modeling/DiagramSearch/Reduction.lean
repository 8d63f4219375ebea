/-
# Choosing what to reduce

When a layer is too wide, a reduction puts its nodes in order: those at the
front are kept, the others are dropped or merged.  A reduction never loses or
repeats a node, which is part of its type.

* `byCost` keeps the nodes of the greatest value;
* `byDistance` gathers, around the worst node, those closest to it, and keeps
  the far ones.
-/

import DiagramSearch.Ordered
import DiagramSearch.Value.Basic

namespace DiagramSearch

/-- What a reduction is told of a node. -/
structure Candidate (σ V : Type) where
  /-- Where the node stands in its layer. -/
  position : Nat
  state : σ
  value : V
deriving Repr

/-- A rule that orders the nodes of a layer. -/
structure Reduction (σ V : Type) where
  /-- Orders a layer of which the given number of nodes is kept. -/
  sort : Nat → (σ → σ → Ordering) → List (Candidate σ V) → List (Candidate σ V)
  /-- The nodes stay the same. -/
  perm : ∀ keep ranking layer, (sort keep ranking layer).Perm layer

namespace Candidate

variable {σ V : Type} [Value V]

/-- Whether a node stands before another: the greater value first, then the
greater state. -/
def better (ranking : σ → σ → Ordering) (a b : Candidate σ V) : Bool :=
  ((Value.order b.value a.value).then (ranking b.state a.state)) != .gt

end Candidate

namespace Reduction

variable {σ V : Type} [Value V]

/-- The best nodes first. -/
def sortByCost (ranking : σ → σ → Ordering) (layer : List (Candidate σ V)) :
    List (Candidate σ V) :=
  Ordered.sort (Candidate.better ranking) layer

/-- Keeps the nodes of the greatest value. -/
def byCost : Reduction σ V where
  sort _ ranking layer := sortByCost ranking layer
  perm _ _ _ := Ordered.sort_perm _ _

/-- All but the last node by their distance to the last one, farthest first;
equally far nodes stay in order. -/
def spread (distance : σ → σ → V) (layer : List (Candidate σ V)) : List (Candidate σ V) :=
  match layer.getLast? with
  | none => layer
  | some seed =>
    let far (c : Candidate σ V) := distance c.state seed.state
    Ordered.sort (fun a b => Value.order (far b) (far a) != .gt) layer.dropLast ++ [seed]

theorem spread_perm (distance : σ → σ → V) (layer : List (Candidate σ V)) :
    (spread distance layer).Perm layer := by
  unfold spread
  split
  · exact .refl _
  · rename_i seed h
    refine ((Ordered.sort_perm _ _).append_right [seed]).trans ?_
    obtain ⟨front, rfl⟩ := List.getLast?_eq_some_iff.1 h
    simp

/-- Keeps the nodes that are far from the worst one. -/
def byDistance (distance : σ → σ → V) : Reduction σ V where
  sort keep ranking layer :=
    let sorted := sortByCost ranking layer
    if layer.length ≤ keep then sorted else spread distance sorted
  perm keep ranking layer := by
    simp only
    split
    · exact Ordered.sort_perm _ _
    · exact (spread_perm _ _).trans (Ordered.sort_perm _ _)

end Reduction
end DiagramSearch
