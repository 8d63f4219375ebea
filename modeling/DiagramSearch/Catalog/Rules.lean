/-
# Rules of the catalogue

Rankings, distances, merges, relaxed costs, dominance relations and choices of
variables that apply to every problem of the catalogue.
-/

import DiagramSearch.Catalog.State
import DiagramSearch.Dominance
import DiagramSearch.Branching
import DiagramSearch.Reduction
import DiagramSearch.Subproblem
import DiagramSearch.Value.Binary64

namespace DiagramSearch
namespace Catalog

/-- Which of two states is the more promising. -/
inductive Ranking where
  /-- The lexicographically greater. -/
  | max
  /-- The lexicographically smaller. -/
  | min
  /-- The one with more elements, then the greater. -/
  | size
  /-- The one with the greater sum, then the greater. -/
  | sum
deriving Repr, DecidableEq

/-- The order of a ranking. -/
def Ranking.order (r : Ranking) (a b : State) : Ordering :=
  match r with
  | max => a.order b
  | min => b.order a
  | size => (compare a.elements.length b.elements.length).then (a.order b)
  | sum => (compare a.sum b.sum).then (a.order b)

/-- How ties of the queue are broken. -/
inductive TieBreak where
  /-- Not at all. -/
  | none
  /-- The deeper sub-problem first, then the greater path. -/
  | deepest
  /-- The less deep sub-problem first, then the smaller path. -/
  | shallowest
deriving Repr, DecidableEq

/-- The order of a queue: best bound first, ties broken as asked. -/
def TieBreak.order (t : TieBreak) (r : Ranking) (a b : Subproblem State Float) : Ordering :=
  let place := (compare a.depth b.depth).then (Path.order a.path b.path)
  let byBound := Subproblem.byBound r.order a b
  match t with
  | none => byBound
  | deepest => byBound.then place
  | shallowest => byBound.then place.swap

/-- How far apart two states are. -/
inductive Distance where
  /-- The difference of the first elements, without sign. -/
  | abs
  /-- The number of elements that only one of them has. -/
  | symmetricDifference
  /-- The difference of the first elements, modulo three. -/
  | modThree
  /-- The difference of the first elements. -/
  | signed
  /-- Nothing is far. -/
  | zero
deriving Repr, DecidableEq

/-- The distance between two states. -/
def Distance.between (d : Distance) (a b : State) : Float :=
  match d with
  | abs => Float.ofInt (a.first - b.first).natAbs
  | symmetricDifference =>
    let only (x y : State) := (x.elements.filter fun i => !y.elements.contains i).length
    Float.ofNat (only a b + only b a)
  | modThree => Float.ofInt ((a.first - b.first) % 3)
  | signed => Float.ofInt (a.first - b.first)
  | zero => 0

/-- Which nodes a layer gives up. -/
inductive ReductionRule where
  | byCost
  | byDistance (d : Distance)
deriving Repr, DecidableEq

/-- The reduction of a rule. -/
def ReductionRule.reduction : ReductionRule → Reduction State Float
  | byCost => .byCost
  | byDistance d => .byDistance d.between

/-- How states are merged. -/
inductive Merge where
  /-- The greatest state. -/
  | max
  /-- The smallest state. -/
  | min
  | first
  | last
  /-- All elements of all states. -/
  | union
  /-- The elements of the first state that all others have. -/
  | intersection
  /-- The number of states. -/
  | count
  /-- Always the same state. -/
  | const (s : State)
deriving Repr

/-- The state that a merge gives. -/
def Merge.apply (m : Merge) (states : List State) : State :=
  let pick (p : State → State → Bool) : State :=
    match states with
    | [] => default
    | s :: rest => rest.foldl (fun best t => if p best t then t else best) s
  match m with
  | max => pick fun best t => (best.order t).isLE
  | min => pick fun best t => best.order t == .gt
  | first => states.headD default
  | last => states.getLastD default
  | union => ⟨State.sortedSet (states.flatMap (·.elements)), 0⟩
  | intersection =>
    ⟨(states.headD default).elements.filter fun i => states.all (·.elements.contains i), 0⟩
  | count => .single states.length
  | const s => s

/-- The coefficients of a relaxed cost. -/
structure CostShift where
  constant : Float
  source : Float
  target : Float
  merged : Float
  decision : Float
deriving Repr

/-- The relaxed cost: the cost, shifted by a multiple of the first elements of
the three states and of the value decided. -/
def CostShift.apply (k : CostShift) (source target merged : State) (d : Decision) (cost : Float) :
    Float :=
  cost + k.constant + k.source * Float.ofInt source.first + k.target * Float.ofInt target.first
    + k.merged * Float.ofInt merged.first + k.decision * Float.ofInt d.value

/-- Which states are compared for dominance. -/
inductive DominanceKey where
  | all
  | none
  /-- Those of the same length. -/
  | length
  /-- Those with the same first element. -/
  | first
  /-- Those with an even first element. -/
  | even
  /-- Those whose first elements have the same parity. -/
  | parity
deriving Repr, DecidableEq

/-- The key of a state. -/
def DominanceKey.of (k : DominanceKey) (s : State) : Option Int :=
  match k with
  | all => some 0
  | none => Option.none
  | length => some s.elements.length
  | first => some s.first
  | even => if s.first % 2 = 0 then some 0 else Option.none
  | parity => some (s.first % 2)

/-- When a state is dominated by another. -/
inductive DominanceRule where
  /-- It is lexicographically at most the other. -/
  | le
  /-- It is lexicographically at least the other. -/
  | ge
  /-- Its elements are among those of the other. -/
  | subset
  /-- None of its elements surpasses that of the other in its place. -/
  | coordinates
  | always
  | never
deriving Repr, DecidableEq

/-- Whether a state is dominated by another. -/
def DominanceRule.holds (r : DominanceRule) (a b : State) : Bool :=
  match r with
  | le => (a.order b).isLE
  | ge => (a.order b).isGE
  | subset => a.elements.all b.elements.contains
  | coordinates => (a.elements.zip b.elements).all fun (x, y) => decide (x ≤ y)
  | always => true
  | never => false

/-- The dominance relation of a key and a rule. -/
def dominance (k : DominanceKey) (r : DominanceRule) : Dominance State Int where
  key := k.of
  le := r.holds

/-- How the next variable is chosen. -/
inductive BranchingRule where
  | least
  | greatest
  /-- The first of a list that is free. -/
  | listed (order : List Nat)
  /-- By the elements of the states in the layer. -/
  | dynamic
deriving Repr, DecidableEq

/-- The choice of a rule. -/
def BranchingRule.branching : BranchingRule → Branching State
  | least => Branching.least
  | greatest => Branching.greatest
  | listed order => Branching.listed order
  | dynamic => Branching.cyclic fun states => states.foldl (fun n s => n + (1 + s.sum)) 0

end Catalog
end DiagramSearch
