/-
# Models of the catalogue

A problem of the catalogue together with a merge, relaxed costs and bounds.  A
model may be made to misbehave at one application of its transition, so that
the checks have something to find.
-/

import DiagramSearch.Catalog.Bound
import DiagramSearch.Catalog.Coins
import DiagramSearch.Catalog.IndependentSet
import DiagramSearch.Catalog.Knapsack
import DiagramSearch.Catalog.Modular
import DiagramSearch.Catalog.Rules
import DiagramSearch.Catalog.Table

namespace DiagramSearch
namespace Catalog

/-- The problems of the catalogue. -/
inductive Instance where
  | knapsack (k : Knapsack)
  | independentSet (g : IndependentSet)
  | coins (c : Coins)
  | table (t : Table)
  | modular (w : Modular)
deriving Repr

namespace Instance

/-- The problem as a dynamic program. -/
def problem (i : Instance) (init : Float) : Problem State Float :=
  match i with
  | knapsack k => k.problem init
  | independentSet g => g.problem init
  | coins c => c.problem init
  | table t => t.problem init
  | modular w => w.problem init

/-- The upper bound that comes with the problem. -/
def naturalUpper (i : Instance) (s : State) (free : Variables) : Float :=
  match i with
  | knapsack k => k.naturalBound (fun x => 0 < x) s free
  | independentSet g => g.naturalBound (fun x => 0 < x) s free
  | coins c => c.naturalUpper s free
  | table _ | modular _ => Value.posInf

/-- The lower bound that comes with the problem. -/
def naturalLower (i : Instance) (s : State) (free : Variables) : Float :=
  match i with
  | knapsack k => k.naturalBound (fun x => x < 0) s free
  | independentSet g => g.naturalBound (fun x => x < 0) s free
  | coins c => c.naturalLower s free
  | table _ | modular _ => Value.negInf

end Instance

/-- How a transition misbehaves. -/
inductive Slip where
  /-- It leads to another state. -/
  | state
  /-- It leads to an equal state with another hash. -/
  | hash
deriving Repr, DecidableEq

/-- The state that a slip leads to. -/
def Slip.apply (slip : Slip) (s : State) : State :=
  match slip with
  | state => { s with elements := s.elements ++ [-99] }
  | hash => { s with mark := 1 }

/-- A model of the catalogue. -/
structure Blueprint where
  inst : Instance
  init : Float
  merge : Merge
  shift : Option CostShift
  bounds : Bounds
  /-- The application, counted from one, at which the transition slips. -/
  slip : Option (Nat × Slip)
deriving Repr

namespace Blueprint

/-- The problem of a blueprint. -/
def problem (b : Blueprint) : Problem State Float :=
  let p := b.inst.problem b.init
  match b.slip with
  | none => p
  | some (n, slip) =>
    { p with
      transition := fun i s d =>
        let next := p.transition i s d
        if i + 1 = n then slip.apply next else next }

/-- The relaxation of a blueprint. -/
def relaxation (b : Blueprint) : Relaxation State Float where
  merge := b.merge.apply
  relax source target merged d cost :=
    match b.shift with
    | none => cost
    | some k => k.apply source target merged d cost
  upperBound := b.bounds.upper.apply Value.posInf b.inst.naturalUpper
  lowerBound := b.bounds.lower.apply Value.negInf b.inst.naturalLower

/-- The model of a blueprint. -/
def model (b : Blueprint) : Model State Float := ⟨b.problem, b.relaxation⟩

end Blueprint
end Catalog
end DiagramSearch
