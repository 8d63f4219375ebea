/-
# Independent sets

Vertices of a graph are chosen so that no two of them are neighbours.  The
state holds the vertices that can still be chosen.
-/

import DiagramSearch.Catalog.State
import DiagramSearch.Model
import DiagramSearch.Value.Binary64

namespace DiagramSearch
namespace Catalog

/-- A weighted graph. -/
structure IndependentSet where
  weight : Array Float
  edges : List (Nat × Nat)
deriving Repr

namespace IndependentSet

/-- Whether two vertices are neighbours. -/
def adjacent (g : IndependentSet) (v : Nat) (i : Int) : Bool :=
  g.edges.any fun (a, b) => (a == v && Int.ofNat b == i) || (b == v && Int.ofNat a == i)

/-- The problem as a dynamic program. -/
def problem (g : IndependentSet) (init : Float) : Problem State Float where
  «variables» := g.weight.size
  initialState := ⟨(List.range g.weight.size).map Int.ofNat, 0⟩
  initialValue := init
  transition _ s d :=
    ⟨s.elements.filter fun i =>
      i != Int.ofNat d.var && !(d.value == 1 && g.adjacent d.var i), 0⟩
  cost _ d := if d.value = 0 then 0 else g.weight.getD d.var 0
  domain v s :=
    ⟨v, 0⟩ :: (if s.elements.contains (Int.ofNat v) then [⟨v, 1⟩] else [])

/-- The sum of the weights of the vertices left, as far as they count. -/
def naturalBound (g : IndependentSet) (counts : Float → Bool) (s : State) (_ : Variables) : Float :=
  s.elements.foldl (fun total i =>
    let x := g.weight.getD i.toNat 0
    if counts x then total + x else total) 0

end IndependentSet
end Catalog
end DiagramSearch
