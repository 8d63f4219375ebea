/-
# States of the catalogue

The problems of the catalogue share one kind of state, a list of integers: a
capacity left, a set of candidates, a set of amounts.  A state also carries a
mark, which counts in its hash and not in its comparison; it is zero except
where a transition is made to misbehave.
-/

import DiagramSearch.Label

namespace DiagramSearch
namespace Catalog

/-- A list of integers with a mark. -/
structure State where
  elements : List Int
  /-- Seen by the hash only. -/
  mark : Nat := 0
deriving Repr, Inhabited

namespace State

instance : BEq State := ⟨fun a b => a.elements == b.elements⟩

instance : Hashable State := ⟨fun s => mixHash (hash s.elements) (hash s.mark)⟩

/-- The elements in brackets. -/
instance : Label State where
  text s := "[" ++ ", ".intercalate (s.elements.map text) ++ "]"

/-- The state with a single element. -/
def single (i : Int) : State := ⟨[i], 0⟩

/-- The first element, zero if there is none. -/
def first (s : State) : Int := s.elements.headD 0

/-- The last element, zero if there is none. -/
def last (s : State) : Int := s.elements.getLastD 0

/-- The sum of the elements. -/
def sum (s : State) : Int := s.elements.foldl (· + ·) 0

/-- The lexicographic order: a state stands before its extensions. -/
def order (a b : State) : Ordering := compare a.elements b.elements

/-- Puts an integer in its place of an increasing list. -/
def place (i : Int) : List Int → List Int
  | [] => [i]
  | j :: js => if i < j then i :: j :: js else if i = j then j :: js else j :: place i js

/-- The increasing list of the members of a list. -/
def sortedSet (l : List Int) : List Int := l.foldl (fun set i => place i set) []

end State
end Catalog
end DiagramSearch
