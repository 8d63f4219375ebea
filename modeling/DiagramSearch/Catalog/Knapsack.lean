/-
# Packing a knapsack

Items of a weight and a profit come in given quantities.  The state holds the
capacity that is left.
-/

import DiagramSearch.Catalog.State
import DiagramSearch.Model
import DiagramSearch.Value.Binary64

namespace DiagramSearch
namespace Catalog

/-- A knapsack problem. -/
structure Knapsack where
  capacity : Int
  profit : Array Float
  weight : Array Int
  quantity : Array Int
  /-- Whether an item has to be taken in full quantity. -/
  mandatory : Bool
  /-- Whether larger quantities are tried first. -/
  descending : Bool
deriving Repr

namespace Knapsack

/-- The largest quantity of an item that fits, `-1` if even none does. -/
def most (k : Knapsack) (i : Nat) (s : State) : Int :=
  let q := k.quantity.getD i 0
  let w := k.weight.getD i 0
  if s.first < 0 then -1 else if w = 0 then q else min q (s.first.tdiv w)

/-- The quantities of an item that may be taken. -/
def quantities (k : Knapsack) (i : Nat) (s : State) : List Int :=
  let all := (List.range (k.most i s + 1).toNat).map Int.ofNat
  let allowed := if k.mandatory then all.filter (· == k.quantity.getD i 0) else all
  if k.descending then allowed.reverse else allowed

/-- The problem as a dynamic program. -/
def problem (k : Knapsack) (init : Float) : Problem State Float where
  «variables» := k.profit.size
  initialState := .single k.capacity
  initialValue := init
  transition _ s d := .single (s.first - k.weight.getD d.var 0 * d.value)
  cost _ d := if d.value = 0 then 0 else Float.ofInt d.value * k.profit.getD d.var 0
  domain i s := (k.quantities i s).map fun q => ⟨i, q⟩

/-- The sum of what each remaining item may bring at most, as far as it counts. -/
def naturalBound (k : Knapsack) (counts : Float → Bool) (s : State) (free : Variables) : Float :=
  free.toList.foldl (fun total i =>
    let x := k.profit.getD i 0 * Float.ofInt (max 0 (k.most i s))
    if counts x then total + x else total) 0

end Knapsack
end Catalog
end DiagramSearch
