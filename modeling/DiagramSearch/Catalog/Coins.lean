/-
# Giving change

An amount is to be paid exactly with coins, each kind in turn.  The state holds
the amounts that may be left, in increasing order.
-/

import DiagramSearch.Catalog.State
import DiagramSearch.Model
import DiagramSearch.Value.Binary64

namespace DiagramSearch
namespace Catalog

/-- An amount and the coins to pay it with. -/
structure Coins where
  amount : Int
  coins : Array Int
deriving Repr

namespace Coins

/-- The worth of a kind of coin. -/
def coin (c : Coins) (i : Nat) : Int := c.coins.getD i 0

/-- The problem as a dynamic program. -/
def problem (c : Coins) (init : Float) : Problem State Float where
  «variables» := c.coins.size
  initialState := .single c.amount
  initialValue := init
  transition _ s d :=
    let paid := d.value * c.coin d.var
    ⟨State.sortedSet ((s.elements.filter fun r => decide (paid ≤ r)).map (· - paid)), 0⟩
  cost _ d := Float.ofInt d.value
  domain i s :=
    let all := (List.range (s.last.tdiv (c.coin i) + 1).toNat).map Int.ofNat
    let allowed :=
      if i + 1 = c.coins.size then all.filter fun k => s.elements.contains (k * c.coin i) else all
    allowed.map fun k => ⟨i, k⟩

/-- The number of coins when only the smallest are used. -/
def naturalUpper (c : Coins) (s : State) (free : Variables) : Float :=
  match (free.toList.map c.coin).min? with
  | none => 0
  | some smallest => Float.ofInt (s.last.tdiv smallest)

/-- The number of coins when only the largest are used. -/
def naturalLower (c : Coins) (s : State) (free : Variables) : Float :=
  match (free.toList.map c.coin).max? with
  | none => 0
  | some largest => Float.ofInt ((s.first + largest - 1).tdiv largest)

end Coins
end Catalog
end DiagramSearch
