/-
# Problems given by a table

Every element of a state has arcs of its own for each variable.  A decision
takes all arcs of its value at once, so a state may stand for several elements.
-/

import DiagramSearch.Catalog.State
import DiagramSearch.Model
import DiagramSearch.Register
import DiagramSearch.Value.Binary64

namespace DiagramSearch
namespace Catalog

/-- One way to go on from an element. -/
structure Arc where
  value : Int
  next : Int
  cost : Float
deriving Repr

/-- A problem as a table of arcs. -/
structure Table where
  «variables» : Nat
  start : Int
  /-- The arcs of an element for a variable. -/
  arcs : Register (Nat × Int) (List Arc)
  /-- Whether several arcs cost as much as the least of them. -/
  cheapest : Bool
  /-- Whether the same value may be listed several times. -/
  repeats : Bool
deriving Repr

namespace Table

/-- The arcs of all elements of a state. -/
def arcsOf (t : Table) (var : Nat) (s : State) : List Arc :=
  s.elements.flatMap fun i => (t.arcs.get? (var, i)).getD []

/-- The arcs that a decision takes. -/
def taken (t : Table) (s : State) (d : Decision) : List Arc :=
  (t.arcsOf d.var s).filter fun a => a.value == d.value

/-- The problem as a dynamic program. -/
def problem (t : Table) (init : Float) : Problem State Float where
  «variables» := t.variables
  initialState := .single t.start
  initialValue := init
  transition _ s d := ⟨State.sortedSet ((t.taken s d).map (·.next)), 0⟩
  cost s d :=
    match (t.taken s d).map (·.cost) with
    | [] => 0
    | c :: rest => rest.foldl (if t.cheapest then Binary64.smaller else Binary64.greater) c
  domain var s :=
    let values := (t.arcsOf var s).map (·.value)
    (if t.repeats then values else values.eraseDups).map fun v => ⟨var, v⟩

end Table
end Catalog
end DiagramSearch
