/-
# Walks modulo a number

The state is a residue that each decision multiplies and shifts; one residue
may be forbidden.
-/

import DiagramSearch.Catalog.State
import DiagramSearch.Model
import DiagramSearch.Value.Binary64

namespace DiagramSearch
namespace Catalog

/-- A walk over the residues modulo `modulus`. -/
structure Modular where
  «variables» : Nat
  start : Int
  modulus : Int
  factor : Int
  values : List Int
  /-- The cost of each value, for each variable. -/
  cost : Array (Array Float)
  /-- What a residue adds to each cost. -/
  slope : Float
  /-- The residue that must not be met. -/
  forbidden : Option Int
deriving Repr

namespace Modular

/-- The residue that a value leads to. -/
def next (w : Modular) (var : Nat) (s : State) (value : Int) : Int :=
  (w.factor * s.first + value * (Int.ofNat var + 1)) % w.modulus

/-- The problem as a dynamic program. -/
def problem (w : Modular) (init : Float) : Problem State Float where
  «variables» := w.variables
  initialState := .single w.start
  initialValue := init
  transition _ s d := .single (w.next d.var s d.value)
  cost s d :=
    let index := w.values.findIdx (· == d.value)
    (w.cost.getD d.var #[]).getD index 0 + w.slope * Float.ofInt s.first
  domain var s :=
    (w.values.filter fun v => w.forbidden != some (w.next var s v)).map fun v => ⟨var, v⟩

end Modular
end Catalog
end DiagramSearch
