/-
# The cache of thresholds

Thresholds are kept by depth and state.  A cache that was prepared for `n`
variables has the layers `0` to `n`; what belongs to no layer is not
remembered.  A threshold is only ever tightened (`update`), until its layer is
cleared.
-/

import DiagramSearch.Register
import DiagramSearch.Subproblem
import DiagramSearch.Threshold

namespace DiagramSearch

/-- One table of thresholds for each depth. -/
structure Cache (σ V : Type) where
  /-- The tables, from depth zero on. -/
  layers : Array (Register σ (Threshold V))
deriving Repr

namespace Cache

variable {σ V : Type} [BEq σ]

/-- The cache without layers, which remembers nothing. -/
def off : Cache σ V := ⟨#[]⟩

/-- The empty cache for a problem with `n` variables. -/
def ofSize (n : Nat) : Cache σ V := ⟨Array.replicate (n + 1) .empty⟩

/-- The threshold of a state at a depth. -/
def get? (c : Cache σ V) (state : σ) (depth : Nat) : Option (Threshold V) :=
  c.layers[depth]?.bind fun layer => layer.get? state

/-- Remembers a threshold where it is tighter than the one known. -/
def update [Value V] (c : Cache σ V) (state : σ) (depth : Nat) (t : Threshold V) : Cache σ V :=
  ⟨c.layers.modify depth fun layer =>
    layer.put state (match layer.get? state with
      | some known => t.tighter known
      | none => t)⟩

/-- Whether a sub-problem may lead further than what was met in its state. -/
def admits [Value V] (c : Cache σ V) (s : Subproblem σ V) : Bool :=
  match c.get? s.state s.depth with
  | some t => t.admits s.value
  | none => true

/-- Forgets the thresholds of one depth. -/
def forget (c : Cache σ V) (depth : Nat) : Cache σ V :=
  ⟨c.layers.modify depth fun _ => .empty⟩

/-- Forgets all thresholds and keeps the layers. -/
def clear (c : Cache σ V) : Cache σ V :=
  ⟨c.layers.map fun _ => .empty⟩

/-- The number of thresholds remembered. -/
def size (c : Cache σ V) : Nat :=
  c.layers.foldl (fun n layer => n + layer.size) 0

end Cache
end DiagramSearch
