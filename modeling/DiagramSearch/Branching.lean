/-
# Choosing the variable to branch on

A rule is told the free variables and the states of the layer to come, and
names one of the free variables, or none, in which case the diagram ends with
that layer.
-/

import DiagramSearch.Variables

namespace DiagramSearch

/-- A rule that picks a free variable. -/
abbrev Branching (σ : Type) := (free : Variables) → List σ → Option { v : Nat // v ∈ free }

namespace Branching

variable {σ : Type}

/-- The free variables, each with the proof that it is one. -/
def candidates (free : Variables) : List { v : Nat // v ∈ free } :=
  free.toList.attach

/-- The least free variable. -/
def least : Branching σ := fun free _ => (candidates free).head?

/-- The greatest free variable. -/
def greatest : Branching σ := fun free _ => (candidates free).getLast?

/-- The first variable of a list that is free. -/
def listed (order : List Nat) : Branching σ := fun free _ =>
  order.findSome? fun v => if h : v ∈ free then some ⟨v, h⟩ else none

/-- The free variable at an index that the states decide, counted around. -/
def cyclic (index : List σ → Int) : Branching σ := fun free states =>
  (candidates free)[(index states % free.size).toNat]?

/-- No variable is picked from the empty set. -/
theorem eq_none_of_size {b : Branching σ} {free : Variables} {states : List σ}
    (h : free.size = 0) : b free states = none := by
  cases hb : b free states with
  | none => rfl
  | some v =>
    have hmem : v.1 ∈ free.toList := v.2
    rw [List.length_eq_zero_iff.1 h] at hmem
    exact absurd hmem List.not_mem_nil

/-- As long as a variable is picked, one is free. -/
theorem size_pos_of_some {b : Branching σ} {free : Variables} {states : List σ}
    {v : { v : Nat // v ∈ free }} (h : b free states = some v) : 0 < free.size := by
  refine Nat.pos_of_ne_zero fun hzero => ?_
  have hnone : b free states = none := eq_none_of_size hzero
  cases hnone.symm.trans h

end Branching
end DiagramSearch
