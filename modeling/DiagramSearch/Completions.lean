/-
# Completions of a state

What a problem means, said without any diagram.  `replay` takes decisions one
after the other; `optimum` is the most that decisions on the free variables can
add to the value of a state, the variables being taken as a branching rule
picks them.  A model is sound for a rule (`Model.Sound`) when its bounds are
never below the optimum and no merge loses anything: the relaxed edge and what
follows it are worth at least the edge and what followed it.
-/

import DiagramSearch.Branching
import DiagramSearch.Model

namespace DiagramSearch

variable {σ V : Type}

namespace Branching

/-- The choice depends on the free variables alone. -/
def Static (b : Branching σ) : Prop :=
  ∀ free states states', b free states = b free states'

/-- A variable is picked as long as one is free. -/
def Total (b : Branching σ) : Prop :=
  ∀ free states, free.size ≠ 0 → (b free states).isSome

end Branching

namespace Problem

variable [Value V]

/-- Takes decisions one after the other, each of which has to be possible. -/
def replay (p : Problem σ V) : Path → σ → V → Option (σ × V)
  | [], s, v => some (s, v)
  | d :: ds, s, v =>
    if d ∈ p.domain d.var s then p.replay ds (p.transition 0 s d) (v + p.cost s d) else none

/-- The most that a number of further decisions can add to a value, the lower
end if they cannot be taken. -/
def optimumIn (p : Problem σ V) (b : Branching σ) : Nat → Variables → σ → V
  | 0, _, _ => 0
  | rounds + 1, free, s =>
    match b free [] with
    | none => 0
    | some v =>
      ((p.domain v s).map fun d =>
        p.cost s d + p.optimumIn b rounds (free.erase v) (p.transition 0 s d)).foldl
          max Value.negInf

/-- The most that decisions on the free variables can add to a value. -/
def optimum (p : Problem σ V) (b : Branching σ) (free : Variables) (s : σ) : V :=
  p.optimumIn b free.size free s

/-- The decisions that a domain lists are on its variable. -/
def Focused (p : Problem σ V) : Prop :=
  ∀ v s, ∀ d ∈ p.domain v s, d.var = v

end Problem

/-- Bounds and merges that never fall short of the optimum. -/
structure Model.Sound [Value V] (m : Model σ V) (b : Branching σ) : Prop where
  /-- The bound of a state is at least its optimum. -/
  admissible : ∀ s free, m.problem.optimum b free s ≤ m.relaxation.upperBound s free
  /-- A relaxed edge to a merged state makes up for the edge to any state that
  was merged. -/
  covering : ∀ xs free source v, ∀ d ∈ m.problem.domain v source,
    m.problem.transition 0 source d ∈ xs →
    m.problem.cost source d + m.problem.optimum b free (m.problem.transition 0 source d) ≤
      m.relaxation.relax source (m.problem.transition 0 source d) (m.relaxation.merge xs) d
          (m.problem.cost source d)
        + m.problem.optimum b free (m.relaxation.merge xs)

end DiagramSearch
