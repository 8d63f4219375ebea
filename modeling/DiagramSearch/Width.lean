/-
# Widths

How many nodes a layer may hold, given how many decisions lead to the root of
the diagram.  Whatever the heuristic says, a layer may hold one node.
-/

namespace DiagramSearch

/-- A rule for the width of a diagram. -/
inductive Width where
  /-- Always the same width. -/
  | fixed (n : Nat)
  /-- As many nodes as variables are left of `n`. -/
  | unassigned (n : Nat)
  /-- A multiple of another width. -/
  | times (factor : Nat) (width : Width)
  /-- A fraction of another width. -/
  | dividedBy (divisor : Nat) (width : Width)
deriving Repr, DecidableEq

namespace Width

/-- The width granted after a number of decisions. -/
def after (decisions : Nat) : Width → Nat
  | fixed n => max n 1
  | unassigned n => max (n - decisions) 1
  | times factor width => max 1 (factor * width.after decisions)
  | dividedBy divisor width => max 1 (width.after decisions / max divisor 1)

/-- A layer may always hold one node. -/
theorem one_le_after (decisions : Nat) (w : Width) : 1 ≤ w.after decisions := by
  cases w with
  | fixed n => exact Nat.le_max_right n 1
  | unassigned n => exact Nat.le_max_right (n - decisions) 1
  | times factor width => exact Nat.le_max_left 1 _
  | dividedBy divisor width => exact Nat.le_max_left 1 _

end Width
end DiagramSearch
