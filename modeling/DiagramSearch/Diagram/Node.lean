/-
# Nodes and edges

A node of a layer knows the edges that enter it, the latest first.  The source
of an edge is a position in the layer above.  The best edge is the latest one
that attains the node's value, and is named by its rank in the order in which
the edges came.
-/

import DiagramSearch.Subproblem

namespace DiagramSearch

/-- A decision that leads to a node. -/
structure Edge (V : Type) where
  /-- The position of the node it starts from, in the layer above. -/
  source : Nat
  decision : Decision
  cost : V
deriving Repr

/-- What became of a node when its layer was completed. -/
inductive Fate where
  /-- It takes part in the diagram. -/
  | alive
  /-- The cache knew that it leads nowhere. -/
  | cached
  /-- Another node dominates it. -/
  | dominated
  /-- It was dropped, or merged into another node. -/
  | deleted
deriving Repr, DecidableEq

/-- A node of a decision diagram. -/
structure Node (σ V : Type) where
  state : σ
  /-- The number of decisions from the root of the problem. -/
  depth : Nat
  /-- The length of the longest path from the root. -/
  longest : V
  /-- The length of the longest path to the last layer, once it is computed
  and if there is such a path. -/
  tail : Option V
  /-- The edges that enter the node, latest first. -/
  inbound : List (Edge V)
  /-- The rank of the last edge of the longest path. -/
  best : Option Nat
  /-- A rough upper bound on what is still to come. -/
  roughBound : V
  /-- The value under which the state cannot lead to an improvement. -/
  threshold : Option V
  /-- Whether every path to the node is a path of the problem. -/
  exact : Bool
  /-- Whether other nodes were merged into this one. -/
  merged : Bool
  fate : Fate
  /-- Whether the node belongs to the cut-set. -/
  cutset : Bool
  /-- Whether its threshold rests on that of a dominating state. -/
  borrowed : Bool
deriving Repr

/-- The nodes of one depth. -/
abbrev Layer (σ V : Type) := Array (Node σ V)

namespace Node

variable {σ V : Type}

/-- A node no edge leads to yet. -/
def bare [Value V] (state : σ) (depth : Nat) (longest roughBound : V) (exact : Bool) :
    Node σ V where
  state
  depth
  longest
  tail := none
  inbound := []
  best := none
  roughBound
  threshold := none
  exact
  merged := false
  fate := .alive
  cutset := false
  borrowed := false

/-- Whether the node takes part in the diagram. -/
def isAlive (n : Node σ V) : Bool := n.fate == .alive

/-- Whether the cache or the dominance table removed the node. -/
def isPruned (n : Node σ V) : Bool := n.fate == .cached || n.fate == .dominated

/-- Whether the node was dropped or merged into another. -/
def isDeleted (n : Node σ V) : Bool := n.fate == .deleted

/-- The edge of a given rank. -/
def edge? (n : Node σ V) (rank : Nat) : Option (Edge V) := n.inbound.reverse[rank]?

/-- The last edge of the longest path. -/
def bestEdge? (n : Node σ V) : Option (Edge V) := n.best.bind n.edge?

/-- Leads an edge from `parent` to the node. -/
def attach [Value V] (n parent : Node σ V) (e : Edge V) : Node σ V :=
  let value := parent.longest + e.cost
  let joined := { n with exact := parent.exact && n.exact, inbound := e :: n.inbound }
  if n.longest ≤ value then { joined with best := some n.inbound.length, longest := value }
  else joined

section Attach

variable [Value V] (n parent : Node σ V) (e : Edge V)

@[simp]
theorem attach_state : (n.attach parent e).state = n.state := by
  simp only [attach]; split <;> rfl

@[simp]
theorem attach_depth : (n.attach parent e).depth = n.depth := by
  simp only [attach]; split <;> rfl

@[simp]
theorem attach_merged : (n.attach parent e).merged = n.merged := by
  simp only [attach]; split <;> rfl

@[simp]
theorem attach_fate : (n.attach parent e).fate = n.fate := by
  simp only [attach]; split <;> rfl

@[simp]
theorem attach_inbound : (n.attach parent e).inbound = e :: n.inbound := by
  simp only [attach]; split <;> rfl

@[simp]
theorem attach_exact : (n.attach parent e).exact = (parent.exact && n.exact) := by
  simp only [attach]; split <;> rfl

@[simp]
theorem attach_threshold : (n.attach parent e).threshold = n.threshold := by
  simp only [attach]; split <;> rfl

@[simp]
theorem attach_tail : (n.attach parent e).tail = n.tail := by
  simp only [attach]; split <;> rfl

@[simp]
theorem attach_cutset : (n.attach parent e).cutset = n.cutset := by
  simp only [attach]; split <;> rfl

@[simp]
theorem attach_borrowed : (n.attach parent e).borrowed = n.borrowed := by
  simp only [attach]; split <;> rfl

@[simp]
theorem attach_roughBound : (n.attach parent e).roughBound = n.roughBound := by
  simp only [attach]; split <;> rfl

/-- An edge that reaches the longest path becomes the best one. -/
theorem bestEdge?_attach_of_le (h : n.longest ≤ parent.longest + e.cost) :
    (n.attach parent e).bestEdge? = some e := by
  simp only [attach]
  rw [if_pos h]
  simp [bestEdge?, edge?]

/-- An edge that falls short leaves the best one. -/
theorem bestEdge?_attach_of_not_le {best : Edge V} (hbest : n.bestEdge? = some best)
    (h : ¬n.longest ≤ parent.longest + e.cost) : (n.attach parent e).bestEdge? = some best := by
  obtain ⟨rank, hrank, hedge⟩ := Option.bind_eq_some_iff.1 hbest
  have hlt : rank < n.inbound.reverse.length := (List.getElem?_eq_some_iff.1 hedge).1
  simp only [attach]
  rw [if_neg h]
  simp only [bestEdge?, edge?, hrank, Option.bind_some, List.reverse_cons]
  rw [List.getElem?_append_left hlt]
  exact hedge

end Attach

theorem mem_inbound_of_bestEdge? {n : Node σ V} {e : Edge V} (h : n.bestEdge? = some e) :
    e ∈ n.inbound := by
  obtain ⟨rank, _, hedge⟩ := Option.bind_eq_some_iff.1 h
  exact List.mem_reverse.1 (List.mem_of_getElem? hedge)

/-- The place of a node in the problem, as a sub-problem of its own. -/
def residual [Value V] (n : Node σ V) (path : Path) : Subproblem σ V where
  state := n.state
  value := n.longest
  path
  bound := Value.posInf
  depth := n.depth

end Node
end DiagramSearch
