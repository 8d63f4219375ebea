/-
# How the layers of a diagram hang together

What a layer owes to the layer above it, said of one pair of layers at a time.

* `Node.Joined`: the edges of a node start at nodes of the layer above that take
  part in the diagram, no edge promises more than the node's longest path, the
  best edge gives exactly that, and a node that is exact has exact parents only;
* `Linked`: every node is joined, and a decision of a node that is worth
  expanding is never lost: it leads to the node of its state, or to a merged
  node at a relaxed cost.

Neither says anything of bounds, cut-sets and thresholds, so both survive what
is computed later: `Node.core` is the part of a node they speak of, and
`Linked.congr` is the transport.
-/

import DiagramSearch.Proofs.Trails
import DiagramSearch.Diagram.Request

namespace DiagramSearch

open Extended

variable {σ κ : Type}

/-- What is asked of a model and a branching rule. -/
structure Request.Regular (r : Request σ κ Extended) : Prop where
  isPure : r.model.problem.Pure
  finite : ∀ s d, Value.isFinite (r.model.problem.cost s d) = true
  static : r.branching.Static
  sound : r.model.Sound r.branching

/-- What is asked of them for layers to hang together: nothing of relaxations, bounds or
costs. -/
structure Request.Tame (r : Request σ κ Extended) : Prop where
  isPure : r.model.problem.Pure
  static : r.branching.Static

theorem Request.Regular.tame {r : Request σ κ Extended} (hr : r.Regular) : r.Tame :=
  ⟨hr.isPure, hr.static⟩

/-! ### The free variables and the optimum of a layer -/

namespace Request

variable (r : Request σ κ Extended)

/-- The variables that are free in a layer, counted from the root. -/
def freeAt (i : Nat) : Variables :=
  r.branching.freeAt (r.residual.free r.model.problem.variables) i

/-- The optimum of a state of a layer. -/
def optimumAt (i : Nat) (s : σ) : Extended :=
  r.model.problem.optimum r.branching (r.freeAt i) s

/-- The decisions by which a state of a layer is branched. -/
def Branches (i : Nat) (s : σ) (d : Decision) : Prop :=
  ∃ v, r.branching (r.freeAt i) [] = some v ∧ d ∈ r.model.problem.domain v s

/-- A node of a layer whose bound does not rule it out. -/
def Expands (i : Nat) (n : Node σ Extended) : Prop :=
  r.toBeat < n.longest + r.model.relaxation.upperBound n.state (r.freeAt i)

/-- The root is not bounded if there is nothing to decide. -/
def Entered : Prop :=
  r.branching (r.freeAt 0) [] = none → r.residual.bound = posInf

variable {r}

theorem freeAt_succ {i : Nat} {v : { v : Nat // v ∈ r.freeAt i }}
    (h : r.branching (r.freeAt i) [] = some v) : r.freeAt (i + 1) = (r.freeAt i).erase v :=
  Branching.rest_of_some h

/-- A decision gains at most what the optimum promises. -/
theorem Branches.le_optimumAt {i : Nat} {s : σ} {d : Decision} (h : r.Branches i s d) :
    r.model.problem.cost s d + r.optimumAt (i + 1) (r.model.problem.transition 0 s d) ≤
      r.optimumAt i s := by
  obtain ⟨v, hv, hd⟩ := h
  unfold optimumAt
  rw [freeAt_succ hv]
  exact Problem.le_optimum hv hd

/-- An optimum that can be reached is reached through a decision. -/
theorem exists_branches {i : Nat} {s : σ} (hi : r.branching (r.freeAt i) [] ≠ none)
    (hs : r.optimumAt i s ≠ negInf) :
    ∃ d, r.Branches i s d ∧
      r.model.problem.cost s d + r.optimumAt (i + 1) (r.model.problem.transition 0 s d) =
        r.optimumAt i s := by
  obtain ⟨v, hv⟩ := Option.ne_none_iff_exists'.1 hi
  obtain ⟨d, hd, heq⟩ := Problem.exists_optimum_eq hv hs
  refine ⟨d, ⟨v, hv, hd⟩, ?_⟩
  unfold optimumAt
  rw [freeAt_succ hv]
  exact heq

theorem optimumAt_of_none {i : Nat} (h : r.branching (r.freeAt i) [] = none) (s : σ) :
    r.optimumAt i s = 0 := Problem.optimum_of_none h s

end Request

/-! ### Leading an edge to a node -/

theorem Node.attach_longest (n parent : Node σ Extended) (e : Edge Extended) :
    (n.attach parent e).longest = max n.longest (parent.longest + e.cost) := by
  simp only [attach]
  split
  · rename_i h
    exact (max_eq_right h).symm
  · rename_i h
    exact (max_eq_left (le_of_not_ge h)).symm

/-! ### Nodes and the layer above -/

/-- What an edge of a node owes to the node it starts from. -/
structure Edge.From (r : Request σ κ Extended) (i : Nat) (n : Node σ Extended)
    (e : Edge Extended) (p : Node σ Extended) : Prop where
  alive : p.isAlive = true
  branches : r.Branches i p.state e.decision
  /-- The start was worth expanding. -/
  expands : r.Expands i p
  le_longest : p.longest + e.cost ≤ n.longest
  exact : n.exact = true → p.exact = true
  /-- An edge to a node that is not merged is a transition of the problem. -/
  original : n.merged = false → n.state = r.model.problem.transition 0 p.state e.decision ∧
    e.cost = r.model.problem.cost p.state e.decision

/-- A node whose edges start in a layer. -/
structure Node.Hung (r : Request σ κ Extended) (i : Nat) (parents : Layer σ Extended)
    (n : Node σ Extended) : Prop where
  depth : n.depth = r.residual.depth + (i + 1)
  edge : ∀ e ∈ n.inbound, ∃ p, parents[e.source]? = some p ∧ e.From r i n p
  merged : n.merged = true → n.exact = false
  /-- A node that is not merged is exact if all its parents are. -/
  exact : n.merged = false →
    (∀ e ∈ n.inbound, ∀ p, parents[e.source]? = some p → p.exact = true) → n.exact = true

/-- A node below the nodes of a layer. -/
structure Node.Joined (r : Request σ κ Extended) (i : Nat) (parents : Layer σ Extended)
    (n : Node σ Extended) : Prop extends n.Hung r i parents where
  /-- The best edge is the end of the longest path. -/
  best : ∃ e p, n.bestEdge? = some e ∧ parents[e.source]? = some p ∧
    n.longest = p.longest + e.cost

/-- A node to which a decision of a node of the layer above leads: the node of
the state that is reached, or a merged node that stands for it. -/
def Node.Receives (r : Request σ κ Extended) (source : Nat) (n p : Node σ Extended)
    (d : Decision) : Prop :=
  let x := r.model.problem.transition 0 p.state d
  let c := r.model.problem.cost p.state d
  ∃ e ∈ n.inbound, e.source = source ∧ e.decision = d ∧
    ((n.state = x ∧ e.cost = c ∧ (n.fate = .deleted → r.kind = .restricted)) ∨
      (n.fate = .alive ∧ n.exact = false ∧ ∃ xs, x ∈ xs ∧ n.state = r.model.relaxation.merge xs ∧
        e.cost = r.model.relaxation.relax p.state x n.state d c))

/-- An edge is a decision at its cost, or the relaxed copy of one that leads to a merge
of states that are reached in the layer. -/
def Edge.Springs (r : Request σ κ Extended) (i : Nat) (parents : Layer σ Extended)
    (n : Node σ Extended) (e : Edge Extended) (p : Node σ Extended) : Prop :=
  let x := r.model.problem.transition 0 p.state e.decision
  let c := r.model.problem.cost p.state e.decision
  (n.state = x ∧ e.cost = c) ∨ ∃ xs, x ∈ xs ∧ n.state = r.model.relaxation.merge xs ∧
    e.cost = r.model.relaxation.relax p.state x n.state e.decision c ∧
    ∀ y ∈ xs, ∃ q ∈ parents, ∃ d, r.Branches i q.state d ∧
      y = r.model.problem.transition 0 q.state d

/-- A layer below another one. -/
structure Linked (r : Request σ κ Extended) (i : Nat) (parents layer : Layer σ Extended) :
    Prop where
  joined : ∀ n ∈ layer, n.Joined r i parents
  /-- No edge comes out of nowhere. -/
  springs : ∀ n ∈ layer, ∀ e ∈ n.inbound, ∀ p, parents[e.source]? = some p →
    e.Springs r i parents n p
  /-- No decision of a node that is worth expanding is lost. -/
  receives : ∀ j p, parents[j]? = some p → p.isAlive = true → r.Expands i p →
    ∀ d, r.Branches i p.state d → ∃ n ∈ layer, n.Receives r j p d

namespace Node

variable {r : Request σ κ Extended} {i : Nat} {parents : Layer σ Extended}
  {n p : Node σ Extended} {e : Edge Extended}

/-- One more edge takes nothing from the others. -/
theorem Hung.attach (h : n.Hung r i parents) (hp : parents[e.source]? = some p)
    (halive : p.isAlive = true) (hbranch : r.Branches i p.state e.decision)
    (hexp : r.Expands i p)
    (horig : n.merged = false → n.state = r.model.problem.transition 0 p.state e.decision ∧
      e.cost = r.model.problem.cost p.state e.decision) :
    (n.attach p e).Hung r i parents where
  depth := by rw [attach_depth]; exact h.depth
  edge := by
    intro f hf
    rw [attach_inbound] at hf
    rcases List.mem_cons.1 hf with rfl | hf
    · refine ⟨p, hp, halive, hbranch, hexp, ?_, ?_, ?_⟩
      · rw [attach_longest]
        exact le_max_right _ _
      · rw [attach_exact, Bool.and_eq_true]
        exact And.left
      · rw [attach_merged, attach_state]
        exact horig
    · obtain ⟨q, hq, hfrom⟩ := h.edge f hf
      refine ⟨q, hq, hfrom.alive, hfrom.branches, hfrom.expands, ?_, ?_, ?_⟩
      · rw [attach_longest]
        exact le_max_of_le_left hfrom.le_longest
      · rw [attach_exact, Bool.and_eq_true]
        exact fun hex => hfrom.exact hex.2
      · rw [attach_merged, attach_state]
        exact hfrom.original
  merged := by
    rw [attach_merged, attach_exact]
    intro hm
    rw [h.merged hm, Bool.and_false]
  exact := by
    rw [attach_merged, attach_exact, attach_inbound]
    intro hm hall
    rw [hall e List.mem_cons_self p hp, Bool.true_and]
    exact h.exact hm fun f hf => hall f (List.mem_cons_of_mem e hf)

/-- A longest path stays one, or makes way for a longer one. -/
theorem Joined.attach (h : n.Joined r i parents) (hp : parents[e.source]? = some p)
    (halive : p.isAlive = true) (hbranch : r.Branches i p.state e.decision)
    (hexp : r.Expands i p)
    (horig : n.merged = false → n.state = r.model.problem.transition 0 p.state e.decision ∧
      e.cost = r.model.problem.cost p.state e.decision) :
    (n.attach p e).Joined r i parents where
  toHung := h.toHung.attach hp halive hbranch hexp horig
  best := by
    rw [attach_longest]
    rcases le_or_gt n.longest (p.longest + e.cost) with hle | hlt
    · exact ⟨e, p, bestEdge?_attach_of_le n p e hle, hp, max_eq_right hle⟩
    · obtain ⟨f, q, hf, hq, hlongest⟩ := h.best
      refine ⟨f, q, bestEdge?_attach_of_not_le n p e hf (not_le.2 hlt), hq, ?_⟩
      rw [max_eq_left hlt.le, hlongest]

end Node

/-! ### What later computations leave alone -/

namespace Node

/-- The part of a node that bounds, cut-sets and thresholds do not touch. -/
def skeleton (n : Node σ Extended) : Node σ Extended :=
  { n with
    tail := none
    threshold := if n.isAlive then none else n.threshold
    cutset := false
    borrowed := false }

/-- The part of a node that does not change either when it is expanded. -/
def core (n : Node σ Extended) : Node σ Extended :=
  { n.skeleton with roughBound := posInf }

/-- The part of a node that is settled when it is reached, whatever becomes of
it. -/
def stem (n : Node σ Extended) : Node σ Extended :=
  { n.core with fate := .alive, threshold := none }

variable {n n' : Node σ Extended}

theorem stem_eq_of_core_eq (h : n.core = n'.core) : n.stem = n'.stem := by
  rw [stem, stem, h]

section StemEq

variable (h : n.stem = n'.stem)
include h

theorem state_eq : n.state = n'.state := (congrArg state h :)

theorem depth_eq : n.depth = n'.depth := (congrArg depth h :)

theorem longest_eq : n.longest = n'.longest := (congrArg longest h :)

theorem inbound_eq : n.inbound = n'.inbound := (congrArg inbound h :)

theorem exact_eq : n.exact = n'.exact := (congrArg Node.exact h :)

theorem merged_eq : n.merged = n'.merged := (congrArg merged h :)

theorem bestEdge?_eq : n.bestEdge? = n'.bestEdge? := by
  have hbest : n.best = n'.best := (congrArg best h :)
  unfold bestEdge? edge?
  rw [hbest, inbound_eq h]

end StemEq

section CoreEq

variable (h : n.core = n'.core)
include h

theorem fate_eq : n.fate = n'.fate := (congrArg fate h :)

theorem isAlive_eq : n.isAlive = n'.isAlive := by
  rw [isAlive, isAlive, fate_eq h]

/-- The threshold of a node that was set aside is part of it. -/
theorem threshold_eq (hn : n.isAlive = false) : n.threshold = n'.threshold := by
  have ht : (if n.isAlive then none else n.threshold) =
      if n'.isAlive then none else n'.threshold := (congrArg threshold h :)
  rwa [← isAlive_eq h, hn, if_neg Bool.false_ne_true, if_neg Bool.false_ne_true] at ht

end CoreEq

end Node

/-- Two layers with the same image have nodes with the same image in the same
places. -/
theorem Layer.getElem?_of_map_eq {V α : Type} {f : Node σ V → α} {l l' : Layer σ V}
    (h : l.map f = l'.map f) {j : Nat} {n : Node σ V} (hn : l[j]? = some n) :
    ∃ n', l'[j]? = some n' ∧ f n = f n' := by
  have hj : (l.map f)[j]? = some (f n) := by rw [Array.getElem?_map, hn, Option.map_some]
  rw [h, Array.getElem?_map] at hj
  obtain ⟨n', hn', heq⟩ := Option.map_eq_some_iff.1 hj
  exact ⟨n', hn', heq.symm⟩

variable {r : Request σ κ Extended} {i : Nat} {parents parents' layer layer' : Layer σ Extended}

theorem Edge.From.congr {e : Edge Extended} {n n' p p' : Node σ Extended} (hn : n.stem = n'.stem)
    (hp : p.core = p'.core) (h : e.From r i n p) : e.From r i n' p' := by
  have hstem := Node.stem_eq_of_core_eq hp
  refine ⟨?_, ?_, ?_, ?_, ?_, ?_⟩
  · rw [← Node.isAlive_eq hp]
    exact h.alive
  · rw [← Node.state_eq hstem]
    exact h.branches
  · unfold Request.Expands
    rw [← Node.state_eq hstem, ← Node.longest_eq hstem]
    exact h.expands
  · rw [← Node.longest_eq hn, ← Node.longest_eq hstem]
    exact h.le_longest
  · rw [← Node.exact_eq hn, ← Node.exact_eq hstem]
    exact h.exact
  · rw [← Node.merged_eq hn, ← Node.state_eq hn, ← Node.state_eq hstem]
    exact h.original

theorem Node.Hung.congr {n n' : Node σ Extended} (hn : n.stem = n'.stem)
    (hparents : parents.map Node.core = parents'.map Node.core) (h : n.Hung r i parents) :
    n'.Hung r i parents' where
  depth := by rw [← Node.depth_eq hn]; exact h.depth
  edge := by
    intro e he
    rw [← Node.inbound_eq hn] at he
    obtain ⟨p, hp, hfrom⟩ := h.edge e he
    obtain ⟨p', hp', hcore⟩ := Layer.getElem?_of_map_eq hparents hp
    exact ⟨p', hp', hfrom.congr hn hcore⟩
  merged := by rw [← Node.merged_eq hn, ← Node.exact_eq hn]; exact h.merged
  exact := by
    rw [← Node.merged_eq hn, ← Node.exact_eq hn, ← Node.inbound_eq hn]
    intro hm hall
    refine h.exact hm fun e he p hp => ?_
    obtain ⟨p', hp', hcore⟩ := Layer.getElem?_of_map_eq hparents hp
    rw [Node.exact_eq (Node.stem_eq_of_core_eq hcore)]
    exact hall e he p' hp'

theorem Node.Joined.congr {n n' : Node σ Extended} (hn : n.stem = n'.stem)
    (hparents : parents.map Node.core = parents'.map Node.core) (h : n.Joined r i parents) :
    n'.Joined r i parents' where
  toHung := h.toHung.congr hn hparents
  best := by
    obtain ⟨e, p, he, hp, hlongest⟩ := h.best
    obtain ⟨p', hp', hcore⟩ := Layer.getElem?_of_map_eq hparents hp
    refine ⟨e, p', ?_, hp', ?_⟩
    · rw [← Node.bestEdge?_eq hn]
      exact he
    · rw [← Node.longest_eq hn, ← Node.longest_eq (Node.stem_eq_of_core_eq hcore)]
      exact hlongest

theorem Node.Receives.congr {j : Nat} {d : Decision} {n n' p p' : Node σ Extended}
    (hn : n.core = n'.core) (hp : p.core = p'.core) (h : n.Receives r j p d) :
    n'.Receives r j p' d := by
  have hstem := Node.stem_eq_of_core_eq hn
  unfold Node.Receives at h ⊢
  rw [← Node.inbound_eq hstem, ← Node.state_eq hstem, ← Node.fate_eq hn, ← Node.exact_eq hstem,
    ← Node.state_eq (Node.stem_eq_of_core_eq hp)]
  exact h

theorem Edge.Springs.congr {e : Edge Extended} {n n' p p' : Node σ Extended}
    (hn : n.stem = n'.stem) (hp : p.stem = p'.stem)
    (hparents : parents.map Node.core = parents'.map Node.core) (h : e.Springs r i parents n p) :
    e.Springs r i parents' n' p' := by
  unfold Edge.Springs at h ⊢
  rw [← Node.state_eq hn, ← Node.state_eq hp]
  refine h.imp_right ?_
  rintro ⟨xs, hx, hstate, hcost, hxs⟩
  refine ⟨xs, hx, hstate, hcost, fun y hy => ?_⟩
  obtain ⟨q, hq, d, hd, heq⟩ := hxs y hy
  obtain ⟨j, hj⟩ := Array.mem_iff_getElem?.1 hq
  obtain ⟨q', hq', hcore⟩ := Layer.getElem?_of_map_eq hparents hj
  refine ⟨q', Array.mem_of_getElem? hq', d, ?_⟩
  rw [← Node.state_eq (Node.stem_eq_of_core_eq hcore)]
  exact ⟨hd, heq⟩

/-- **How layers are linked does not depend on what is computed later.** -/
theorem Linked.congr (hparents : parents.map Node.core = parents'.map Node.core)
    (hlayer : layer.map Node.core = layer'.map Node.core) (h : Linked r i parents layer) :
    Linked r i parents' layer' where
  joined := by
    intro n' hn'
    obtain ⟨j, hj⟩ := Array.mem_iff_getElem?.1 hn'
    obtain ⟨n, hn, hcore⟩ := Layer.getElem?_of_map_eq hlayer.symm hj
    exact (h.joined n (Array.mem_of_getElem? hn)).congr (Node.stem_eq_of_core_eq hcore.symm)
      hparents
  springs := by
    intro n' hn' e he p' hp'
    obtain ⟨j, hj⟩ := Array.mem_iff_getElem?.1 hn'
    obtain ⟨n, hn, hcore⟩ := Layer.getElem?_of_map_eq hlayer.symm hj
    obtain ⟨p, hp, hpcore⟩ := Layer.getElem?_of_map_eq hparents.symm hp'
    have hstem := Node.stem_eq_of_core_eq hcore.symm
    rw [← Node.inbound_eq hstem] at he
    exact (h.springs n (Array.mem_of_getElem? hn) e he p hp).congr hstem
      (Node.stem_eq_of_core_eq hpcore.symm) hparents
  receives := by
    intro j p' hp' halive hexp d hd
    obtain ⟨p, hp, hcore⟩ := Layer.getElem?_of_map_eq hparents.symm hp'
    have hstem := Node.stem_eq_of_core_eq hcore
    have hexp' : r.Expands i p := by
      unfold Request.Expands at hexp ⊢
      rwa [← Node.state_eq hstem, ← Node.longest_eq hstem]
    rw [Node.state_eq hstem] at hd
    rw [Node.isAlive_eq hcore] at halive
    obtain ⟨n, hn, hrec⟩ := h.receives j p hp halive hexp' d hd
    obtain ⟨k, hk⟩ := Array.mem_iff_getElem?.1 hn
    obtain ⟨n', hn', hcore'⟩ := Layer.getElem?_of_map_eq hlayer hk
    exact ⟨n', Array.mem_of_getElem? hn', hrec.congr hcore' hcore.symm⟩

end DiagramSearch
