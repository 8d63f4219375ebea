/-
# Paths read off a diagram

A diagram tells how a node was reached by climbing from best edge to best edge.

* `Node.Joined.traced`: if the start of the best edge is reached by a trail and
  the node is not merged, one more decision makes a trail to the node, of
  exactly the length that the node claims;
* `Node.Joined.freeAfter_climbFrom`: merged or not, the decisions on the way up
  are on the variables that the layers were branched on.
-/

import DiagramSearch.Proofs.Linkage
import DiagramSearch.Diagram.Basic

namespace DiagramSearch

open Extended

variable {σ κ : Type}

/-- A trail from the root of a diagram to a state of a layer. -/
def Request.Traced (r : Request σ κ Extended) (i : Nat) (ds : Path) (s : σ) (v : Extended) : Prop :=
  ds.length = i ∧ r.model.problem.Leads r.branching (r.freeAt 0) r.residual.state r.residual.value
    ds (r.freeAt i) s v

namespace Request.Traced

variable {r : Request σ κ Extended} {i : Nat} {ds : Path} {s : σ} {v : Extended}

theorem root (r : Request σ κ Extended) : r.Traced 0 [] r.residual.state r.residual.value :=
  ⟨rfl, .refl⟩

theorem step (h : r.Traced i ds s v) {d : Decision} (hd : r.Branches i s d) :
    r.Traced (i + 1) (d :: ds) (r.model.problem.transition 0 s d)
      (v + r.model.problem.cost s d) := by
  obtain ⟨x, hx, hmem⟩ := hd
  refine ⟨by rw [List.length_cons, h.1], ?_⟩
  rw [Request.freeAt_succ hx]
  exact .step h.2 hx hmem

theorem add_optimumAt_le (h : r.Traced i ds s v) :
    v + r.optimumAt i s ≤ r.residual.value + r.optimumAt 0 r.residual.state :=
  h.2.add_optimum_le

end Request.Traced

/-- A path erases the variables of its decisions, in any order. -/
theorem Subproblem.freeAfter_append_cons (n : Nat) (path ds : Path) (d : Decision) :
    freeAfter n (path ++ d :: ds) = (freeAfter n (path ++ ds)).erase d.var := by
  have hcomm : RightCommutative fun (free : Variables) (d : Decision) => free.erase d.var :=
    ⟨fun s d e => Variables.erase_right_comm s d.var e.var⟩
  have hperm : (path ++ d :: ds).Perm (path ++ ds ++ [d]) := by
    rw [List.append_assoc]
    exact (List.perm_append_singleton d ds).symm.append_left path
  unfold freeAfter
  rw [hperm.foldl_eq, List.foldl_append]
  rfl

namespace Node.Joined

variable {r : Request σ κ Extended} {i : Nat} {parents : Layer σ Extended}
  {above : List (Layer σ Extended)} {n p : Node σ Extended} {e : Edge Extended}

/-- The best edge starts where the node's edges start. -/
theorem from_best (h : n.Joined r i parents) :
    ∃ e p, n.bestEdge? = some e ∧ parents[e.source]? = some p ∧
      n.longest = p.longest + e.cost ∧ e.From r i n p := by
  obtain ⟨e, p, he, hp, hlongest⟩ := h.best
  obtain ⟨q, hq, hfrom⟩ := h.edge e (Node.mem_inbound_of_bestEdge? he)
  obtain rfl := Option.some.inj (hp.symm.trans hq)
  exact ⟨e, p, he, hp, hlongest, hfrom⟩

/-- **The best edge of a node that is not merged prolongs a trail.** -/
theorem traced (h : n.Joined r i parents) (hm : n.merged = false) (he : n.bestEdge? = some e)
    (hp : parents[e.source]? = some p) {ds : Path} (htrace : r.Traced i ds p.state p.longest) :
    r.Traced (i + 1) (e.decision :: ds) n.state n.longest := by
  obtain ⟨e', p', he', hp', hlongest, hfrom⟩ := h.from_best
  obtain rfl := Option.some.inj (he.symm.trans he')
  obtain rfl := Option.some.inj (hp.symm.trans hp')
  obtain ⟨hstate, hcost⟩ := hfrom.original hm
  rw [hlongest, hstate, hcost]
  exact htrace.step hfrom.branches

/-- An exact node is reached by the trail that climbing reads off. -/
theorem traced_of_exact (h : n.Joined r i parents) (hex : n.exact = true)
    (htrace : ∀ (j : Nat) p, parents[j]? = some p → p.exact = true →
      r.Traced i (Diagram.climb above j) p.state p.longest) :
    r.Traced (i + 1) (Diagram.climbFrom above n) n.state n.longest := by
  have hm : n.merged = false := by
    cases hm : n.merged with
    | false => rfl
    | true => rw [h.merged hm] at hex; cases hex
  obtain ⟨e, p, he, hp, _, hfrom⟩ := h.from_best
  have hclimb : Diagram.climbFrom above n = e.decision :: Diagram.climb above e.source := by
    rw [Diagram.climbFrom, he]
  rw [hclimb]
  exact h.traced hm he hp (htrace e.source p hp (hfrom.exact hex))

/-- **Climbing meets each variable that was branched on, once.** -/
theorem freeAfter_climbFrom (hfocus : r.model.problem.Focused) (h : n.Joined r i parents)
    {path : Path} (hfree : ∀ (j : Nat) p, parents[j]? = some p →
      Subproblem.freeAfter r.model.problem.variables (path ++ Diagram.climb above j) = r.freeAt i) :
    Subproblem.freeAfter r.model.problem.variables (path ++ Diagram.climbFrom above n) =
      r.freeAt (i + 1) := by
  obtain ⟨e, p, he, hp, _, hfrom⟩ := h.from_best
  obtain ⟨x, hx, hd⟩ := hfrom.branches
  have hclimb : Diagram.climbFrom above n = e.decision :: Diagram.climb above e.source := by
    rw [Diagram.climbFrom, he]
  rw [hclimb, Subproblem.freeAfter_append_cons, hfree e.source p hp, hfocus _ _ _ hd,
    Request.freeAt_succ hx]

end Node.Joined
end DiagramSearch
