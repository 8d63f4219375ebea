/-
# A cluster around the worst node

A reduction by distance sorts twice: all nodes by their cost, and then all of them but the
worst one by how far they are from it.  The first sort may be any that puts the layer in
order, since only one order of the layer is; the second one has to be stable, and leaves the
worst node where it is.

* `Candidate.Total`: a layer that values and ranking order totally;
* `Reduction.sortByCost_ordered`, `Candidate.Total.eq_sortByCost`: the best nodes first, in
  the only order there is;
* `Reduction.spread_concat`: what the second sort makes of a layer;
* `Reduction.byDistance_gathers`: **the nodes that are reduced are the worst one and those
  closest to it.**
-/

import DiagramSearch.Proofs.ExactValues
import DiagramSearch.Reduction
import DiagramSearch.Value.Binary64

namespace DiagramSearch

variable {σ V : Type} [Value V] {ranking : σ → σ → Ordering} {layer : List (Candidate σ V)}

/-- Floats are ordered by their ranks, whatever they are. -/
instance Binary64.transCmp_order : Std.TransCmp (Value.order (V := Float)) where
  eq_swap {a b} := Std.OrientedOrd.eq_swap (a := rank a) (b := rank b)
  isLE_trans {a b c} h h' :=
    Std.TransOrd.isLE_trans (a := rank a) (b := rank b) (c := rank c) h h'

/-- A layer whose nodes are ordered totally by value, and then by the ranking of states. -/
structure Candidate.Total (ranking : σ → σ → Ordering) (layer : List (Candidate σ V)) :
    Prop where
  total : ∀ a ∈ layer, ∀ b ∈ layer, a.better ranking b = true ∨ b.better ranking a = true
  trans : ∀ a ∈ layer, ∀ b ∈ layer, ∀ c ∈ layer, a.better ranking b = true →
    b.better ranking c = true → a.better ranking c = true
  antisymm : ∀ a ∈ layer, ∀ b ∈ layer, a.better ranking b = true →
    b.better ranking a = true → a = b

/-- Of two nodes of a layer the one that is as good is better, or they are the same. -/
theorem Candidate.Total.eq_or_worse (h : Candidate.Total ranking layer) {a b : Candidate σ V}
    (ha : a ∈ layer) (hb : b ∈ layer) (hab : a.better ranking b = true) :
    a = b ∨ b.better ranking a = false := by
  cases hba : b.better ranking a with
  | true => exact .inl (h.antisymm a ha b hb hab hba)
  | false => exact .inr rfl

namespace Reduction

theorem sortByCost_perm (ranking : σ → σ → Ordering) (layer : List (Candidate σ V)) :
    (sortByCost ranking layer).Perm layer :=
  Ordered.sort_perm _ layer

/-- **The best nodes come first.** -/
theorem sortByCost_ordered (h : Candidate.Total ranking layer) :
    (sortByCost ranking layer).Pairwise fun a b => a.better ranking b = true :=
  Ordered.sort_ordered_of_mem h.trans h.total

end Reduction

/-- **There is one such order**, so any way to sort the layer finds it. -/
theorem Candidate.Total.eq_sortByCost (h : Candidate.Total ranking layer)
    {sorted : List (Candidate σ V)} (hperm : sorted.Perm layer)
    (hsorted : sorted.Pairwise fun a b => a.better ranking b = true) :
    sorted = Reduction.sortByCost ranking layer := by
  have hcost := Reduction.sortByCost_perm ranking layer
  refine List.Perm.eq_of_pairwise (fun a b ha hb => ?_) hsorted (Reduction.sortByCost_ordered h)
    (hperm.trans hcost.symm)
  exact h.antisymm a (hperm.mem_iff.1 ha) b (hcost.mem_iff.1 hb)

namespace Reduction

/-! ### The second sort -/

section Spread

variable (distance : σ → σ → V)

/-- Whether a node is at least as far from the worst one as another node is. -/
def farther (worst a b : Candidate σ V) : Bool :=
  Value.order (distance b.state worst.state) (distance a.state worst.state) != .gt

/-- All but the last node are sorted anew. -/
theorem spread_concat (front : List (Candidate σ V)) (worst : Candidate σ V) :
    spread distance (front ++ [worst]) =
      Ordered.sort (farther distance worst) front ++ [worst] := by
  unfold spread
  rw [List.getLast?_concat, List.dropLast_concat]
  rfl

variable [Std.TransCmp (Value.order (V := V))] {front : List (Candidate σ V)}
  {worst : Candidate σ V}

/-- **The farthest nodes come first.** -/
theorem spread_farthest (front : List (Candidate σ V)) (worst : Candidate σ V) :
    (Ordered.sort (farther distance worst) front).Pairwise fun a b =>
      farther distance worst a b = true := by
  have hdistance : Std.TransCmp fun a b : Candidate σ V =>
      Value.order (distance b.state worst.state) (distance a.state worst.state) :=
    { eq_swap := Std.OrientedCmp.eq_swap
      isLE_trans := fun h h' => Std.TransCmp.isLE_trans h' h }
  refine Ordered.sort_ordered_of_isLE (fun a b =>
    Value.order (distance b.state worst.state) (distance a.state worst.state)) (fun a b => ?_) front
  rw [farther, bne_iff_ne]
  exact Ordering.ne_gt_iff_isLE

omit [Std.TransCmp (Value.order (V := V))] in
/-- **Nodes that are equally far stay in the order they had.** -/
theorem spread_stable (hfront : front.Pairwise fun a b => a.better ranking b = true) :
    (Ordered.sort (farther distance worst) front).Pairwise fun a b =>
      Value.order (distance a.state worst.state) (distance b.state worst.state) = .eq →
        a.better ranking b = true := by
  refine (Ordered.sort_stable hfront).imp fun hab heq => hab ?_
  rw [farther, heq]
  rfl

omit [Std.TransCmp (Value.order (V := V))] in
/-- The worst node comes after all others, wherever it stands by its distance. -/
theorem spread_concat_stable
    (hcost : (front ++ [worst]).Pairwise fun a b => a.better ranking b = true) :
    (Ordered.sort (farther distance worst) front ++ [worst]).Pairwise fun a b =>
      Value.order (distance a.state worst.state) (distance b.state worst.state) = .eq →
        a.better ranking b = true := by
  obtain ⟨hfront, -, hworst⟩ := List.pairwise_append.1 hcost
  refine List.pairwise_append.2 ⟨spread_stable distance hfront, List.pairwise_singleton _ _, ?_⟩
  intro c hc d hd _
  exact hworst c ((Ordered.sort_perm (farther distance worst) front).mem_iff.1 hc) d hd

end Spread

/-- A layer of which some nodes are to be reduced, once they are gathered around the worst
one. -/
structure Gathers (distance : σ → σ → V) (ranking : σ → σ → Ordering) (keep : Nat)
    (layer gathered : List (Candidate σ V)) (worst : Candidate σ V) : Prop where
  /-- The worst node comes last in both orders. -/
  last : gathered.getLast? = some worst ∧ (byCost.sort keep ranking layer).getLast? = some worst
  /-- All others are better. -/
  below : ∀ c ∈ layer, c = worst ∨ c.better ranking worst = true ∧ worst.better ranking c = false
  /-- What is kept is at least as far from it as what is reduced with it. -/
  far : ∀ (i j : Nat) (a b : Candidate σ V), i < keep → keep ≤ j → j + 1 < layer.length →
    gathered[i]? = some a → gathered[j]? = some b →
      (Value.order (distance b.state worst.state) (distance a.state worst.state)).isLE = true
  /-- Of two nodes that are equally far the better one comes first. -/
  tied : ∀ (i j : Nat) (a b : Candidate σ V), i < j →
    gathered[i]? = some a → gathered[j]? = some b →
      Value.order (distance a.state worst.state) (distance b.state worst.state) = .eq →
        a.better ranking b = true ∧ (a = b ∨ b.better ranking a = false)

omit [Value V] in
/-- What holds of all pairs of a list holds of what stands at two places. -/
theorem pairwise_getElem? {R : Candidate σ V → Candidate σ V → Prop} {i j : Nat}
    {a b : Candidate σ V} (h : layer.Pairwise R) (hij : i < j) (ha : layer[i]? = some a)
    (hb : layer[j]? = some b) : R a b := by
  obtain ⟨hi, rfl⟩ := List.getElem?_eq_some_iff.1 ha
  obtain ⟨hj, rfl⟩ := List.getElem?_eq_some_iff.1 hb
  exact List.pairwise_iff_getElem.1 h i j hi hj hij

/-- Two sorts, of which the second leaves the worst node alone. -/
theorem gathers_spread [Std.TransCmp (Value.order (V := V))] (distance : σ → σ → V) (keep : Nat)
    (h : Candidate.Total ranking layer) {front : List (Candidate σ V)} {worst : Candidate σ V}
    (hsplit : sortByCost ranking layer = front ++ [worst]) :
    Gathers distance ranking keep layer (spread distance (sortByCost ranking layer)) worst := by
  have hperm := sortByCost_perm ranking layer
  have hcost := sortByCost_ordered h
  rw [hsplit] at hperm hcost
  obtain ⟨-, -, hworst⟩ := List.pairwise_append.1 hcost
  have hsorted := Ordered.sort_perm (farther distance worst) front
  have hgathered : (Ordered.sort (farther distance worst) front ++ [worst]).Perm layer :=
    (hsorted.append_right [worst]).trans hperm
  have hlength := hgathered.length_eq
  rw [List.length_append, List.length_singleton] at hlength
  rw [hsplit, spread_concat]
  refine ⟨⟨List.getLast?_concat, ?_⟩, fun c hc => ?_, ?_, ?_⟩
  · show (sortByCost ranking layer).getLast? = _
    rw [hsplit, List.getLast?_concat]
  · rcases List.mem_append.1 (hperm.mem_iff.2 hc) with hfront | hlast
    · have hbetter := hworst c hfront worst List.mem_cons_self
      exact (h.eq_or_worse hc (hperm.mem_iff.1 (List.mem_append_right front List.mem_cons_self))
        hbetter).imp_right fun hnot => ⟨hbetter, hnot⟩
    · exact .inl (List.mem_singleton.1 hlast)
  · intro i j a b hi hj hlast ha hb
    rw [List.getElem?_append_left (by omega)] at ha hb
    have hfarther := pairwise_getElem? (spread_farthest distance front worst)
      (Nat.lt_of_lt_of_le hi hj) ha hb
    rw [farther, bne_iff_ne] at hfarther
    exact Ordering.ne_gt_iff_isLE.1 hfarther
  · intro i j a b hij ha hb heq
    have hab := pairwise_getElem? (spread_concat_stable distance hcost) hij ha hb heq
    exact ⟨hab, h.eq_or_worse (hgathered.mem_iff.1 (List.mem_of_getElem? ha))
      (hgathered.mem_iff.1 (List.mem_of_getElem? hb)) hab⟩

/-- **A reduction by distance keeps the far nodes and gathers those around the worst one.**
No node is lost.  If some are to be reduced, the last one is the worst of the layer, those
that are kept are at least as far from it as the others, and of equally far nodes the better
ones come first.  If all are kept they are in the order of their cost, and there is no other
order in which the better ones come first. -/
theorem byDistance_gathers [Std.TransCmp (Value.order (V := V))] (distance : σ → σ → V)
    (keep : Nat) (h : Candidate.Total ranking layer) :
    ((byDistance distance).sort keep ranking layer).Perm layer ∧
    (keep < layer.length → ∃ worst,
      Gathers distance ranking keep layer ((byDistance distance).sort keep ranking layer) worst) ∧
    (layer.length ≤ keep →
      (byDistance distance).sort keep ranking layer = byCost.sort keep ranking layer) ∧
    (byCost.sort keep ranking layer).Perm layer ∧
    ∀ sorted : List (Candidate σ V), sorted.Perm layer →
      (sorted.Pairwise fun a b => a.better ranking b = true) →
        sorted = byCost.sort keep ranking layer := by
  refine ⟨(byDistance distance).perm keep ranking layer, fun hkeep => ?_, fun hkeep => ?_,
    byCost.perm keep ranking layer, fun sorted hperm hsorted => h.eq_sortByCost hperm hsorted⟩
  · have hne : sortByCost ranking layer ≠ [] := by
      refine List.ne_nil_of_length_pos ?_
      rw [(sortByCost_perm ranking layer).length_eq]
      omega
    obtain ⟨front, worst, hsplit⟩ : ∃ front worst, sortByCost ranking layer = front ++ [worst] :=
      ⟨_, _, (List.dropLast_concat_getLast hne).symm⟩
    have hgathers := gathers_spread distance keep h hsplit
    refine ⟨worst, ?_⟩
    show Gathers _ _ _ _ (if layer.length ≤ keep then _ else _) _
    rwa [if_neg (Nat.not_le.2 hkeep)]
  · show (if layer.length ≤ keep then _ else _) = _
    rw [if_pos hkeep]
    rfl

/-- Five nodes, of which the one in state 10 is the worst. -/
def scattered : List (Candidate Nat Extended) :=
  [⟨0, 10, .finite 0⟩, ⟨1, 11, .finite 5⟩, ⟨2, 50, .finite 4⟩, ⟨3, 9, .finite 3⟩,
    ⟨4, 90, .finite 2⟩]

/-- How far two numbers are apart. -/
def apart (a b : Nat) : Extended := .finite ((a - b : Nat) + (b - a : Nat))

theorem scattered_total : Candidate.Total compare scattered where
  total := by decide +kernel
  trans := by decide +kernel
  antisymm := by
    have hsame : ∀ a ∈ scattered, ∀ b ∈ scattered, a.better compare b = true →
        b.better compare a = true →
          a.position = b.position ∧ a.state = b.state ∧ a.value = b.value := by
      decide +kernel
    rintro ⟨i, s, v⟩ ha ⟨j, t, w⟩ hb hab hba
    obtain ⟨rfl, rfl, rfl⟩ := hsame _ ha _ hb hab hba
    rfl

/-- Two of them are kept, and two that are equally far from the worst one are reduced. -/
theorem byDistance_gathers_scattered :
    (∃ worst, Gathers apart compare 2 scattered ((byDistance apart).sort 2 compare scattered)
      worst ∧ worst.state = 10) ∧
    ((byDistance apart).sort 2 compare scattered).map (·.state) = [90, 50, 11, 9, 10] ∧
    (byDistance apart).sort 5 compare scattered = byCost.sort 5 compare scattered := by
  obtain ⟨_, hgathers, _⟩ := byDistance_gathers apart 2 scattered_total
  obtain ⟨worst, hworst⟩ := hgathers (by decide)
  refine ⟨⟨worst, hworst, ?_⟩, by decide +kernel,
    (byDistance_gathers apart 5 scattered_total).2.2.1 (by decide)⟩
  have hlast : (((byDistance apart).sort 2 compare scattered).getLast?.map (·.state)) =
      some 10 := by
    decide +kernel
  rw [hworst.last.1] at hlast
  exact Option.some.inj hlast

end Reduction
end DiagramSearch
