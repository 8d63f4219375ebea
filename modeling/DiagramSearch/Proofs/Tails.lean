/-
# Tails

The tail of a node is the length of the longest path from it to the deepest
layer.

* `Tailed`: a node of the deepest layer that is alive has the tail nought, and
  no edge promises more than the tail of the node it starts from;
* `markBounds_within`: as long as nothing is merged, no tail exceeds the optimum
  of its state, so a sound model is never found to be inadmissible.
-/

import DiagramSearch.Proofs.Growing
import DiagramSearch.Proofs.Spreading
import DiagramSearch.Diagram.Summary

namespace DiagramSearch

open Extended Diagram

variable {σ κ V : Type}

/-- A node without its tail. -/
def Node.untailed (n : Node σ V) : Node σ V := { n with tail := none }

/-- A node tells the starts of its edges how far it leads. -/
def tailMessage : Message σ := fun n =>
  n.tail.map fun value e p =>
    { p with tail := some (max (p.tail.getD Value.negInf) (value + e.cost)) }

theorem liftBound_eq_spread : (liftBound : Layer σ Extended → Node σ Extended → Layer σ Extended) =
    Layer.spread tailMessage := by
  funext parents n
  unfold liftBound Layer.spread tailMessage
  cases n.tail <;> rfl

/-- Longest paths to the deepest layer, as far as they are known. -/
structure Tailed (layers : List (Layer σ Extended)) : Prop where
  last : ∀ i layer, level layers i = some layer → i + 1 = layers.length →
    ∀ n ∈ layer, n.isAlive = true → n.tail = some 0
  lift : ∀ i parents layer, level layers i = some parents → level layers (i + 1) = some layer →
    ∀ n ∈ layer, ∀ t, n.tail = some t → ∀ e ∈ n.inbound, ∀ p, parents[e.source]? = some p →
      ∃ w, p.tail = some w ∧ t + e.cost ≤ w

theorem liftBounds_eq_cons (layer : Layer σ Extended) (above : List (Layer σ Extended)) :
    ∃ rest, liftBounds layer above = layer :: rest ∧ rest.length = above.length := by
  induction above generalizing layer with
  | nil => exact ⟨[], rfl, rfl⟩
  | cons parents above ih =>
    obtain ⟨rest, hrest, hlen⟩ := ih (layer.foldl liftBound parents)
    refine ⟨_, rfl, ?_⟩
    rw [hrest, List.length_cons, List.length_cons, hlen]

theorem untailed_liftBound [Value V] (parents : Layer σ V) (n : Node σ V) :
    (liftBound parents n).map Node.untailed = parents.map Node.untailed := by
  unfold liftBound
  split
  · rfl
  · refine List.foldlRecOn n.inbound _
      (motive := fun l : Layer σ V => l.map Node.untailed = parents.map Node.untailed) rfl ?_
    refine fun l hl e _ => Eq.trans ?_ hl
    refine Layer.map_modify_eq ?_ l e.source
    exact fun _ => rfl

theorem untailed_spread [Value V] (layer parents : Layer σ V) :
    (layer.foldl liftBound parents).map Node.untailed = parents.map Node.untailed := by
  rw [← Array.foldl_toList]
  refine List.foldlRecOn layer.toList _
    (motive := fun l : Layer σ V => l.map Node.untailed = parents.map Node.untailed) rfl ?_
  exact fun l hl n _ => (untailed_liftBound l n).trans hl

/-- Lifting bounds changes tails only. -/
theorem untailed_liftBounds [Value V] (layer : Layer σ V) (above : List (Layer σ V)) :
    (liftBounds layer above).map (·.map Node.untailed) =
      (layer :: above).map (·.map Node.untailed) := by
  induction above generalizing layer with
  | nil => rfl
  | cons parents above ih =>
    rw [liftBounds, List.map_cons, ih, List.map_cons, List.map_cons, List.map_cons,
      untailed_spread]

/-- **No edge promises more than the tail of the node it starts from.** -/
theorem liftBounds_lift (layer : Layer σ Extended) (above : List (Layer σ Extended)) (i : Nat)
    (parents' layer' : Layer σ Extended) (hp : level (liftBounds layer above) i = some parents')
    (hl : level (liftBounds layer above) (i + 1) = some layer') :
    ∀ n ∈ layer', ∀ t, n.tail = some t → ∀ e ∈ n.inbound, ∀ p, parents'[e.source]? = some p →
      ∃ w, p.tail = some w ∧ t + e.cost ≤ w := by
  induction above generalizing layer with
  | nil => simp [liftBounds, level] at hl
  | cons parents above ih =>
    rw [liftBounds] at hp hl
    obtain ⟨rest, hrest, hlen⟩ := liftBounds_eq_cons (layer.foldl liftBound parents) above
    have hlt := lt_of_level hl
    rw [List.length_cons] at hlt
    rw [level_cons, if_neg (by omega)] at hp
    rw [level_cons] at hl
    split at hl
    · rename_i hi
      obtain rfl := Option.some.inj hl
      rw [hrest, List.length_cons] at hi
      rw [hrest, level_cons, if_pos (by omega)] at hp
      obtain rfl := Option.some.inj hp
      intro n hn t ht e he p hp
      rw [liftBound_eq_spread] at hp
      refine Layer.spread_progress (J := fun p => ∃ w, p.tail = some w ∧ t + e.cost ≤ w) hn
        (congrArg (Option.map _) ht) he (fun p => ⟨_, rfl, le_max_right _ _⟩) ?_ hp
      rintro m _ act hact f _ _ q ⟨w, hw, hle⟩
      obtain ⟨t', _, rfl⟩ := Option.map_eq_some_iff.1 hact
      refine ⟨_, rfl, hle.trans ?_⟩
      rw [hw]
      exact le_max_left _ _
    · exact ih _ hp hl

theorem markBounds_eq (d : Diagram σ Extended) :
    ∃ layers, d.markBounds = { d with layers } ∧ Tailed layers ∧
      layers.map (·.map Node.untailed) = d.layers.map (·.map Node.untailed) := by
  unfold markBounds
  cases hd : d.layers with
  | nil =>
    refine ⟨[], by simp [← hd], ⟨fun i layer hl => ?_, fun i parents layer hl => ?_⟩, rfl⟩
    · simp [level] at hl
    · simp [level] at hl
  | cons last above =>
    refine ⟨_, rfl, ⟨fun i layer hl hi => ?_, liftBounds_lift _ _⟩, ?_⟩
    · obtain ⟨rest, hrest, hlen⟩ := liftBounds_eq_cons (last.map fun n =>
        if n.isAlive then { n with tail := some 0 } else n) above
      rw [hrest] at hl hi
      rw [List.length_cons] at hi
      rw [level_cons, if_pos (by omega)] at hl
      obtain rfl := Option.some.inj hl
      intro n hn halive
      obtain ⟨m, _, rfl⟩ := Array.mem_map.1 hn
      split at halive
      · rename_i hm
        rw [if_pos hm]
      · rename_i hm
        exact absurd halive hm
    · rw [untailed_liftBounds, List.map_cons, List.map_cons, Array.map_map]
      congr 1
      refine Array.map_congr_left fun n _ => ?_
      simp only [Function.comp_apply]
      split <;> rfl

theorem tailed_markBounds (d : Diagram σ Extended) : Tailed d.markBounds.layers := by
  obtain ⟨layers, heq, htailed, _⟩ := markBounds_eq d
  rwa [heq]

theorem untailed_markBounds (d : Diagram σ Extended) :
    d.markBounds.layers.map (·.map Node.untailed) = d.layers.map (·.map Node.untailed) := by
  obtain ⟨layers, heq, _, hsame⟩ := markBounds_eq d
  rwa [heq]

/-! ### Tails without merges -/

section Optimum

variable [BEq σ] {r : Request σ κ Extended} {cache : Cache σ Extended}
  {events : List (Event σ Extended)}

/-- The tails of a layer are at most the optima of its states. -/
def TailsWithin (r : Request σ κ Extended) (i : Nat) (layer : Layer σ Extended) : Prop :=
  ∀ (j : Nat) n, layer[j]? = some n → ∀ w, n.tail = some w → w ≤ r.optimumAt i n.state

omit [BEq σ] in
/-- One layer hands its bound on to the layer above. -/
theorem TailsWithin.foldl {i : Nat} {parents layer : Layer σ Extended}
    (h : TailsWithin r (i + 1) layer) (hlinked : Linked r i parents layer)
    (hmerged : ∀ n ∈ layer, n.merged = false) (hparents : TailsWithin r i parents) :
    TailsWithin r i (layer.foldl liftBound parents) := by
  rw [liftBound_eq_spread]
  -- The state of a node stays what it was, so the optimum does.
  refine fun j p hp => (Layer.spread_invariant (I := fun j p =>
    (∃ p₀, parents[j]? = some p₀ ∧ p.state = p₀.state) ∧
      ∀ w, p.tail = some w → w ≤ r.optimumAt i p.state) ?_ ?_ j p hp).2
  · rintro n hn act hact e he p ⟨⟨p₀, hp₀, hstate⟩, hp⟩
    obtain ⟨t, ht, rfl⟩ := Option.map_eq_some_iff.1 hact
    refine ⟨⟨p₀, hp₀, hstate⟩, fun w hw => ?_⟩
    obtain rfl := Option.some.inj hw
    refine max_le ?_ ?_
    · cases hpt : p.tail with
      | none => exact negInf_le _
      | some v => exact hp v hpt
    · obtain ⟨k, hk⟩ := Array.mem_iff_getElem?.1 hn
      obtain ⟨q, hq, hfrom⟩ := (hlinked.joined n hn).edge e he
      obtain rfl := Option.some.inj (hp₀.symm.trans hq)
      obtain ⟨hnstate, hcost⟩ := hfrom.original (hmerged n hn)
      calc t + e.cost ≤ r.optimumAt (i + 1) n.state + e.cost :=
            add_le_add_left (h k n hk t ht) _
        _ = r.model.problem.cost p₀.state e.decision + r.optimumAt (i + 1)
              (r.model.problem.transition 0 p₀.state e.decision) := by
            rw [hnstate, hcost, add_comm]
        _ ≤ r.optimumAt i p₀.state := hfrom.branches.le_optimumAt
        _ = r.optimumAt i p.state := by rw [hstate]
  · intro j p hp
    exact ⟨⟨p, hp, rfl⟩, hparents j p hp⟩

omit [BEq σ] in
theorem core_foldl_liftBound (layer parents : Layer σ Extended) :
    (layer.foldl liftBound parents).map Node.core = parents.map Node.core := by
  have h := congrArg (Array.map Node.core) (untailed_spread layer parents)
  rw [Array.map_map, Array.map_map] at h
  exact h

/-- **Without merges no tail exceeds the optimum.** -/
theorem liftBounds_within {layer : Layer σ Extended} {above : List (Layer σ Extended)}
    (hw : Woven r cache events (layer :: above))
    (hmerged : ∀ i l, level (layer :: above) i = some l → ∀ n ∈ l, n.merged = false)
    (hlayer : TailsWithin r above.length layer)
    (habove : ∀ i l, level above i = some l → TailsWithin r i l) (i : Nat) (l : Layer σ Extended)
    (hl : level (liftBounds layer above) i = some l) : TailsWithin r i l := by
  induction above generalizing layer with
  | nil =>
    have hi : i = 0 := by simpa [liftBounds] using lt_of_level hl
    subst hi
    obtain rfl := Option.some.inj hl
    exact hlayer
  | cons parents above ih =>
    have htop := level_length parents above
    have hlinked : Linked r above.length parents layer :=
      hw.linked _ _ _ (level_cons_of_some htop) (level_length layer (parents :: above))
    have hfold := hlayer.foldl hlinked (hmerged _ layer (level_length layer (parents :: above)))
      (habove _ _ htop)
    have hcore := core_foldl_liftBound layer parents
    rw [liftBounds, level_cons] at hl
    split at hl
    · rename_i hi
      obtain ⟨rest, hrest, hlen⟩ := liftBounds_eq_cons (layer.foldl liftBound parents) above
      rw [hrest, List.length_cons, hlen] at hi
      subst hi
      obtain rfl := Option.some.inj hl
      exact hlayer
    · refine ih (hw.of_cons.congr (by rw [List.map_cons, List.map_cons, hcore])) ?_ hfold ?_ hl
      · intro k m hm n hn
        rw [level_cons] at hm
        split at hm
        · obtain rfl := Option.some.inj hm
          obtain ⟨j, hj⟩ := Array.mem_iff_getElem?.1 hn
          obtain ⟨n', hn', hnode⟩ := Layer.getElem?_of_map_eq hcore hj
          rw [Node.merged_eq (Node.stem_eq_of_core_eq hnode)]
          exact hmerged _ _ (level_cons_of_some htop) n' (Array.mem_of_getElem? hn')
        · exact hmerged k m (level_cons_of_some (level_cons_of_some hm)) n hn
      · exact fun k m hm => habove k m (level_cons_of_some hm)

/-- Nor do the tails of a whole diagram in which nothing was merged. -/
theorem markBounds_within {d : Diagram σ Extended} (hg : Grown r cache events d) (hend : Ended r d)
    (hmerged : ∀ i l, level d.layers i = some l → ∀ n ∈ l, n.merged = false) (i : Nat)
    (l : Layer σ Extended) (hl : level d.markBounds.layers i = some l) : TailsWithin r i l := by
  unfold markBounds at hl
  cases hd : d.layers with
  | nil => simp [hd, level] at hl
  | cons last above =>
    rw [hd] at hl
    have htop : level d.layers above.length = some last := by rw [hd]; exact level_length last above
    have hcore : last.map Node.core = (last.map fun n : Node σ Extended =>
        if n.isAlive then { n with tail := some 0 } else n).map Node.core := by
      rw [Array.map_map]
      refine Array.map_congr_left fun n _ => ?_
      simp only [Function.comp_apply]
      split <;> rfl
    refine liftBounds_within (hg.woven.congr (by rw [hd, List.map_cons, List.map_cons, hcore]))
      (fun k m hm n hn => ?_) (fun j n hn w hw => ?_) (fun k m hm j n hn w hw => ?_) i l hl
    · rw [level_cons] at hm
      split at hm
      · rename_i hk
        obtain rfl := Option.some.inj hm
        obtain ⟨j, hj⟩ := Array.mem_iff_getElem?.1 hn
        obtain ⟨n', hn', hnode⟩ := Layer.getElem?_of_map_eq hcore.symm hj
        rw [Node.merged_eq (Node.stem_eq_of_core_eq hnode)]
        exact hmerged _ last htop n' (Array.mem_of_getElem? hn')
      · exact hmerged k m (by rw [hd]; exact level_cons_of_some hm) n hn
    · rw [Array.getElem?_map] at hn
      obtain ⟨n', hn', rfl⟩ := Option.map_eq_some_iff.1 hn
      have hmem := Array.mem_of_getElem? hn'
      split at hw
      · -- An alive node of the deepest layer has nothing left to decide.
        rename_i halive
        obtain rfl := Option.some.inj hw
        rcases hend _ last htop (by rw [hd, List.length_cons]) with hnone | hdead
        · rw [Request.optimumAt_of_none hnone]
        · rw [hdead n' hmem] at halive
          cases halive
      · rw [(hg.blank _ last htop n' hmem).tail] at hw
        cases hw
    · have hm' : level d.layers k = some m := by rw [hd]; exact level_cons_of_some hm
      rw [(hg.blank k m hm' n (Array.mem_of_getElem? hn)).tail] at hw
      cases hw

omit [BEq σ] in
/-- No bound is found to be inadmissible if and only if no tail surpasses one. -/
theorem inadmissible?_eq_none_iff {d : Diagram σ Extended} : d.inadmissible? = none ↔
    ∀ l ∈ d.layers, ∀ n ∈ l, n.isAlive = true → ∀ w, n.tail = some w →
      Value.surpasses w n.roughBound = false := by
  unfold inadmissible?
  rw [List.findSome?_eq_none_iff]
  constructor
  · intro h l hl n hn halive w hw
    have hnode := List.findSome?_eq_none_iff.1 (h l (List.mem_reverse.2 hl)) n
      (Array.mem_toList_iff.2 hn)
    simpa [hw, halive] using hnode
  · intro h l hl
    rw [List.findSome?_eq_none_iff]
    intro n hn
    split
    · rename_i w hw
      refine if_neg fun hbad => ?_
      rw [Bool.and_eq_true] at hbad
      rw [h l (List.mem_reverse.1 hl) n (Array.mem_toList_iff.1 hn) hbad.1 w hw] at hbad
      exact absurd hbad.2 Bool.false_ne_true
    · rfl

omit [BEq σ] in
/-- Tails within the bounds are never found to be inadmissible. -/
theorem inadmissible?_eq_none {d : Diagram σ Extended}
    (h : ∀ l ∈ d.layers, ∀ n ∈ l, n.isAlive = true → ∀ w, n.tail = some w → w ≤ n.roughBound) :
    d.inadmissible? = none :=
  inadmissible?_eq_none_iff.2 fun l hl n hn halive w hw =>
    not_surpasses (h l hl n hn halive w hw)

omit [BEq σ] in
/-- What is found to be inadmissible is the bound of a node that its tail surpasses. -/
theorem exists_of_inadmissible? {d : Diagram σ Extended} {fault : Fault σ Extended}
    (h : d.inadmissible? = some fault) : ∃ i layer, level d.layers i = some layer ∧
      ∃ n ∈ layer, n.isAlive = true ∧ ∃ w, n.tail = some w ∧
        Value.surpasses w n.roughBound = true ∧
        fault = .inadmissible n.state n.depth n.roughBound w := by
  obtain ⟨layer, hlayer, hfault⟩ := List.exists_of_findSome?_eq_some h
  obtain ⟨n, hn, hnode⟩ := List.exists_of_findSome?_eq_some hfault
  obtain ⟨i, hi⟩ := List.mem_iff_getElem?.1 hlayer
  refine ⟨i, layer, hi, n, Array.mem_toList_iff.1 hn, ?_⟩
  split at hnode
  · rename_i w hw
    split at hnode
    · rename_i hbad
      rw [Bool.and_eq_true] at hbad
      exact ⟨hbad.1, w, hw, hbad.2, (Option.some.inj hnode).symm⟩
    · cases hnode
  · cases hnode

end Optimum
end DiagramSearch
