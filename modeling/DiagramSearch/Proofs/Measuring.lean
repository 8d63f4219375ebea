/-
# Tails are the longest paths to the deepest layer

Tails are computed in one pass from the deepest layer upwards.  A node of that layer has the
tail nought if it is alive.  Any other node is offered, through each edge that leads from it
to a node with a tail, the length of the path that goes on there, and takes the greatest that
it is offered.  Nodes that were absorbed, dropped or ruled out keep their edges, but nothing
leads on from them, so they offer nothing.

* `getElem?_foldl_liftBound`: what a layer offers the one above, in one step;
* `Lifted`, `Diagram.markBounds_lifted`: **how each tail is computed** from the layer below;
* `Measured`, `Lifted.measured`: a node has a tail if and only if edges lead from it to the
  deepest layer, and it is the length of the longest such path;
* `Rounds.hung`: each layer hangs below the one above it, whatever the model;
* `Spans`, `Lifted.spans`: in exact arithmetic no path through a node is longer than the best
  one, and those through the nodes of the best path are as long;
* `Request.compile_measures`: **what holds of a compiled diagram.**
-/

import DiagramSearch.Proofs.Arranging
import DiagramSearch.Proofs.Overlooking
import DiagramSearch.Proofs.Ranking

namespace DiagramSearch

open Diagram

variable {σ κ V : Type}

/-! ### The greatest of some values -/

/-- The greater of two values is one of them, in exact and in floating-point arithmetic, and as
soon as they are defined, neither of them is above it. -/
class Value.Peaked (V : Type) [Value V] : Prop extends Value.Floored V where
  max_cases (a b : V) : max a b = a ∨ max a b = b
  le_max_left {a b : V} : a ≤ a → b ≤ b → a ≤ max a b
  le_max_right {a b : V} : a ≤ a → b ≤ b → b ≤ max a b
  negInf_max {a : V} : a ≤ a → max Value.negInf a = a

instance : Value.Peaked Extended where
  max_cases := max_choice
  le_max_left _ _ := le_max_left _ _
  le_max_right _ _ := le_max_right _ _
  negInf_max {a} _ := max_eq_right (Extended.negInf_le a)

section Farther

variable [Value V]

/-- The length of a path that is known, if there is one, or that of another one, if it is
longer. -/
def farther (known : Option V) (v : V) : Option V :=
  some (max (known.getD Value.negInf) v)

theorem foldl_farther_isSome (vs : List V) : (vs.foldl farther none).isSome = true ↔ vs ≠ [] := by
  induction vs using List.reverseRecOn with
  | nil => simp
  | append_singleton vs v _ => simp [List.foldl_append, farther]

/-- **The greatest of some values** that are defined is one of them. -/
theorem foldl_farther [Value.Peaked V] {vs : List V} {w : V} (hdef : ∀ v ∈ vs, v ≤ v)
    (h : vs.foldl farther none = some w) : w ∈ vs ∧ ∀ v ∈ vs, v ≤ w := by
  induction vs using List.reverseRecOn generalizing w with
  | nil => cases h
  | append_singleton vs v ih =>
    rw [List.foldl_append] at h
    have hw : max ((vs.foldl farther none).getD Value.negInf) v = w := Option.some.inj h
    have hv : v ≤ v := hdef v (List.mem_append_right vs List.mem_cons_self)
    cases hknown : vs.foldl farther none with
    | none =>
      have hnil : vs = [] := by
        refine Classical.byContradiction fun hne => ?_
        have hsome := (foldl_farther_isSome vs).2 hne
        rw [hknown] at hsome
        cases hsome
      rw [hknown, Option.getD_none, Value.Peaked.negInf_max hv] at hw
      subst hw hnil
      simp [hv]
    | some u =>
      obtain ⟨hu, hall⟩ := ih (fun v hv => hdef v (List.mem_append_left _ hv)) hknown
      have hudef : u ≤ u := hdef u (List.mem_append_left _ hu)
      rw [hknown, Option.getD_some] at hw
      constructor
      · rcases Value.Peaked.max_cases u v with heq | heq
        · rw [← hw, heq]
          exact List.mem_append_left _ hu
        · rw [← hw, heq]
          exact List.mem_append_right _ List.mem_cons_self
      · intro v' hv'
        rw [← hw]
        rcases List.mem_append.1 hv' with hv' | hv'
        · exact Value.Ranked.le_trans (hall v' hv') (Value.Peaked.le_max_left hudef hv)
        · obtain rfl := List.mem_singleton.1 hv'
          exact Value.Peaked.le_max_right hudef hv

end Farther

/-! ### What a layer offers the one above -/

/-- What a node knows of where it comes from, what became of it, and how far it leads. -/
structure Beam (σ V : Type) extends Station σ V where
  tail : Option V

/-- Descent, fate and tail. -/
def Node.beam (n : Node σ V) : Beam σ V := ⟨n.station, n.tail⟩

/-- Layers as far as descent, fates and tails are concerned. -/
def beams (layers : List (Layer σ V)) : List (Array (Beam σ V)) :=
  layers.map (·.map Node.beam)

theorem beam_outlastsSweep : OutlastsSweep (Node.beam (σ := σ) (V := V)) where
  threshold _ _ := rfl
  borrowed _ _ := rfl

theorem stations_eq_of_beams (layers : List (Layer σ V)) :
    stations layers = (beams layers).map (·.map Beam.toStation) := by
  unfold stations beams
  rw [List.map_map]
  refine List.map_congr_left fun layer _ => ?_
  rw [Function.comp_apply, Array.map_map]
  rfl

section Offers

variable [Value V]

/-- The lengths of the paths that lead from a position of the layer above to a node, and on
from it. -/
def Beam.offers (n : Beam σ V) (j : Nat) : List V :=
  match n.tail with
  | none => []
  | some t => (n.inbound.filter (·.source == j)).map (t + ·.cost)

/-- The lengths of the paths that lead from a position of the layer above to any node of a
layer. -/
def offers (layer : Array (Beam σ V)) (j : Nat) : List V :=
  layer.toList.flatMap (·.offers j)

/-- A path leads from a position of the layer above to a node of a layer, and on from it. -/
def Promises (layer : Array (Beam σ V)) (j : Nat) (v : V) : Prop :=
  ∃ n ∈ layer, ∃ t, n.tail = some t ∧ ∃ e ∈ n.inbound, e.source = j ∧ v = t + e.cost

theorem mem_offers {layer : Array (Beam σ V)} {j : Nat} {v : V} :
    v ∈ offers layer j ↔ Promises layer j v := by
  unfold offers Promises
  rw [List.mem_flatMap]
  refine exists_congr fun n => ?_
  rw [Array.mem_toList_iff]
  refine and_congr_right fun _ => ?_
  unfold Beam.offers
  cases n.tail with
  | none => simp
  | some t =>
    simp only [List.mem_map, List.mem_filter, beq_iff_eq, Option.some.injEq, exists_eq_left',
      and_assoc, eq_comm (a := v)]

/-- Edges that lead to a node with a tail tell it to where they start. -/
theorem getElem?_foldl_farther (t : V) (es : List (Edge V)) (parents : Layer σ V) (j : Nat) :
    (es.foldl (fun parents e => parents.modify e.source fun p =>
      { p with tail := some (max (p.tail.getD Value.negInf) (t + e.cost)) }) parents)[j]? =
      parents[j]?.map fun p => { p with
        tail := ((es.filter (·.source == j)).map (t + ·.cost)).foldl farther p.tail } := by
  induction es generalizing parents with
  | nil => exact (Option.map_id' ..).symm
  | cons e es ih =>
    rw [List.foldl_cons, ih, Array.getElem?_modify]
    simp only [List.filter_cons, beq_iff_eq]
    split
    · rw [Option.map_map]
      rfl
    · rfl

theorem getElem?_liftBound (parents : Layer σ V) (n : Node σ V) (j : Nat) :
    (liftBound parents n)[j]? = parents[j]?.map fun p =>
      { p with tail := (n.beam.offers j).foldl farther p.tail } := by
  unfold liftBound Beam.offers Node.beam
  cases n.tail with
  | none => exact (Option.map_id' ..).symm
  | some t => exact getElem?_foldl_farther t n.inbound parents j

/-- **A layer tells the one above what it offers it**, and nothing else. -/
theorem getElem?_foldl_liftBound (layer parents : Layer σ V) (j : Nat) :
    (layer.foldl liftBound parents)[j]? = parents[j]?.map fun p =>
      { p with tail := (offers (layer.map Node.beam) j).foldl farther p.tail } := by
  unfold offers
  rw [← Array.foldl_toList, Array.toList_map, List.flatMap_map]
  induction layer.toList generalizing parents with
  | nil => exact (Option.map_id' ..).symm
  | cons n ns ih =>
    rw [List.foldl_cons, ih, getElem?_liftBound, Option.map_map, List.flatMap_cons]
    refine congrArg (Option.map · _) (funext fun p => ?_)
    rw [List.foldl_append]
    rfl

end Offers

/-! ### From the deepest layer upwards -/

section Lift

variable [Value V]

/-- Layers, deepest first, with the tails that were computed one after the other. -/
structure Lifted (layers : List (Array (Beam σ V))) : Prop where
  last : ∀ layer, layers[0]? = some layer → ∀ n ∈ layer,
    n.tail = if n.fate = .alive then some 0 else none
  lift : ∀ (k : Nat) layer parents, layers[k]? = some layer → layers[k + 1]? = some parents →
    ∀ (j : Nat) p, parents[j]? = some p → p.tail = (offers layer j).foldl farther none

theorem getElem?_zero_liftBounds (layer : Layer σ V) (above : List (Layer σ V)) :
    (liftBounds layer above)[0]? = some layer := by
  cases above <;> rfl

/-- The pass through the layers above the deepest one. -/
theorem liftBounds_lifts (layer : Layer σ V) (above : List (Layer σ V))
    (hnone : ∀ parents ∈ above, ∀ p ∈ parents, p.tail = none) {k : Nat}
    {l parents : Array (Beam σ V)} (hl : (beams (liftBounds layer above))[k]? = some l)
    (hparents : (beams (liftBounds layer above))[k + 1]? = some parents) {j : Nat} {p : Beam σ V}
    (hp : parents[j]? = some p) : p.tail = (offers l j).foldl farther none := by
  induction above generalizing layer k with
  | nil => cases hparents
  | cons parents' above ih =>
    obtain ⟨hfirst, hrest⟩ := List.forall_mem_cons.1 hnone
    have hbelow : (beams (layer.foldl liftBound parents' :: above)).length = above.length + 1 := by
      simp [beams]
    cases k with
    | zero =>
      obtain rfl := Option.some.inj hl
      have hhead : (beams (liftBounds (layer.foldl liftBound parents') above))[0]? =
          some ((layer.foldl liftBound parents').map Node.beam) := by
        rw [beams, List.getElem?_map, getElem?_zero_liftBounds]
        rfl
      obtain rfl := Option.some.inj (hparents.symm.trans hhead)
      rw [Array.getElem?_map, getElem?_foldl_liftBound, Option.map_map] at hp
      obtain ⟨q, hq, rfl⟩ := Option.map_eq_some_iff.1 hp
      show (offers _ j).foldl farther q.tail = _
      rw [hfirst q (Array.mem_of_getElem? hq)]
    | succ k => exact ih _ hrest hl hparents

/-- **How the tails of a diagram are computed** that had none. -/
theorem Diagram.markBounds_lifted (d : Diagram σ V)
    (hnone : ∀ layer ∈ d.layers, ∀ n ∈ layer, n.tail = none) :
    Lifted (beams d.markBounds.layers) := by
  unfold markBounds
  cases hd : d.layers with
  | nil =>
    rw [hd]
    exact ⟨nofun, nofun⟩
  | cons last above =>
    rw [hd] at hnone
    obtain ⟨hlast, habove⟩ := List.forall_mem_cons.1 hnone
    refine ⟨fun layer hlayer n hn => ?_, fun k l parents hl hparents j p hp =>
      liftBounds_lifts _ _ habove hl hparents hp⟩
    rw [beams, List.getElem?_map, getElem?_zero_liftBounds] at hlayer
    obtain rfl := Option.some.inj hlayer
    obtain ⟨m', hm', rfl⟩ := Array.mem_map.1 hn
    obtain ⟨m, hm, rfl⟩ := Array.mem_map.1 hm'
    by_cases halive : m.fate = .alive
    · simp [Node.beam, Node.station, Node.isAlive, halive]
    · simp [Node.beam, Node.station, Node.isAlive, halive, hlast m hm]

end Lift

/-! ### Longest paths -/

/-- Edges lead from a node, given by its distance from the deepest layer and its position, to
a node of the deepest layer that is alive. -/
inductive LeadsOn (layers : List (Array (Beam σ V))) : Nat → Nat → Prop
  | last {layer : Array (Beam σ V)} {j : Nat} {n : Beam σ V} (hlayer : layers[0]? = some layer)
      (hn : layer[j]? = some n) (halive : n.fate = .alive) : LeadsOn layers 0 j
  | edge {k m : Nat} {layer : Array (Beam σ V)} {n : Beam σ V} {e : Edge V}
      (h : LeadsOn layers k m) (hlayer : layers[k]? = some layer) (hn : layer[m]? = some n)
      (he : e ∈ n.inbound) : LeadsOn layers (k + 1) e.source

section Measure

variable [Value V]

/-- Layers, deepest first, the tails of which are the lengths of the longest paths to the
deepest layer.  A node without a tail is not marked, and counts as infinitely far. -/
structure Measured (layers : List (Array (Beam σ V))) : Prop where
  marked_iff : ∀ (k j : Nat) layer n, layers[k]? = some layer → layer[j]? = some n →
    (n.tail.isSome = true ↔ LeadsOn layers k j)
  unmarked : ∀ (k j : Nat) layer n, layers[k]? = some layer → layer[j]? = some n →
    ¬LeadsOn layers k j → n.tail.getD Value.negInf = Value.negInf
  terminal : ∀ layer, layers[0]? = some layer → ∀ n ∈ layer, n.fate = .alive → n.tail = some 0
  /-- Above the deepest layer, a tail is the greatest of what the layer below promises. -/
  greatest : ∀ (k : Nat) layer parents, layers[k]? = some layer → layers[k + 1]? = some parents →
    ∀ (j : Nat) p w, parents[j]? = some p → p.tail = some w →
      (∀ v, Promises layer j v → v ≤ v) → Promises layer j w ∧ ∀ v, Promises layer j v → v ≤ w

variable {layers : List (Array (Beam σ V))}

/-- A node is offered something if and only if an edge leads from it to a node with a tail. -/
theorem offers_ne_nil {layer : Array (Beam σ V)} {j : Nat} : offers layer j ≠ [] ↔
    ∃ m : Nat, ∃ n, layer[m]? = some n ∧ n.tail.isSome = true ∧
      ∃ e ∈ n.inbound, e.source = j := by
  constructor
  · intro hne
    obtain ⟨v, hv⟩ := List.exists_mem_of_ne_nil _ hne
    obtain ⟨n, hn, t, ht, e, he, hj, _⟩ := mem_offers.1 hv
    obtain ⟨m, hm⟩ := Array.mem_iff_getElem?.1 hn
    exact ⟨m, n, hm, by rw [ht]; rfl, e, he, hj⟩
  · rintro ⟨m, n, hn, hsome, e, he, hj⟩
    obtain ⟨t, ht⟩ := Option.isSome_iff_exists.1 hsome
    exact List.ne_nil_of_mem (mem_offers.2
      ⟨n, Array.mem_of_getElem? hn, t, ht, e, he, hj, rfl⟩)

/-- **A node has a tail if and only if edges lead from it to the deepest layer.** -/
theorem Lifted.isSome_iff (h : Lifted layers) {k : Nat} {layer : Array (Beam σ V)}
    (hlayer : layers[k]? = some layer) {j : Nat} {n : Beam σ V} (hn : layer[j]? = some n) :
    n.tail.isSome = true ↔ LeadsOn layers k j := by
  induction k generalizing layer j n with
  | zero =>
    rw [h.last layer hlayer n (Array.mem_of_getElem? hn)]
    constructor
    · intro hsome
      refine .last hlayer hn (Classical.byContradiction fun hdead => ?_)
      rw [if_neg hdead] at hsome
      cases hsome
    · rintro (⟨hlayer', hn', halive⟩ | _)
      obtain rfl := Option.some.inj (hlayer.symm.trans hlayer')
      obtain rfl := Option.some.inj (hn.symm.trans hn')
      rw [if_pos halive]
      rfl
  | succ k ih =>
    have hlt := (List.getElem?_eq_some_iff.1 hlayer).1
    have hbelow : layers[k]? = some layers[k] := List.getElem?_eq_getElem (by omega)
    rw [h.lift k _ layer hbelow hlayer j n hn, foldl_farther_isSome, offers_ne_nil]
    constructor
    · rintro ⟨m, b, hb, hsome, e, he, rfl⟩
      exact .edge ((ih hbelow hb).1 hsome) hbelow hb he
    · intro hleads
      cases hleads with
      | @edge _ m below b e hleads hlayer' hb he =>
        refine ⟨m, b, ?_, (ih hlayer' hb).2 hleads, e, he, rfl⟩
        rwa [Option.some.inj (hbelow.symm.trans hlayer')]

/-- **Tails are the lengths of longest paths.** -/
theorem Lifted.measured [Value.Peaked V] (h : Lifted layers) : Measured layers where
  marked_iff _ _ _ _ hlayer hn := h.isSome_iff hlayer hn
  unmarked k j layer n hlayer hn hleads := by
    have hnone : n.tail = none := by
      cases htail : n.tail with
      | none => rfl
      | some t => exact absurd ((h.isSome_iff hlayer hn).1 (by rw [htail]; rfl)) hleads
    rw [hnone, Option.getD_none]
  terminal layer hlayer n hn halive := by
    rw [h.last layer hlayer n hn, if_pos halive]
  greatest k layer parents hlayer hparents j p w hp hw hdef := by
    rw [h.lift k layer parents hlayer hparents j p hp] at hw
    obtain ⟨hmem, hall⟩ := foldl_farther (fun v hv => hdef v (mem_offers.1 hv)) hw
    exact ⟨mem_offers.1 hmem, fun v hv => hall v (mem_offers.2 hv)⟩

end Measure

/-! ### Layers that hang below each other -/

section Hung

variable [Value V]

/-- Layers, deepest first, each of which hangs below the next one. -/
def Hung (layers : List (Array (Station σ V))) : Prop :=
  ∀ (k : Nat) layer parents, layers[k]? = some layer → layers[k + 1]? = some parents →
    Hanging parents (layer.map Station.toLineage)

/-- One more layer. -/
theorem Hung.cons {layer : Array (Station σ V)} {layers : List (Array (Station σ V))}
    (h : Hung layers) (hlayer : ∀ parents, layers[0]? = some parents →
      Hanging parents (layer.map Station.toLineage)) : Hung (layer :: layers) := by
  intro k l parents hl hparents
  cases k with
  | zero =>
    obtain rfl := Option.some.inj hl
    exact hlayer parents hparents
  | succ k => exact h k l parents hl hparents

variable [Value.Floored V] [BEq σ] [BEq κ] {audit : Audit σ κ V} {r : Request σ κ V}
  {start session : Session σ κ V} {free : Variables} {d : Diagram σ V}

/-- **Completing the pending layer** leaves it hanging where it hung. -/
theorem Hung.settle (h : Hung (stations d.layers))
    (hpending : ∀ parents, (stations d.layers)[0]? = some parents →
      Hanging parents (d.pending.map Node.lineage)) (session : Session σ κ V) :
    Hung (stations ((settleLayer audit r session d).layer :: d.layers)) := by
  refine h.cons fun parents hparents => ?_
  have hselected := selected r session d.layers.isEmpty d.pending
  have hhangs := hpending parents hparents
  rw [← select_lineage r session d.layers.isEmpty d.pending] at hhangs
  have hhead : (d.layers.headD #[]).map Node.station = parents := by
    cases hd : d.layers with
    | nil =>
      rw [hd] at hparents
      cases hparents
    | cons layer above =>
      rw [hd] at hparents
      exact Option.some.inj hparents
  rw [← hhead] at hhangs ⊢
  rw [Array.map_map]
  exact hhangs.fits hselected.lists (fit_fits audit r d.path d.layers hselected.lists)

variable [Hashable σ]

/-- **Each layer hangs below the one above it**, in every round, whatever the model. -/
theorem Rounds.hung (h : Rounds audit r start session free d) : Hung (stations d.layers) ∧
    ∀ parents, (stations d.layers)[0]? = some parents →
      Hanging parents (d.pending.map Node.lineage) := by
  induction h with
  | root => exact ⟨nofun, nofun⟩
  | @next session free d f v x h hf _ _ _ hx _ ih =>
    subst hf hx
    have hstations := (settleLayer audit r session d).station_expansion r free d.layers.length v
    constructor
    · show Hung (Array.map Node.station _ :: stations d.layers)
      rw [hstations]
      exact ih.1.settle ih.2 session
    · intro parents hparents
      obtain rfl := Option.some.inj hparents
      show Hanging (Array.map Node.station _) _
      rw [hstations]
      exact Fitted.hanging _ (fun j hj =>
        ((settleLayer_musters audit r session d).mem_iff j).1 hj) free _ v

end Hung

/-! ### Exact arithmetic -/

/-- A node on the path to the best node, which is at a position of the deepest layer. -/
inductive OnBest (layers : List (Array (Beam σ V))) (best : Option Nat) : Nat → Nat → Prop
  | last {j : Nat} (hbest : best = some j) : OnBest layers best 0 j
  | up {k m : Nat} {layer : Array (Beam σ V)} {n : Beam σ V} {e : Edge V}
      (h : OnBest layers best k m) (hlayer : layers[k]? = some layer) (hn : layer[m]? = some n)
      (he : n.edge = some e) (hk : k + 1 < layers.length) : OnBest layers best (k + 1) e.source

section Exact

variable [Value V]

/-- No path from the root through a node to the deepest layer is longer than the best one, and
through the nodes of the best path there is one that is as long. -/
structure Spans (d : Diagram σ V) : Prop where
  bounded : ∀ (k : Nat) layer, (beams d.layers)[k]? = some layer → ∀ n ∈ layer, ∀ t,
    n.tail = some t → ∃ v, d.bestValue = some v ∧ n.longest + t ≤ v
  attained : ∀ k j, OnBest (beams d.layers) d.best k j → ∃ layer n t,
    (beams d.layers)[k]? = some layer ∧ layer[j]? = some n ∧ n.tail = some t ∧
      d.bestValue = some (n.longest + t)

/-- A position of the best of the nodes of a layer that are alive, or none if there are no
such nodes. -/
def Crowns (layer : Array (Station σ V)) : Option Nat → Prop
  | none => ∀ n ∈ layer, n.fate ≠ .alive
  | some i => ∃ n, layer[i]? = some n ∧ n.fate = .alive ∧
    ∀ m ∈ layer, m.fate = .alive → m.longest ≤ n.longest

omit [Value V] in
/-- The best value is that of the best node. -/
theorem Diagram.bestValue_eq {d : Diagram σ V} {layer : Array (Station σ V)} {i : Nat}
    {n : Station σ V} (hlayer : (stations d.layers)[0]? = some layer) (hn : layer[i]? = some n)
    (hbest : d.best = some i) : d.bestValue = some n.longest := by
  unfold bestValue terminal?
  rw [hbest]
  cases hd : d.layers with
  | nil =>
    rw [hd] at hlayer
    cases hlayer
  | cons last above =>
    rw [hd] at hlayer
    obtain rfl := Option.some.inj hlayer
    obtain ⟨m, hm, rfl⟩ := Option.map_eq_some_iff.1 (Array.getElem?_map.symm.trans hn)
    show (last[i]?).map _ = _
    rw [hm]
    rfl

variable [Value.Exact V]

theorem best?_crowns (layer : Layer σ V) :
    Crowns (layer.map Node.station) (layer.best? fun n => n.isAlive) := by
  have h := best?_chooses layer fun n => n.isAlive
  have halive : ∀ n : Node σ V, n.isAlive = true ↔ n.station.fate = .alive := fun _ => beq_iff_eq
  cases hbest : layer.best? fun n => n.isAlive with
  | none =>
    rw [hbest] at h
    intro n hn hfate
    obtain ⟨m, hm, rfl⟩ := Array.mem_map.1 hn
    exact Bool.false_ne_true ((h m hm).symm.trans ((halive m).2 hfate))
  | some i =>
    rw [hbest] at h
    obtain ⟨n, hn, hfate, hle⟩ := h
    refine ⟨n.station, ?_, (halive n).1 hfate, fun z hz hzfate => ?_⟩
    · rw [Array.getElem?_map, hn, Option.map_some]
    · obtain ⟨m, hm, rfl⟩ := Array.mem_map.1 hz
      exact hle m hm ((halive m).2 hzfate)

theorem Value.Exact.add_le_add_right {a b : V} (h : a ≤ b) (c : V) : c + a ≤ c + b := by
  rw [add_comm c a, add_comm c b]
  exact add_le_add_left h c

variable {layers : List (Array (Beam σ V))}

/-- The values of a layer are the greatest that its edges lead to. -/
theorem Hung.tops (hhung : Hung (layers.map (·.map Beam.toStation))) {k : Nat}
    {layer parents : Array (Beam σ V)} (hlayer : layers[k]? = some layer)
    (hparents : layers[k + 1]? = some parents) {n : Beam σ V} (hn : n ∈ layer) :
    n.toLineage.Tops (parents.map Beam.toStation) := by
  have hhangs := hhung k (layer.map Beam.toStation) (parents.map Beam.toStation)
    (by rw [List.getElem?_map, hlayer]; rfl) (by rw [List.getElem?_map, hparents]; rfl)
    n.toLineage (Array.mem_map_of_mem (Array.mem_map_of_mem hn))
  exact hhangs.fed.tops hhangs.reached fun _ _ _ _ => Value.Exact.le_refl _

variable [Value.Peaked V] (hlifted : Lifted layers)
  (hhung : Hung (layers.map (·.map Beam.toStation)))
include hlifted

/-- A node has a tail that is at least what each edge to a node with a tail promises. -/
theorem Lifted.exists_tail {k : Nat} {layer parents : Array (Beam σ V)}
    (hlayer : layers[k]? = some layer) (hparents : layers[k + 1]? = some parents) {n p : Beam σ V}
    (hn : n ∈ layer) {t : V} (ht : n.tail = some t) {e : Edge V} (he : e ∈ n.inbound)
    (hp : parents[e.source]? = some p) : ∃ w, p.tail = some w ∧ t + e.cost ≤ w := by
  have hpromise : Promises layer e.source (t + e.cost) := ⟨n, hn, t, ht, e, he, rfl, rfl⟩
  have hsome : p.tail.isSome = true := by
    rw [hlifted.lift k layer parents hlayer hparents e.source p hp, foldl_farther_isSome]
    exact List.ne_nil_of_mem (mem_offers.2 hpromise)
  obtain ⟨w, hw⟩ := Option.isSome_iff_exists.1 hsome
  exact ⟨w, hw, (hlifted.measured.greatest k layer parents hlayer hparents e.source p w hp hw
    fun _ _ => Value.Exact.le_refl _).2 _ hpromise⟩

include hhung

variable {value : Option V}

/-- **No path through a node is longer than the best one.** -/
theorem Lifted.bounded (hlast : ∀ layer, layers[0]? = some layer → ∀ n ∈ layer, n.fate = .alive →
      ∃ v, value = some v ∧ n.longest ≤ v)
    {k : Nat} {layer : Array (Beam σ V)} (hlayer : layers[k]? = some layer) {n : Beam σ V}
    (hn : n ∈ layer) {t : V} (ht : n.tail = some t) :
    ∃ v, value = some v ∧ n.longest + t ≤ v := by
  induction k generalizing layer n t with
  | zero =>
    rw [hlifted.last layer hlayer n hn] at ht
    split at ht
    · rename_i halive
      obtain rfl := Option.some.inj ht
      rw [Value.Exact.add_zero]
      exact hlast layer hlayer n hn halive
    · cases ht
  | succ k ih =>
    have hlt := (List.getElem?_eq_some_iff.1 hlayer).1
    have hbelow : layers[k]? = some layers[k] := List.getElem?_eq_getElem (by omega)
    obtain ⟨j, hj⟩ := Array.mem_iff_getElem?.1 hn
    -- Some node below gave it its tail.
    obtain ⟨⟨m, hm, t', ht', e, he, rfl, rfl⟩, _⟩ := hlifted.measured.greatest k _ layer hbelow
      hlayer j n t hj ht fun _ _ => Value.Exact.le_refl _
    obtain ⟨v, hv, hle⟩ := ih hbelow hm ht'
    have hedge : n.longest + e.cost ≤ m.longest := (hhung.tops hbelow hlayer hm).le e he n.toStation
      (by rw [Array.getElem?_map, hj]; rfl)
    refine ⟨v, hv, Value.Exact.le_trans ?_ hle⟩
    rw [Value.Exact.add_comm t', ← Value.Exact.add_assoc]
    exact Value.Exact.add_le_add_left hedge t'

/-- **Through the nodes of the best path there is one that is as long.** -/
theorem Lifted.attained {best : Option Nat}
    (hlast : ∀ layer, layers[0]? = some layer → ∀ n ∈ layer, n.fate = .alive →
      ∃ v, value = some v ∧ n.longest ≤ v)
    (hbest : ∀ j, best = some j → ∃ layer n, layers[0]? = some layer ∧ layer[j]? = some n ∧
      n.fate = .alive ∧ value = some n.longest)
    {k j : Nat} (h : OnBest layers best k j) : ∃ layer n t, layers[k]? = some layer ∧
      layer[j]? = some n ∧ n.tail = some t ∧ value = some (n.longest + t) := by
  induction h with
  | last hj =>
    obtain ⟨layer, n, hlayer, hn, halive, hvalue⟩ := hbest _ hj
    refine ⟨layer, n, 0, hlayer, hn, ?_, by rw [Value.Exact.add_zero, hvalue]⟩
    rw [hlifted.last layer hlayer n (Array.mem_of_getElem? hn), if_pos halive]
  | @up k m layer n e _ hlayer hn he hk ih =>
    obtain ⟨layer', n', t, hlayer', hn', ht, hvalue⟩ := ih
    obtain rfl := Option.some.inj (hlayer.symm.trans hlayer')
    obtain rfl := Option.some.inj (hn.symm.trans hn')
    have hparents : layers[k + 1]? = some layers[k + 1] := List.getElem?_eq_getElem hk
    have hmem := Array.mem_of_getElem? hn
    -- The best edge leads to the value of the node.
    obtain ⟨e', he', q, hq, hedge, hlongest⟩ := (hhung.tops hlayer hparents hmem).attained
    obtain rfl := Option.some.inj (he.symm.trans hedge)
    obtain ⟨p, hp, rfl⟩ := Option.map_eq_some_iff.1 (Array.getElem?_map.symm.trans hq)
    obtain ⟨w, hw, hle⟩ := hlifted.exists_tail hlayer hparents hmem ht he' hp
    obtain ⟨v, hv, hbound⟩ := hlifted.bounded hhung hlast hparents (Array.mem_of_getElem? hp) hw
    obtain rfl := Option.some.inj (hvalue.symm.trans hv)
    refine ⟨_, p, w, hparents, hp, hw, ?_⟩
    rw [hvalue]
    refine congrArg some (Value.Exact.le_antisymm ?_ hbound)
    rw [hlongest, Value.Exact.add_assoc, Value.Exact.add_comm e.cost]
    exact Value.Exact.add_le_add_right hle p.longest

omit hlifted hhung in
/-- **In exact arithmetic tails and values together tell the longest paths through nodes.** -/
theorem Lifted.spans {d : Diagram σ V} (hlifted : Lifted (beams d.layers))
    (hhung : Hung (stations d.layers)) {last : Array (Station σ V)}
    (hlast : (stations d.layers)[0]? = some last) (hcrowns : Crowns last d.best) : Spans d := by
  have hhead : ∀ layer, (beams d.layers)[0]? = some layer → layer.map Beam.toStation = last := by
    intro layer hlayer
    rw [stations_eq_of_beams, List.getElem?_map, hlayer] at hlast
    exact Option.some.inj hlast
  have hworst : ∀ layer, (beams d.layers)[0]? = some layer → ∀ n ∈ layer, n.fate = .alive →
      ∃ v, d.bestValue = some v ∧ n.longest ≤ v := by
    intro layer hlayer n hn halive
    have hmem : n.toStation ∈ last := hhead layer hlayer ▸ Array.mem_map_of_mem hn
    cases hbest : d.best with
    | none =>
      rw [hbest] at hcrowns
      exact absurd halive (hcrowns _ hmem)
    | some i =>
      rw [hbest] at hcrowns
      obtain ⟨m, hm, _, hle⟩ := hcrowns
      exact ⟨m.longest, Diagram.bestValue_eq hlast hm hbest, hle _ hmem halive⟩
  have hbest : ∀ j, d.best = some j → ∃ layer n, (beams d.layers)[0]? = some layer ∧
      layer[j]? = some n ∧ n.fate = .alive ∧ d.bestValue = some n.longest := by
    intro j hj
    rw [hj] at hcrowns
    obtain ⟨m, hm, halive, _⟩ := hcrowns
    have hvalue := Diagram.bestValue_eq hlast hm hj
    rw [stations_eq_of_beams, List.getElem?_map] at hlast
    obtain ⟨layer, hlayer, rfl⟩ := Option.map_eq_some_iff.1 hlast
    obtain ⟨n, hn, rfl⟩ := Option.map_eq_some_iff.1 (Array.getElem?_map.symm.trans hm)
    exact ⟨layer, n, hlayer, hn, halive, hvalue⟩
  rw [stations_eq_of_beams] at hhung
  exact ⟨fun _ _ hlayer _ hn _ ht => hlifted.bounded hhung hworst hlayer hn ht,
    fun _ _ h => hlifted.attained hhung hworst hbest h⟩

end Exact

/-! ### Compiling -/

section Compile

variable [BEq σ] [Value V]

omit [BEq σ] in
theorem Diagram.best_markBounds (d : Diagram σ V) (kind : Kind) (cutset : CutsetKind) :
    ((d.markBest.markExact kind).markCutset kind cutset).markBounds.best = d.markBest.best := by
  have hcut : ((d.markBest.markExact kind).markCutset kind cutset).best = d.markBest.best := by
    unfold markCutset
    split
    · cases cutset with
      | lastExactLayer => rfl
      | frontier => rfl
    · rfl
  unfold markBounds
  split
  · exact hcut
  · exact hcut

/-- An evaluation that computes tails keeps them. -/
theorem Request.evaluate_beams [BEq κ] [Hashable σ] (r : Request σ κ V)
    (hbounds : r.kind = .relaxed ∨ r.checks.watches = true) (session : Session σ κ V)
    (d : Diagram σ V) : ∃ layers, (r.evaluate session d).diagram =
        { ((d.markBest.markExact r.kind).markCutset r.kind r.cutset).markBounds with layers } ∧
      beams layers =
        beams ((d.markBest.markExact r.kind).markCutset r.kind r.cutset).markBounds.layers := by
  have hcond : (r.kind == .relaxed || r.checks.watches) = true := by
    rw [Bool.or_eq_true, beq_iff_eq]
    exact hbounds
  unfold evaluate
  dsimp only
  rw [if_pos hcond]
  generalize ((d.markBest.markExact r.kind).markCutset r.kind r.cutset).markBounds = bounded
  split
  · exact ⟨bounded.layers, rfl, rfl⟩
  · split
    · obtain ⟨layers, hswept, hsame⟩ := beam_outlastsSweep.sweep bounded r session
      exact ⟨layers, hswept, hsame⟩
    · exact ⟨bounded.layers, rfl, rfl⟩

variable [Hashable σ] [BEq κ] [Value.Peaked V]

/-- **An evaluation measures the longest paths** in layers that hang below each other. -/
theorem Request.evaluate_measures (r : Request σ κ V)
    (hbounds : r.kind = .relaxed ∨ r.checks.watches = true) (session : Session σ κ V)
    {d : Diagram σ V} {last : Layer σ V} {above : List (Layer σ V)}
    (hlayers : d.layers = last :: above)
    (hnone : ∀ layer ∈ d.layers, ∀ n ∈ layer, n.tail = none) (hhung : Hung (stations d.layers)) :
    Measured (beams (r.evaluate session d).diagram.layers) ∧
      (Value.Exact V → Spans (r.evaluate session d).diagram) := by
  obtain ⟨layers, hdiagram, hbeams⟩ := r.evaluate_beams hbounds session d
  have hstations : stations (r.evaluate session d).diagram.layers = stations d.layers :=
    station_outlasts.evaluate r session d
  have htails := OutlastsCut.markCutset (g := Node.tail) ⟨fun _ _ => rfl⟩
    (d.markBest.markExact r.kind) r.kind r.cutset
  rw [layers_marked] at htails
  have hlifted : Lifted (beams (r.evaluate session d).diagram.layers) := by
    rw [hdiagram]
    show Lifted (beams layers)
    rw [hbeams]
    refine Diagram.markBounds_lifted _ fun layer hlayer n hn => ?_
    -- Collecting the cut-set gives no node a tail.
    obtain ⟨l, hl, heq⟩ := List.mem_map.1 (htails ▸ List.mem_map_of_mem hlayer)
    obtain ⟨m, hm, htail⟩ := Array.mem_map.1 (heq ▸ Array.mem_map_of_mem hn)
    rw [← htail]
    exact hnone l hl m hm
  have hlast : (stations (r.evaluate session d).diagram.layers)[0]? =
      some (last.map Node.station) := by
    rw [hstations, hlayers]
    rfl
  refine ⟨hlifted.measured, fun _ => hlifted.spans (hstations ▸ hhung) hlast ?_⟩
  rw [hdiagram]
  show Crowns _ (Diagram.markBounds _).best
  rw [Diagram.best_markBounds, markBest, hlayers]
  exact best?_crowns last

/-- **The tails of a compiled diagram are the lengths of longest paths**, whatever the model, if
they are computed and the unrolling met no fault.  A node is marked if and only if edges lead
from it to a node of the deepest layer that is alive.  Those of that layer have the tail nought,
and any other tail is the greatest that edges to marked nodes lead to.  In exact arithmetic no
path through a marked node is longer than the best value, and through the nodes of the best path
there is one that is as long. -/
theorem Request.compile_measures (r : Request σ κ V)
    (hbounds : r.kind = .relaxed ∨ r.checks.watches = true) (session : Session σ κ V)
    (hclear : (r.unroll r.audit session).fault = none) :
    Measured (beams (r.compile session).diagram.layers) ∧
      (Value.Exact V → Spans (r.compile session).diagram) := by
  obtain ⟨mid, free, d, hrounds, hlast⟩ := r.unroll_lastRound hclear
  have hunmarked := r.unroll_unmarked hclear
  obtain ⟨hhung, hpending⟩ := hrounds.hung
  have hcompile : r.compile session =
      r.evaluate (r.unroll r.audit session).session (r.unroll r.audit session).diagram := by
    unfold compile compileWith
    dsimp only
    rw [hclear]
  rw [hcompile]
  rw [hlast.eq] at hunmarked ⊢
  exact r.evaluate_measures hbounds _ rfl (fun layer hlayer n hn => (hunmarked layer hlayer n hn).1)
    (hhung.settle hpending mid)

/-- Two picks are worth one each, and the root tells so. -/
theorem Request.compile_measures_twoPicks :
    Measured (beams ((twoPicksRequest .relaxed none).compile .fresh).diagram.layers) ∧
    Spans ((twoPicksRequest .relaxed none).compile .fresh).diagram ∧
    (((twoPicksRequest .relaxed none).compile .fresh).diagram.layers.reverse[0]?.bind
      (·[0]?)).bind (·.tail) = some (.finite 2) := by
  obtain ⟨report, hok⟩ := Request.exists_compile_ok (twoPicksRequest_regular .relaxed none)
    (fun _ _ => (twoPicks_lawful .maximize false none).focused) (fun _ h => absurd rfl h) .fresh
  obtain ⟨hmeasured, hspans⟩ := (twoPicksRequest .relaxed none).compile_measures (.inl rfl) .fresh
    (Request.compileWith_of_ok hok).1
  exact ⟨hmeasured, hspans inferInstance, by decide +kernel⟩

end Compile

end DiagramSearch
