/-
# Diagrams comply with their width

Whether a node takes part in a diagram is told by its fate, which the cache, the
dominance table, a restriction and a merge write one after the other while the layer is
completed.  No later round and no evaluation touches it.  So the layers of a compiled
diagram are alive where the rounds kept them, whatever the model and however the
compilation ended.

* `Rounds.laid`, `Request.compile_laid`: **each layer is as the round left it that
  completed it**;
* `Request.compile_complies`: **no layer has more nodes that are alive than the width
  allows**, but the first two of a relaxed diagram.
-/

import DiagramSearch.Proofs.Fusing
import DiagramSearch.Proofs.Inheriting
import DiagramSearch.Proofs.Intercepting
import DiagramSearch.Proofs.Outlasting

namespace DiagramSearch

open Diagram

variable {σ κ V : Type}

/-! ### Counting the nodes that are alive -/

/-- There are as many candidates as nodes that are alive. -/
theorem Layer.length_candidates (layer : Layer σ V) :
    layer.candidates.length = layer.countP (·.isAlive) := by
  unfold Layer.candidates
  rw [List.length_filterMap_eq_countP, ← Array.countP_toList]
  have hzip := congrArg (List.countP (·.isAlive)) (List.zipIdx_map_fst 0 layer.toList)
  rw [List.countP_map] at hzip
  rw [← hzip]
  refine List.countP_congr fun p _ => ?_
  obtain ⟨n, i⟩ := p
  rw [Function.comp_apply]
  cases halive : n.isAlive <;> simp [halive]

namespace Musters

variable {layer layer' : Layer σ V} {kept : List Nat}

/-- What is kept of a layer are as many nodes as are alive. -/
theorem length_eq (h : Musters layer kept) : kept.length = layer.countP (·.isAlive) := by
  have hlists := layer.lists_candidates
  have hperm : kept.Perm (layer.candidates.map (·.position)) := by
    refine (List.perm_ext_iff_of_nodup h.nodup hlists.nodup).2 fun j => ?_
    rw [h.mem_iff, hlists.mem_iff]
  rw [hperm.length_eq, List.length_map, layer.length_candidates]

/-- Only the fates of the nodes matter. -/
theorem congr (hsame : layer.map Node.station = layer'.map Node.station) (h : Musters layer' kept) :
    Musters layer kept := by
  refine ⟨h.nodup, fun j => ?_⟩
  rw [h.mem_iff]
  have hfate := congrArg (Option.map Station.fate) (congrArg (·[j]?) hsame)
  simp only [Array.getElem?_map, Option.map_map] at hfate
  have halive : ∀ o : Option (Node σ V), (∃ n, o = some n ∧ n.fate = .alive) ↔
      o.map (Station.fate ∘ Node.station) = some .alive := by
    intro o
    rw [Option.map_eq_some_iff]
    rfl
  rw [halive, halive, hfate]

end Musters

/-! ### Layers and the rounds that completed them -/

variable [BEq σ] [Hashable σ] [BEq κ] [Value V] {audit : Audit σ κ V} {r : Request σ κ V}
  {start session : Session σ κ V} {free : Variables} {d : Diagram σ V}

/-- Layers, deepest first, whose nodes are as the rounds left them that completed the
layers one after the other. -/
def Laid (audit : Audit σ κ V) (r : Request σ κ V) (start : Session σ κ V)
    (layers : List (Layer σ V)) : Prop :=
  ∀ (i : Nat) layer, layers.reverse[i]? = some layer → ∃ session free d,
    Rounds audit r start session free d ∧ d.layers.length = i ∧
      layer.map Node.station = (settleLayer audit r session d).layer.map Node.station

/-- One more layer. -/
theorem Laid.cons {layer : Layer σ V} (h : Laid audit r start d.layers)
    (hrounds : Rounds audit r start session free d)
    (hlayer : layer.map Node.station = (settleLayer audit r session d).layer.map Node.station) :
    Laid audit r start (layer :: d.layers) := by
  intro i l hl
  rw [List.reverse_cons, List.getElem?_append, List.length_reverse] at hl
  split at hl
  · exact h i l hl
  · rename_i hlong
    rw [List.getElem?_singleton] at hl
    split at hl
    · obtain rfl := Option.some.inj hl
      exact ⟨session, free, d, hrounds, by omega, hlayer⟩
    · cases hl

/-- Neither depends on what is computed later. -/
theorem Laid.congr {layers layers' : List (Layer σ V)} (h : Laid audit r start layers)
    (hsame : layers'.map (·.map Node.station) = layers.map (·.map Node.station)) :
    Laid audit r start layers' := by
  intro i layer' hlayer'
  have hget := congrArg (fun l => l.reverse[i]?) hsame
  simp only [← List.map_reverse, List.getElem?_map, hlayer', Option.map_some] at hget
  obtain ⟨layer, hlayer, heq⟩ := Option.map_eq_some_iff.1 hget.symm
  obtain ⟨session, free, d, hrounds, hi, hstation⟩ := h i layer hlayer
  exact ⟨session, free, d, hrounds, hi, heq.symm.trans hstation⟩

omit [BEq κ] in
theorem Fitted.station_expansion (f : Fitted σ κ V) (r : Request σ κ V) (free : Variables)
    (index x : Nat) : (f.expansion r free index x).layer.map Node.station =
      f.layer.map Node.station :=
  f.map_expansion (fun _ _ => rfl) r free index x

/-- **Each layer is as the round left it that completed it**, in every round. -/
theorem Rounds.laid (h : Rounds audit r start session free d) : Laid audit r start d.layers := by
  induction h with
  | root => exact fun i layer hlayer => nomatch hlayer
  | @next session free d f v x h hf _ _ _ hx _ ih =>
    subst hf hx
    exact ih.cons h (Fitted.station_expansion _ r free _ v)

/-- One round keeps that, whether it is the last one, leads to the next one or meets a
fault. -/
theorem Rounds.laid_round (h : Rounds audit r start session free d)
    {after : Variables → Session σ κ V → Diagram σ V → Unrolled σ κ V}
    (hafter : ∀ (v : { v : Nat // v ∈ free }) session d,
      Rounds audit r start session (free.erase v) d →
        Laid audit r start (after (free.erase v) session d).diagram.layers) :
    Laid audit r start (unrollRound audit r free session d after).diagram.layers := by
  unfold unrollRound
  generalize hf : settleLayer audit r session d = f
  have hcompleted : Laid audit r start (f.layer :: d.layers) := h.laid.cons h (by rw [hf])
  dsimp only
  cases hfault : f.fault with
  | some fault => exact h.laid
  | none =>
    cases hkept : f.kept with
    | nil => exact hcompleted
    | cons first rest =>
      cases hv : r.branching free (d.pending.toList.map (·.state)) with
      | none => exact hcompleted
      | some v =>
        dsimp only
        split
        · exact h.laid.cons h (by rw [hf, f.station_expansion])
        · rename_i hxfault
          refine hafter v _ _ (h.next hf hfault ?_ hv rfl hxfault)
          rw [hkept]
          exact List.cons_ne_nil _ _

/-- So it is in the end. -/
theorem unroll_laid (rounds : Nat) (h : Rounds audit r start session free d)
    (hrounds : free.size ≤ rounds) :
    Laid audit r start (unroll audit r rounds free session d).diagram.layers := by
  induction rounds generalizing session free d with
  | zero =>
    rw [unroll_eq_round _ _ _ _ hrounds]
    refine h.laid_round fun v _ _ _ => ?_
    have hsize := Variables.size_erase_add_one v.2
    omega
  | succ rounds ih =>
    rw [unroll_eq_round _ _ _ _ hrounds]
    refine h.laid_round fun v _ _ hnext => ih hnext ?_
    have hsize := Variables.size_erase_add_one v.2
    omega

/-- **Each layer of a compiled diagram is as the round left it that completed it.** -/
theorem Request.compile_laid (r : Request σ κ V) (session : Session σ κ V) :
    Laid r.audit r session (r.compile session).diagram.layers := by
  have hunrolled : Laid r.audit r session (r.unroll r.audit session).diagram.layers :=
    unroll_laid _ .root (Nat.le_refl _)
  unfold compile compileWith
  dsimp only
  split
  · exact hunrolled
  · exact hunrolled.congr (station_outlasts.evaluate r _ _)

/-! ### Width -/

omit [Hashable σ] in
/-- What a round keeps of a layer are the nodes that are alive. -/
theorem settleLayer_musters (audit : Audit σ κ V) (r : Request σ κ V) (session : Session σ κ V)
    (d : Diagram σ V) : Musters (settleLayer audit r session d).layer
      (settleLayer audit r session d).kept :=
  have hlists := (selected r session d.layers.isEmpty d.pending).lists
  (fit_fits audit r d.path d.layers hlists).musters hlists

omit [Hashable σ] in
/-- They are no more than the width allows. -/
theorem settleLayer_length_le (audit : Audit σ κ V) (r : Request σ κ V) (session : Session σ κ V)
    (d : Diagram σ V)
    (hcase : r.kind = .restricted ∨ r.kind = .relaxed ∧ 2 ≤ d.layers.length) :
    (settleLayer audit r session d).kept.length ≤ max r.width 1 :=
  (fit_fits audit r d.path d.layers
    (selected r session d.layers.isEmpty d.pending).lists).length_le hcase

/-- **Diagrams comply with their width.**  The nodes of a layer that are alive are those
that were kept when it was completed.  They are no more than the width allows, if the
diagram is restricted, or if it is relaxed and the layer is not one of the first two. -/
theorem Request.compile_complies (r : Request σ κ V) (session : Session σ κ V) {i : Nat}
    {layer : Layer σ V}
    (hlayer : (r.compile session).diagram.layers.reverse[i]? = some layer) :
    (r.kind = .restricted ∨ r.kind = .relaxed ∧ 2 ≤ i →
      layer.countP (·.isAlive) ≤ max r.width 1) ∧
    ∃ mid free d, Rounds r.audit r session mid free d ∧ d.layers.length = i ∧
      layer.map Node.station = (settleLayer r.audit r mid d).layer.map Node.station ∧
      Musters layer (settleLayer r.audit r mid d).kept := by
  obtain ⟨mid, free, d, hrounds, rfl, hsame⟩ := r.compile_laid session i layer hlayer
  have hmusters := (settleLayer_musters r.audit r mid d).congr hsame
  constructor
  · intro hcase
    rw [← hmusters.length_eq]
    exact settleLayer_length_le r.audit r mid d hcase
  · exact ⟨mid, free, d, hrounds, rfl, hsame, hmusters⟩

/-- Both picks of the second layer come to one node. -/
theorem Request.compile_complies_twoPicks :
    ∃ layer, ((twoPicksRequest .relaxed none).compile .fresh).diagram.layers.reverse[2]? =
      some layer ∧ layer.size = 4 ∧ layer.countP (·.isAlive) ≤ 1 := by
  have hsize : (((twoPicksRequest .relaxed none).compile .fresh).diagram.layers.reverse[2]?).map
      Array.size = some 4 := by
    decide +kernel
  obtain ⟨layer, hlayer, hfour⟩ := Option.map_eq_some_iff.1 hsize
  refine ⟨layer, hlayer, hfour, ?_⟩
  exact ((twoPicksRequest .relaxed none).compile_complies .fresh hlayer).1
    (.inr ⟨rfl, Nat.le_refl 2⟩)

end DiagramSearch
