/-
# What the evaluation of a diagram leaves alone

Marking the best nodes and the cut-set, lifting bounds and sweeping thresholds touch
four fields of a node and no other: its tail, its threshold, and the marks that it is in
the cut-set and that its threshold is borrowed.  So whatever can be told of a node
without these (`Outlasts`) is told of the evaluated diagram as well.

* `OutlastsCut.markCutset`, `Outlasts.markBounds`, `OutlastsSweep.sweep`: one lemma for
  each pass over the layers;
* `Outlasts.evaluate`: **all of them together**;
* `Node.station`: descent and fate, the instance that the shape of a compiled diagram
  rests on.
-/

import DiagramSearch.Proofs.Cutting
import DiagramSearch.Proofs.Ancestry
import DiagramSearch.Diagram.Compile

namespace DiagramSearch

open Diagram

variable {σ κ V α : Type}

/-- What can be told of a node without its place in the cut-set. -/
structure OutlastsCut (g : Node σ V → α) : Prop where
  cutset : ∀ n b, g { n with cutset := b } = g n

/-- What can be told of a node without its threshold, and whose threshold it has. -/
structure OutlastsSweep (g : Node σ V → α) : Prop where
  threshold : ∀ n t, g { n with threshold := t } = g n
  borrowed : ∀ n b, g { n with borrowed := b } = g n

/-- What can be told of a node without its tail as well. -/
structure Outlasts (g : Node σ V → α) : Prop extends OutlastsCut g, OutlastsSweep g where
  tail : ∀ n t, g { n with tail := t } = g n

/-- A pass whose steps leave something of every node alone leaves it alone. -/
theorem Layer.map_foldl_eq {β : Type} {g : Node σ V → α} {step : Layer σ V → β → Layer σ V}
    {bs : List β} (hstep : ∀ layer, ∀ b ∈ bs, (step layer b).map g = layer.map g)
    (layer : Layer σ V) : (bs.foldl step layer).map g = layer.map g := by
  refine List.foldlRecOn bs step (motive := fun l => l.map g = layer.map g) rfl fun l hl b hb => ?_
  exact (hstep l b hb).trans hl

theorem Layer.map_map_same {g : Node σ V → α} {f : Node σ V → Node σ V}
    (hf : ∀ n, g (f n) = g n) (layer : Layer σ V) : (layer.map f).map g = layer.map g := by
  rw [Array.map_map]
  exact Array.map_congr_left fun n _ => hf n

/-- A fold over the nodes of a layer is a fold over their list. -/
theorem Layer.map_foldl_nodes {g : Node σ V → α} {step : Layer σ V → Node σ V → Layer σ V}
    (hstep : ∀ parents n, (step parents n).map g = parents.map g) (layer parents : Layer σ V) :
    (layer.foldl step parents).map g = parents.map g := by
  rw [← Array.foldl_toList]
  exact Layer.map_foldl_eq (fun l n _ => hstep l n) parents

/-! ### The cut-set -/

namespace OutlastsCut

variable {g : Node σ V → α} (h : OutlastsCut g)
include h

theorem uncut (n : Node σ V) : g n.uncut = g n := h.cutset n false

theorem of_uncut {layers layers' : List (Layer σ V)}
    (hsame : layers.map (·.map Node.uncut) = layers'.map (·.map Node.uncut)) :
    layers.map (·.map g) = layers'.map (·.map g) :=
  map_map_eq g (fun n => (h.uncut n).symm) hsame

theorem flagged {parents : Layer σ V} {es : List (Edge V)} {marked : Layer σ V × List Nat}
    (hmarked : Flagged parents es marked) : marked.1.map g = parents.map g := by
  have hsame : [marked.1].map (·.map g) = [parents].map (·.map g) :=
    h.of_uncut (by rw [List.map_singleton, List.map_singleton, uncut_flagSource hmarked])
  simpa using hsame

theorem cutAbove (stop : Nat) (layer : Layer σ V) (above : List (Layer σ V)) :
    (Diagram.cutAbove stop layer above).1.map (·.map g) = (layer :: above).map (·.map g) := by
  induction above generalizing layer with
  | nil => rfl
  | cons parents above ih =>
    rw [Diagram.cutAbove]
    split
    · rfl
    · rw [foldl_flagParents]
      have hmarked := h.flagged (flagged_foldl parents (inexactEdges layer))
      have hup := ih ((inexactEdges layer).foldl flagSource (parents, [])).1
      simp only [List.map_cons, hmarked] at hup ⊢
      rw [hup]

theorem markCutset (d : Diagram σ V) (kind : Kind) (cutset : CutsetKind) :
    (d.markCutset kind cutset).layers.map (·.map g) = d.layers.map (·.map g) := by
  unfold Diagram.markCutset
  split
  · rename_i l last above _ hlayers
    cases cutset with
    | lastExactLayer => exact h.of_uncut (uncut_cutAtLayer d l)
    | frontier =>
      rw [hlayers]
      exact h.cutAbove l last above
  · rfl

end OutlastsCut

/-! ### Bounds -/

namespace Outlasts

variable {g : Node σ V → α} (h : Outlasts g) [Value V]
include h

theorem liftBound (parents : Layer σ V) (n : Node σ V) :
    (Diagram.liftBound parents n).map g = parents.map g := by
  unfold Diagram.liftBound
  split
  · rfl
  · exact Layer.map_foldl_eq (fun l e _ => Layer.map_modify_eq (fun p => h.tail p _) l e.source)
      parents

theorem liftBounds (layer : Layer σ V) (above : List (Layer σ V)) :
    (Diagram.liftBounds layer above).map (·.map g) = (layer :: above).map (·.map g) := by
  induction above generalizing layer with
  | nil => rfl
  | cons parents above ih =>
    have hparents := Layer.map_foldl_nodes h.liftBound layer parents
    have hup := ih (layer.foldl Diagram.liftBound parents)
    simp only [List.map_cons, Diagram.liftBounds, hparents] at hup ⊢
    rw [hup]

theorem markBounds (d : Diagram σ V) : ∃ layers, d.markBounds = { d with layers } ∧
    layers.map (·.map g) = d.layers.map (·.map g) := by
  unfold Diagram.markBounds
  cases hd : d.layers with
  | nil => exact ⟨[], by simp [← hd], rfl⟩
  | cons last above =>
    refine ⟨_, rfl, ?_⟩
    rw [h.liftBounds, List.map_cons, List.map_cons]
    refine congrArg (· :: _) (Layer.map_map_same (fun n => ?_) last)
    split
    · exact h.tail n _
    · rfl

end Outlasts

/-! ### Thresholds -/

namespace OutlastsSweep

variable {g : Node σ V → α} (h : OutlastsSweep g) [Value V]
include h

theorem settle (best : V) (n : Node σ V) : g (n.settle best) = g n := by
  unfold Node.settle
  split
  · rfl
  · split
    · exact h.threshold n _
    · split
      · dsimp only
        split <;> exact h.threshold n _
      · split
        · exact h.threshold n _
        · rfl

omit [Value V] in
/-- What a child leaves a node, and whether that is borrowed. -/
theorem informed (p : Node σ V) (threshold : Option V) (borrowed : Bool) :
    g { p with threshold, borrowed } = g p :=
  (h.borrowed { p with threshold } borrowed).trans (h.threshold p threshold)

theorem inform (parents : Layer σ V) (n : Node σ V) :
    (Node.inform parents n).map g = parents.map g := by
  unfold Node.inform
  split
  · refine Layer.map_foldl_eq (fun l e _ => ?_) parents
    exact Layer.map_modify_eq (fun p => h.informed p _ _) l e.source
  · rfl

variable [BEq σ]

theorem sweepLayers (best : V) (lasting : Nat → Node σ V → Bool) (session : Session σ κ V)
    (layer : Layer σ V) (above : List (Layer σ V)) :
    (DiagramSearch.sweepLayers best lasting session layer above).2.map (·.map g) =
      (layer :: above).map (·.map g) := by
  have hsettled : ∀ l : Layer σ V, (l.map (Node.settle best)).map g = l.map g :=
    Layer.map_map_same (h.settle best)
  induction above generalizing layer session with
  | nil => simp only [DiagramSearch.sweepLayers, List.map_cons, List.map_nil, hsettled]
  | cons parents above ih =>
    rw [DiagramSearch.sweepLayers]
    have hparents := Layer.map_foldl_nodes h.inform (layer.map (Node.settle best)) parents
    have hup := ih (Layer.teach (layer.map (Node.settle best)) (lasting (above.length + 1)) session)
      ((layer.map (Node.settle best)).foldl Node.inform parents)
    simp only [List.map_cons, hparents, hsettled] at hup ⊢
    rw [hup]

theorem sweep (d : Diagram σ V) (r : Request σ κ V) (session : Session σ κ V) :
    ∃ layers, (d.sweep r session).2 = { d with layers } ∧
      layers.map (·.map g) = d.layers.map (·.map g) := by
  unfold Diagram.sweep
  cases hd : d.layers with
  | nil => exact ⟨[], by simp [← hd], rfl⟩
  | cons last above =>
    cases hbest : d.bestExactValue with
    | none => exact ⟨_, rfl, h.sweepLayers _ _ _ _ _⟩
    | some value =>
      refine ⟨_, rfl, (h.sweepLayers _ _ _ _ _).trans ?_⟩
      refine congrArg (· :: _) (Layer.map_map_same (fun n => ?_) last)
      split
      · exact h.threshold n _
      · rfl

end OutlastsSweep

/-! ### The whole evaluation -/

variable [BEq σ] [Value V]

/-- **What an evaluation may do**: bounds are lifted or not, and then a fault is
found, or the thresholds are swept or not. -/
theorem Request.evaluate_cases (r : Request σ κ V) (session : Session σ κ V) (d : Diagram σ V) :
    ∃ cut bounded, cut = (d.markBest.markExact r.kind).markCutset r.kind r.cutset ∧
      (bounded = cut ∨ bounded = cut.markBounds) ∧
      ((∃ fault, r.evaluate session d = ⟨session, bounded, .error fault⟩) ∨
        ∃ out, (out = (session, bounded) ∨ out = bounded.sweep r session) ∧
          r.evaluate session d = ⟨out.1, out.2, .ok ⟨out.2.isExact, out.2.bestValue⟩⟩) := by
  unfold evaluate
  dsimp only
  generalize hcut : (d.markBest.markExact r.kind).markCutset r.kind r.cutset = cut
  generalize hbounded : (if r.kind == .relaxed || r.checks.watches then cut.markBounds else cut) =
    bounded
  refine ⟨cut, bounded, rfl, ?_, ?_⟩
  · rw [← hbounded]
    split
    · exact .inr rfl
    · exact .inl rfl
  · split
    · exact .inl ⟨_, rfl⟩
    · refine .inr ⟨if r.kind == .relaxed || bounded.isExact then bounded.sweep r session
        else (session, bounded), ?_, rfl⟩
      split
      · exact .inr rfl
      · exact .inl rfl

omit [BEq σ] in
/-- Marking the best nodes changes no layer. -/
theorem layers_marked (d : Diagram σ V) (kind : Kind) :
    (d.markBest.markExact kind).layers = d.layers := by
  simp only [Diagram.markExact, Diagram.markBest]
  split <;> rfl

/-- **An evaluation leaves alone whatever does not depend on what it computes.** -/
theorem Outlasts.evaluate {g : Node σ V → α} (h : Outlasts g) (r : Request σ κ V)
    (session : Session σ κ V) (d : Diagram σ V) :
    (r.evaluate session d).diagram.layers.map (·.map g) = d.layers.map (·.map g) := by
  obtain ⟨cut, bounded, rfl, hbounded, hout⟩ := r.evaluate_cases session d
  have hcut := h.markCutset (d.markBest.markExact r.kind) r.kind r.cutset
  rw [layers_marked] at hcut
  have hlifted : bounded.layers.map (·.map g) = d.layers.map (·.map g) := by
    rcases hbounded with rfl | rfl
    · exact hcut
    · obtain ⟨layers, heq, hsame⟩ :=
        h.markBounds ((d.markBest.markExact r.kind).markCutset r.kind r.cutset)
      rw [heq]
      exact hsame.trans hcut
  rcases hout with ⟨fault, heq⟩ | ⟨out, rfl | rfl, heq⟩
  · rw [heq]
    exact hlifted
  · rw [heq]
    exact hlifted
  · obtain ⟨layers, hswept, hsame⟩ := h.sweep bounded r session
    rw [heq, hswept]
    exact hsame.trans hlifted

/-! ### The session -/

section Session

variable (s t : Session σ κ V)

theorem Layer.table_teach (layer : Layer σ V) (lasting : Node σ V → Bool) :
    (layer.teach lasting s).table = s.table := by
  unfold teach
  rw [← Array.foldl_toList]
  refine List.foldlRecOn layer.toList _ (motive := fun u : Session σ κ V => u.table = s.table)
    rfl fun u hu n _ => ?_
  split
  · split
    · exact hu
    · exact hu
  · exact hu

/-- Thresholds are told to the session, and do not depend on it. -/
theorem sweepLayers_session (best : V) (lasting : Nat → Node σ V → Bool) (layer : Layer σ V)
    (above : List (Layer σ V)) :
    (sweepLayers best lasting t layer above).2 = (sweepLayers best lasting s layer above).2 ∧
      (sweepLayers best lasting s layer above).1.table = s.table := by
  induction above generalizing s t layer with
  | nil => exact ⟨rfl, Layer.table_teach s _ _⟩
  | cons parents above ih =>
    obtain ⟨hlayers, htable⟩ := ih
      (Layer.teach (layer.map (Node.settle best)) (lasting (above.length + 1)) s)
      (Layer.teach (layer.map (Node.settle best)) (lasting (above.length + 1)) t)
      ((layer.map (Node.settle best)).foldl Node.inform parents)
    exact ⟨congrArg (_ :: ·) hlayers, htable.trans (Layer.table_teach s _ _)⟩

theorem Diagram.sweep_session (d : Diagram σ V) (r : Request σ κ V) :
    (d.sweep r t).2 = (d.sweep r s).2 ∧ (d.sweep r s).1.table = s.table := by
  unfold sweep
  cases d.layers with
  | nil => exact ⟨rfl, rfl⟩
  | cons last above =>
    cases d.bestExactValue with
    | none =>
      obtain ⟨hlayers, htable⟩ :=
        sweepLayers_session s t r.toBeat (d.lasting r.kind r.cutset) last above
      exact ⟨congrArg (fun layers => { d with layers }) hlayers, htable⟩
    | some value =>
      obtain ⟨hlayers, htable⟩ := sweepLayers_session s t (max r.toBeat value)
        (d.lasting r.kind r.cutset) (last.map fun n => if n.isAlive && n.exact then
          { n with threshold := some (max r.toBeat value) } else n) above
      exact ⟨congrArg (fun layers => { d with layers }) hlayers, htable⟩

/-- **What an evaluation tells does not depend on the session**, and it asks no table. -/
theorem Request.evaluate_session (r : Request σ κ V) (d : Diagram σ V) :
    (r.evaluate t d).outcome = (r.evaluate s d).outcome ∧
      (r.evaluate t d).diagram = (r.evaluate s d).diagram ∧
      (r.evaluate s d).session.table = s.table := by
  unfold evaluate
  dsimp only
  generalize (if r.kind == .relaxed || r.checks.watches then
    ((d.markBest.markExact r.kind).markCutset r.kind r.cutset).markBounds
    else (d.markBest.markExact r.kind).markCutset r.kind r.cutset) = bounded
  split
  · exact ⟨rfl, rfl, rfl⟩
  · split
    · obtain ⟨hdiagram, htable⟩ := bounded.sweep_session s t r
      exact ⟨by rw [hdiagram], hdiagram, htable⟩
    · exact ⟨rfl, rfl, rfl⟩

end Session

/-! ### Descent and fate -/

omit [BEq σ] [Value V]

theorem lineage_outlasts : Outlasts (Node.lineage (σ := σ) (V := V)) where
  cutset _ _ := rfl
  threshold _ _ := rfl
  borrowed _ _ := rfl
  tail _ _ := rfl

/-- What a node knows of where it comes from, and what became of it. -/
structure Station (σ V : Type) extends Lineage σ V where
  fate : Fate

/-- The descent of a node and its fate. -/
def Node.station (n : Node σ V) : Station σ V := ⟨n.lineage, n.fate⟩

theorem station_outlasts : Outlasts (Node.station (σ := σ) (V := V)) where
  cutset _ _ := rfl
  threshold _ _ := rfl
  borrowed _ _ := rfl
  tail _ _ := rfl

end DiagramSearch
