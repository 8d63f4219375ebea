/-
# Diagrams as a whole

`Diagram.level` counts the layers of a diagram from its root.  A list of layers
is woven (`Woven`) when its first layer is the root of the request, each layer is
linked to the next, and what became of every node is settled.  This is what all
later arguments rest on, and it depends on the cores of the nodes alone
(`Woven.congr`).

* `Woven.traced`: an exact node is reached by the trail that climbing reads off;
* `Woven.freeAfter_climb`: the path to any node is on the variables that were
  branched on.
-/

import DiagramSearch.Proofs.Completing

namespace DiagramSearch

open Extended

variable {σ κ : Type}

namespace Diagram

/-- The layer of a given number, counted from the root. -/
def level (layers : List (Layer σ Extended)) (i : Nat) : Option (Layer σ Extended) :=
  layers.reverse[i]?

/-- The layers from one of a given number upwards. -/
def upward (layers : List (Layer σ Extended)) (i : Nat) : List (Layer σ Extended) :=
  layers.drop (layers.length - 1 - i)

variable {layers : List (Layer σ Extended)} {layer : Layer σ Extended} {i : Nat}

theorem level_cons (layer : Layer σ Extended) (layers : List (Layer σ Extended)) (i : Nat) :
    level (layer :: layers) i = if i = layers.length then some layer else level layers i := by
  unfold level
  rw [List.reverse_cons, List.getElem?_append, List.length_reverse]
  split
  · rename_i h
    rw [if_neg (by omega)]
  · rename_i h
    by_cases hi : i = layers.length
    · subst hi
      simp
    · rw [if_neg hi, List.getElem?_eq_none (by simp; omega),
        List.getElem?_eq_none (by simp; omega)]

theorem lt_of_level (h : level layers i = some layer) : i < layers.length := by
  have := (List.getElem?_eq_some_iff.1 h).1
  rwa [List.length_reverse] at this

/-- The deepest layer. -/
theorem level_length (layer : Layer σ Extended) (layers : List (Layer σ Extended)) :
    level (layer :: layers) layers.length = some layer := by
  rw [level_cons, if_pos rfl]

/-- A layer below leaves the number of a layer alone. -/
theorem level_cons_of_some {below : Layer σ Extended} (h : level layers i = some layer) :
    level (below :: layers) i = some layer := by
  rw [level_cons, if_neg (Nat.ne_of_lt (lt_of_level h))]
  exact h

/-- A level is the deepest layer or one of those above it. -/
theorem level_cons_cases {below : Layer σ Extended}
    (h : level (below :: layers) i = some layer) :
    i = layers.length ∧ below = layer ∨ i < layers.length ∧ level layers i = some layer := by
  rw [level_cons] at h
  split at h
  · rename_i hi
    exact .inl ⟨hi, Option.some.inj h⟩
  · exact .inr ⟨lt_of_level h, h⟩

theorem exists_level (layers : List (Layer σ Extended)) {i : Nat} (h : i < layers.length) :
    ∃ layer, level layers i = some layer :=
  ⟨_, List.getElem?_eq_getElem (by rwa [List.length_reverse])⟩

theorem level_eq_getElem? (h : i < layers.length) :
    level layers i = layers[layers.length - 1 - i]? := List.getElem?_reverse h

theorem level_map {α : Type} (f : Layer σ Extended → α) (layers : List (Layer σ Extended))
    (i : Nat) : (layers.map f).reverse[i]? = (level layers i).map f := by
  unfold level
  rw [← List.map_reverse, List.getElem?_map]

/-- Lists of layers with the same image have levels with the same image. -/
theorem level_of_map_eq {α : Type} {f : Layer σ Extended → α}
    {layers' : List (Layer σ Extended)} (h : layers.map f = layers'.map f)
    (hi : level layers i = some layer) : ∃ layer', level layers' i = some layer' ∧
      f layer = f layer' := by
  have himage := level_map f layers i
  rw [h, level_map, hi, Option.map_some] at himage
  obtain ⟨layer', hlayer', heq⟩ := Option.map_eq_some_iff.1 himage
  exact ⟨layer', hlayer', heq.symm⟩

/-- So do their nodes. -/
theorem node_of_map_eq {α : Type} {f : Node σ Extended → α} {layers' : List (Layer σ Extended)}
    (h : layers.map (·.map f) = layers'.map (·.map f)) {j : Nat} {n : Node σ Extended}
    (hi : level layers i = some layer) (hn : layer[j]? = some n) :
    ∃ layer' n', level layers' i = some layer' ∧ layer'[j]? = some n' ∧ f n = f n' := by
  obtain ⟨layer', hi', heq⟩ := level_of_map_eq h hi
  obtain ⟨n', hn', hnode⟩ := Layer.getElem?_of_map_eq heq hn
  exact ⟨layer', n', hi', hn', hnode⟩

theorem length_of_map_eq {α : Type} {f : Node σ Extended → α} {layers' : List (Layer σ Extended)}
    (h : layers.map (·.map f) = layers'.map (·.map f)) : layers.length = layers'.length := by
  have := congrArg List.length h
  simpa using this

/-- What agrees on a part of the nodes agrees on every smaller part. -/
theorem map_map_eq {V α β : Type} {f : Node σ V → α} {g : Node σ V → β} (g' : α → β)
    (hg : ∀ n, g n = g' (f n)) {layers layers' : List (Layer σ V)}
    (h : layers.map (·.map f) = layers'.map (·.map f)) :
    layers.map (·.map g) = layers'.map (·.map g) := by
  have hmap : ∀ ls : List (Layer σ V),
      (ls.map (·.map f)).map (·.map g') = ls.map (·.map g) := by
    intro ls
    rw [List.map_map]
    refine List.map_congr_left fun l _ => ?_
    rw [Function.comp_apply, Array.map_map]
    exact Array.map_congr_left fun n _ => (hg n).symm
  rw [← hmap, h, hmap]

/-- The path to a node depends on the best edges alone. -/
theorem climb_of_edges {V : Type} {layers layers' : List (Layer σ V)}
    (h : layers.map (·.map Node.bestEdge?) = layers'.map (·.map Node.bestEdge?)) (i : Nat) :
    climb layers i = climb layers' i := by
  induction layers generalizing layers' i with
  | nil =>
    obtain rfl : layers' = [] := List.map_eq_nil_iff.1 h.symm
    rfl
  | cons layer above ih =>
    obtain ⟨layer', above', rfl, hlayer, habove⟩ := List.map_eq_cons_iff.1 h.symm
    have hedge : layer[i]? >>= Node.bestEdge? = layer'[i]? >>= Node.bestEdge? := by
      have hnode := congrArg (fun l : Array (Option (Edge V)) => l[i]? >>= id) hlayer.symm
      simpa [Array.getElem?_map, Option.bind_map, Function.comp_def] using hnode
    rw [climb, climb, hedge]
    split
    · exact congrArg (_ :: ·) (ih habove.symm _)
    · rfl

theorem upward_zero (h : level layers 0 = some layer) : upward layers 0 = [layer] := by
  have hlt := lt_of_level h
  rw [level_eq_getElem? hlt] at h
  unfold upward
  rw [List.drop_eq_getElem?_toList_append, h, List.drop_eq_nil_of_le (by omega)]
  rfl

theorem upward_succ (h : level layers (i + 1) = some layer) :
    upward layers (i + 1) = layer :: upward layers i := by
  have hlt := lt_of_level h
  rw [level_eq_getElem? hlt] at h
  unfold upward
  rw [List.drop_eq_getElem?_toList_append, h]
  have hnext : layers.length - 1 - (i + 1) + 1 = layers.length - 1 - i := by omega
  rw [hnext]
  rfl

theorem upward_length (layer : Layer σ Extended) (layers : List (Layer σ Extended)) :
    upward (layer :: layers) layers.length = layer :: layers := by
  unfold upward
  simp

end Diagram

open Diagram

/-! ### Woven layers -/

/-- The layers of a diagram, from the root down. -/
structure Woven [BEq σ] (r : Request σ κ Extended) (cache : Cache σ Extended)
    (events : List (Event σ Extended)) (layers : List (Layer σ Extended)) : Prop where
  root : ∃ n, level layers 0 = some #[n] ∧
    n.stem = (Node.bare r.residual.state r.residual.depth r.residual.value posInf true).stem
  linked : ∀ i parents layer, level layers i = some parents → level layers (i + 1) = some layer →
    Linked r i parents layer
  placed : ∀ i layer, level layers i = some layer → ∀ n ∈ layer, n.Placed r cache events i

/-- The nodes that are alive above the last layer have the bounds of the model. -/
def Bounded (r : Request σ κ Extended) (layers : List (Layer σ Extended)) : Prop :=
  ∀ i layer, level layers i = some layer → i + 1 < layers.length → ∀ n ∈ layer,
    n.isAlive = true → n.roughBound = r.model.relaxation.upperBound n.state (r.freeAt i)

variable [BEq σ] {r : Request σ κ Extended} {cache : Cache σ Extended}
  {events events' : List (Event σ Extended)} {layers layers' : List (Layer σ Extended)}

theorem Node.Placed.congr {i : Nat} {n n' : Node σ Extended} (hn : n.core = n'.core)
    (h : n.Placed r cache events i) : n'.Placed r cache events i := by
  have hstem := Node.stem_eq_of_core_eq hn
  have hthreshold : n'.fate ≠ .alive → n'.threshold = n.threshold := by
    intro hne
    refine (Node.threshold_eq hn ?_).symm
    rw [Node.isAlive_eq hn]
    simpa [Node.isAlive] using hne
  refine ⟨?_, fun hf => ?_, fun hf => ?_, fun hm => ?_⟩
  · rw [← Node.depth_eq hstem]
    exact h.depth
  · rw [hthreshold (by rw [hf]; exact Fate.noConfusion), ← Node.state_eq hstem,
      ← Node.depth_eq hstem, ← Node.longest_eq hstem]
    exact h.cached ((Node.fate_eq hn).trans hf)
  · rw [hthreshold (by rw [hf]; exact Fate.noConfusion), ← Node.state_eq hstem,
      ← Node.depth_eq hstem, ← Node.longest_eq hstem, ← Node.exact_eq hstem]
    exact h.dominated ((Node.fate_eq hn).trans hf)
  · exact h.merged ((Node.merged_eq hstem).trans hm)

namespace Woven

/-- One more layer, linked to the deepest one. -/
theorem cons {layer : Layer σ Extended} (h : Woven r cache events layers)
    (hlinked : ∀ i parents, level layers i = some parents → i + 1 = layers.length →
      Linked r i parents layer)
    (hplaced : ∀ n ∈ layer, n.Placed r cache events layers.length) :
    Woven r cache events (layer :: layers) where
  root := by
    obtain ⟨n, hn, hstem⟩ := h.root
    exact ⟨n, level_cons_of_some hn, hstem⟩
  linked := by
    intro i parents layer' hp hl
    have hlt := lt_of_level hl
    rw [List.length_cons] at hlt
    rw [level_cons, if_neg (by omega)] at hp
    rw [level_cons] at hl
    split at hl
    · rename_i hi
      obtain rfl := Option.some.inj hl
      exact hlinked i parents hp hi
    · exact h.linked i parents layer' hp hl
  placed := by
    intro i layer' hl n hn
    rw [level_cons] at hl
    split at hl
    · rename_i hi
      obtain rfl := Option.some.inj hl
      rw [hi]
      exact hplaced n hn
    · exact h.placed i layer' hl n hn

/-- The layers above the deepest one are woven too. -/
theorem of_cons {layer parents : Layer σ Extended}
    (h : Woven r cache events (layer :: parents :: layers)) :
    Woven r cache events (parents :: layers) := by
  refine ⟨?_, fun i p l hp hl => h.linked i p l (level_cons_of_some hp) (level_cons_of_some hl),
    fun i l hl => h.placed i l (level_cons_of_some hl)⟩
  obtain ⟨n, hn, hstem⟩ := h.root
  refine ⟨n, ?_, hstem⟩
  rw [level_cons, if_neg (by simp)] at hn
  exact hn

theorem mono (h : Woven r cache events layers) (hsub : ∀ e ∈ events, e ∈ events') :
    Woven r cache events' layers :=
  ⟨h.root, h.linked, fun i layer hi n hn => (h.placed i layer hi n hn).mono hsub⟩

/-- **What is computed of a diagram later leaves it woven.** -/
theorem congr (h : Woven r cache events layers)
    (hcore : layers.map (·.map Node.core) = layers'.map (·.map Node.core)) :
    Woven r cache events layers' where
  root := by
    obtain ⟨n, hn, hstem⟩ := h.root
    obtain ⟨layer', hlayer', hmap⟩ := level_of_map_eq hcore hn
    obtain ⟨n', hn'⟩ : ∃ n', layer' = #[n'] := by
      rw [← Array.size_eq_one_iff]
      have := congrArg Array.size hmap
      simpa using this.symm
    subst hn'
    refine ⟨n', hlayer', ?_⟩
    have hnode : n.core = n'.core := by simpa using hmap
    rw [← Node.stem_eq_of_core_eq hnode, hstem]
  linked := by
    intro i parents' layer' hp' hl'
    obtain ⟨parents, hp, hpmap⟩ := level_of_map_eq hcore.symm hp'
    obtain ⟨layer, hl, hlmap⟩ := level_of_map_eq hcore.symm hl'
    exact (h.linked i parents layer hp hl).congr hpmap.symm hlmap.symm
  placed := by
    intro i layer' hl' n' hn'
    obtain ⟨layer, hl, hmap⟩ := level_of_map_eq hcore.symm hl'
    obtain ⟨j, hj⟩ := Array.mem_iff_getElem?.1 hn'
    obtain ⟨n, hn, hnode⟩ := Layer.getElem?_of_map_eq hmap hj
    exact (h.placed i layer hl n (Array.mem_of_getElem? hn)).congr hnode.symm

theorem length_pos (h : Woven r cache events layers) : 0 < layers.length := by
  obtain ⟨n, hn, _⟩ := h.root
  exact lt_of_level hn

theorem ne_nil (h : Woven r cache events layers) : layers ≠ [] :=
  List.ne_nil_of_length_pos h.length_pos

theorem exists_last (h : Woven r cache events layers) :
    ∃ last, level layers (layers.length - 1) = some last :=
  exists_level layers (Nat.sub_one_lt_of_lt h.length_pos)

variable {i j : Nat} {layer : Layer σ Extended} {n : Node σ Extended}

/-- The first layer holds the root alone. -/
theorem eq_root (h : Woven r cache events layers) (hl : level layers 0 = some layer)
    (hn : layer[j]? = some n) :
    j = 0 ∧ n.stem = (Node.bare r.residual.state r.residual.depth r.residual.value posInf
      true).stem := by
  obtain ⟨m, hm, hstem⟩ := h.root
  obtain rfl := Option.some.inj (hl.symm.trans hm)
  have hj : j = 0 := by
    have := (Array.getElem?_eq_some_iff.1 hn).1
    simpa using this
  subst hj
  obtain rfl : m = n := by simpa using hn
  exact ⟨rfl, hstem⟩

/-- A node of a layer below the root is joined to the layer above. -/
theorem joined (h : Woven r cache events layers) (hl : level layers (i + 1) = some layer)
    (hn : layer[j]? = some n) :
    ∃ parents, level layers i = some parents ∧ n.Joined r i parents := by
  have hlt := lt_of_level hl
  obtain ⟨parents, hp⟩ := exists_level layers (i := i) (by omega)
  exact ⟨parents, hp, (h.linked i parents layer hp hl).joined n (Array.mem_of_getElem? hn)⟩

omit [BEq σ] in
/-- What climbing reads off from a node below the root. -/
theorem climb_succ (hl : level layers (i + 1) = some layer) (hn : layer[j]? = some n) :
    climb (upward layers (i + 1)) j = climbFrom (upward layers i) n := by
  rw [upward_succ hl, climb, climbFrom, hn]
  rfl

/-- From the root there is nothing to climb. -/
theorem climb_zero (h : Woven r cache events layers) (hl : level layers 0 = some layer)
    (hn : layer[j]? = some n) : climb (upward layers 0) j = [] := by
  obtain ⟨rfl, hstem⟩ := h.eq_root hl hn
  have hbest : n.bestEdge? = none := Node.bestEdge?_eq hstem
  rw [upward_zero hl, climb, hn]
  simp [hbest]

/-- **An exact node is reached by the trail that climbing reads off.** -/
theorem traced (h : Woven r cache events layers) (hl : level layers i = some layer)
    (hn : layer[j]? = some n) (hex : n.exact = true) :
    r.Traced i (climb (upward layers i) j) n.state n.longest := by
  induction i generalizing layer j n with
  | zero =>
    have hstem := (h.eq_root hl hn).2
    rw [h.climb_zero hl hn, Node.state_eq hstem, Node.longest_eq hstem]
    exact .root r
  | succ i ih =>
    obtain ⟨parents, hp, hjoined⟩ := h.joined hl hn
    rw [climb_succ hl hn]
    exact hjoined.traced_of_exact hex fun k p hk hpex => ih hp hk hpex

/-- The path to a node is on the variables that were branched on. -/
theorem freeAfter_climb (h : Woven r cache events layers) (hfocus : r.model.problem.Focused)
    (hl : level layers i = some layer) (hn : layer[j]? = some n) :
    Subproblem.freeAfter r.model.problem.variables
      (r.residual.path ++ climb (upward layers i) j) = r.freeAt i := by
  induction i generalizing layer j n with
  | zero =>
    rw [h.climb_zero hl hn, List.append_nil]
    rfl
  | succ i ih =>
    obtain ⟨parents, hp, hjoined⟩ := h.joined hl hn
    rw [climb_succ hl hn]
    exact hjoined.freeAfter_climbFrom hfocus fun k p hk => ih hp hk

end Woven
end DiagramSearch
