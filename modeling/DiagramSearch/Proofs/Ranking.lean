/-
# The best nodes of a diagram

`Layer.Chooses` says what it means that a position is that of a best node;
`best?_chooses` that a scan of the layer finds one.  `Ranked` says it of a whole
diagram, whose values and solutions are then those of its best nodes.

* `Ranked.exists_bestValue`: a node of the deepest layer is worth at most the
  best value;
* `Woven.traced_of_climbs`: a path that meets an exact node before any merged
  one is a trail, so its value can be had.
-/

import DiagramSearch.Proofs.Resolving
import Mathlib.Data.List.Induction

namespace DiagramSearch

open Extended Diagram

variable {σ κ : Type}

/-! ### Choosing a best node -/

section Choose

variable {V : Type} [Value V]

/-- A position that holds a best one of the accepted nodes, or none if there are
no such nodes. -/
def Layer.Chooses (layer : Layer σ V) (accepts : Node σ V → Bool) : Option Nat → Prop
  | none => ∀ n ∈ layer, accepts n = false
  | some i => ∃ n, layer[i]? = some n ∧ accepts n = true ∧
    ∀ m ∈ layer, accepts m = true → m.longest ≤ n.longest

/-- One step of the scan: an accepted node that is no worse takes over. -/
def bestStep (accepts : Node σ V → Bool) (best : Option (Nat × V))
    (entry : Node σ V × Nat) : Option (Nat × V) :=
  if accepts entry.1 then
    match best with
    | none => some (entry.2, entry.1.longest)
    | some (j, v) => if v ≤ entry.1.longest then some (entry.2, entry.1.longest) else some (j, v)
  else best

theorem best?_eq (layer : Layer σ V) (accepts : Node σ V → Bool) :
    layer.best? accepts = (layer.toList.zipIdx.foldl (bestStep accepts) none).map (·.1) := rfl

/-- What the scan holds after some entries. -/
def Scanned (accepts : Node σ V → Bool) (entries : List (Node σ V × Nat)) :
    Option (Nat × V) → Prop
  | none => ∀ x ∈ entries, accepts x.1 = false
  | some (i, v) => ∃ n, (n, i) ∈ entries ∧ accepts n = true ∧ n.longest = v ∧
    ∀ x ∈ entries, accepts x.1 = true → x.1.longest ≤ v

variable [Value.Exact V]

theorem Scanned.step {accepts : Node σ V → Bool} {entries : List (Node σ V × Nat)}
    {best : Option (Nat × V)} (h : Scanned accepts entries best) (x : Node σ V × Nat) :
    Scanned accepts (entries ++ [x]) (bestStep accepts best x) := by
  have hmem : ∀ {y}, y ∈ entries ++ [x] → y ∈ entries ∨ y = x := fun hy =>
    (List.mem_append.1 hy).imp_right List.mem_singleton.1
  have hlast : x ∈ entries ++ [x] := List.mem_append_right _ (List.mem_singleton.2 rfl)
  unfold bestStep
  split
  · rename_i hx
    rcases best with _ | ⟨j, v⟩
    · refine ⟨x.1, hlast, hx, rfl, fun y hy hacc => ?_⟩
      rcases hmem hy with hy | rfl
      · rw [h y hy] at hacc
        cases hacc
      · exact Value.Exact.le_refl _
    · obtain ⟨n, hn, hacc, hv, hle⟩ := h
      dsimp only
      split
      · rename_i hvx
        refine ⟨x.1, hlast, hx, rfl, fun y hy hacc => ?_⟩
        rcases hmem hy with hy | rfl
        · exact Value.Exact.le_trans (hle y hy hacc) hvx
        · exact Value.Exact.le_refl _
      · rename_i hvx
        refine ⟨n, List.mem_append_left _ hn, hacc, hv, fun y hy hacc => ?_⟩
        rcases hmem hy with hy | rfl
        · exact hle y hy hacc
        · exact (Value.Exact.le_total _ _).resolve_right hvx
  · rename_i hx
    rcases best with _ | ⟨j, v⟩
    · intro y hy
      rcases hmem hy with hy | rfl
      · exact h y hy
      · exact Bool.eq_false_iff.2 hx
    · obtain ⟨n, hn, hacc, hv, hle⟩ := h
      refine ⟨n, List.mem_append_left _ hn, hacc, hv, fun y hy hacc => ?_⟩
      rcases hmem hy with hy | rfl
      · exact hle y hy hacc
      · exact absurd hacc hx

theorem foldl_bestStep_scanned (accepts : Node σ V → Bool) (entries : List (Node σ V × Nat)) :
    Scanned accepts entries (entries.foldl (bestStep accepts) none) := by
  induction entries using List.reverseRecOn with
  | nil => exact fun x hx => absurd hx List.not_mem_nil
  | append_singleton xs x ih =>
    rw [List.foldl_append]
    exact ih.step x

/-- **The scan of a layer finds a best node.** -/
theorem best?_chooses (layer : Layer σ V) (accepts : Node σ V → Bool) :
    layer.Chooses accepts (layer.best? accepts) := by
  have hmem : ∀ {n i}, (n, i) ∈ layer.toList.zipIdx ↔ layer[i]? = some n := by
    intro n i
    rw [List.mk_mem_zipIdx_iff_getElem?, Array.getElem?_toList]
  have hentry : ∀ {n}, n ∈ layer → ∃ i, (n, i) ∈ layer.toList.zipIdx := by
    intro n hn
    obtain ⟨i, hi⟩ := Array.mem_iff_getElem?.1 hn
    exact ⟨i, hmem.2 hi⟩
  rw [best?_eq]
  have h := foldl_bestStep_scanned accepts layer.toList.zipIdx
  generalize layer.toList.zipIdx.foldl (bestStep accepts) none = best at h
  rcases best with _ | ⟨i, v⟩
  · intro n hn
    obtain ⟨i, hi⟩ := hentry hn
    exact h _ hi
  · obtain ⟨n, hn, hacc, hv, hle⟩ := h
    refine ⟨n, hmem.1 hn, hacc, fun m hm hacc' => ?_⟩
    obtain ⟨j, hj⟩ := hentry hm
    rw [hv]
    exact hle _ hj hacc'

end Choose

theorem Layer.Chooses.congr {layer layer' : Layer σ Extended} {accepts : Node σ Extended → Bool}
    {o : Option Nat} (hcore : layer.map Node.core = layer'.map Node.core)
    (hacc : ∀ n n' : Node σ Extended, n.core = n'.core → accepts n = accepts n')
    (h : layer.Chooses accepts o) : layer'.Chooses accepts o := by
  have hback : ∀ {m' : Node σ Extended}, m' ∈ layer' → ∃ m ∈ layer, m.core = m'.core := by
    intro m' hm'
    obtain ⟨j, hj⟩ := Array.mem_iff_getElem?.1 hm'
    obtain ⟨m, hm, heq⟩ := Layer.getElem?_of_map_eq hcore.symm hj
    exact ⟨m, Array.mem_of_getElem? hm, heq.symm⟩
  rcases o with _ | i
  · intro n' hn'
    obtain ⟨n, hn, heq⟩ := hback hn'
    rw [← hacc n n' heq]
    exact h n hn
  · obtain ⟨n, hn, hn_acc, hle⟩ := h
    obtain ⟨n', hn', heq⟩ := Layer.getElem?_of_map_eq hcore hn
    refine ⟨n', hn', by rw [← hacc n n' heq]; exact hn_acc, fun m' hm' hm_acc => ?_⟩
    obtain ⟨m, hm, hmeq⟩ := hback hm'
    rw [← Node.longest_eq (Node.stem_eq_of_core_eq hmeq),
      ← Node.longest_eq (Node.stem_eq_of_core_eq heq)]
    exact hle m hm (by rw [hacc m m' hmeq]; exact hm_acc)

/-! ### The best nodes of a diagram -/

/-- The best nodes of the deepest layer are known. -/
structure Ranked (d : Diagram σ Extended) : Prop where
  best : ∀ last, level d.layers (d.layers.length - 1) = some last →
    last.Chooses (·.isAlive) d.best
  bestExact : ∀ last, level d.layers (d.layers.length - 1) = some last →
    last.Chooses (fun n => n.isAlive && n.exact) d.bestExact

theorem Ranked.congr {d : Diagram σ Extended} (h : Ranked d) {layers : List (Layer σ Extended)}
    (hcore : layers.map (·.map Node.core) = d.layers.map (·.map Node.core))
    {d' : Diagram σ Extended} (hlayers : d'.layers = layers) (hbest : d'.best = d.best)
    (hbestExact : d'.bestExact = d.bestExact) : Ranked d' := by
  have hlen : layers.length = d.layers.length := by
    have := congrArg List.length hcore
    simpa using this
  constructor
  · intro last hl
    rw [hlayers, hlen] at hl
    obtain ⟨last', hl', heq⟩ := level_of_map_eq hcore hl
    rw [hbest]
    exact (h.best last' hl').congr heq.symm fun n n' hn => Node.isAlive_eq hn
  · intro last hl
    rw [hlayers, hlen] at hl
    obtain ⟨last', hl', heq⟩ := level_of_map_eq hcore hl
    rw [hbestExact]
    refine (h.bestExact last' hl').congr heq.symm fun n n' hn => ?_
    rw [Node.isAlive_eq hn, Node.exact_eq (Node.stem_eq_of_core_eq hn)]

theorem terminal?_eq {d : Diagram σ Extended} {last : Layer σ Extended}
    (hl : level d.layers (d.layers.length - 1) = some last) (j : Nat) :
    d.terminal? j = last[j]? := by
  rw [level_eq_getElem? (lt_of_level hl), Nat.sub_self, ← List.head?_eq_getElem?] at hl
  rw [terminal?, hl]
  rfl

theorem upward_last (layers : List (Layer σ Extended)) :
    upward layers (layers.length - 1) = layers := by
  rw [upward, Nat.sub_self, List.drop_zero]

/-- The node at a chosen position gives the value. -/
theorem Layer.Chooses.map_longest {d : Diagram σ Extended} {last : Layer σ Extended}
    {accepts : Node σ Extended → Bool} {o : Option Nat}
    (hl : level d.layers (d.layers.length - 1) = some last) (h : last.Chooses accepts o)
    {z : Node σ Extended} (hz : z ∈ last) (hacc : accepts z = true) :
    ∃ v, (o >>= d.terminal?).map (·.longest) = some v ∧ z.longest ≤ v := by
  rcases o with _ | i
  · rw [h z hz] at hacc
    cases hacc
  · obtain ⟨n, hn, _, hle⟩ := h
    refine ⟨n.longest, ?_, hle z hz hacc⟩
    change (d.terminal? i).map _ = _
    rw [terminal?_eq hl, hn]
    rfl

namespace Ranked

variable {d : Diagram σ Extended} {target : Extended}

/-- **The best value is at least that of any node of the deepest layer.** -/
theorem exists_bestValue (h : Ranked d) (hz : Attained d.layers target fun _ => True) :
    ∃ v, d.bestValue = some v ∧ target ≤ v := by
  obtain ⟨last, z, hl, hz, halive, _, hle⟩ := hz
  obtain ⟨v, hv, hzv⟩ := (h.best last hl).map_longest hl hz halive
  exact ⟨v, hv, hle.trans hzv⟩

theorem exists_bestExactValue (h : Ranked d)
    (hz : Attained d.layers target fun n => n.exact = true) :
    ∃ v, d.bestExactValue = some v ∧ target ≤ v := by
  obtain ⟨last, z, hl, hz, halive, hex, hle⟩ := hz
  obtain ⟨v, hv, hzv⟩ := (h.bestExact last hl).map_longest hl hz
    (Bool.and_eq_true_iff.2 ⟨halive, hex⟩)
  exact ⟨v, hv, hle.trans hzv⟩

end Ranked

/-- A value that a diagram tells is that of a node, whose path it tells too. -/
theorem Layer.Chooses.node_of_value {d : Diagram σ Extended} {last : Layer σ Extended}
    {accepts : Node σ Extended → Bool} {o : Option Nat} {v : Extended}
    (hl : level d.layers (d.layers.length - 1) = some last) (h : last.Chooses accepts o)
    (hv : (o >>= d.terminal?).map (·.longest) = some v) :
    ∃ j z, o = some j ∧ last[j]? = some z ∧ accepts z = true ∧ z.longest = v := by
  rcases o with _ | j
  · cases hv
  · obtain ⟨n, hn, hacc, _⟩ := h
    refine ⟨j, n, rfl, hn, hacc, ?_⟩
    change (d.terminal? j).map _ = _ at hv
    rw [terminal?_eq hl, hn] at hv
    exact Option.some.inj hv

/-! ### Paths that meet an exact node -/

/-- The path to a node depends on the cores of the nodes alone. -/
theorem climb_congr {layers layers' : List (Layer σ Extended)}
    (h : layers.map (·.map Node.core) = layers'.map (·.map Node.core)) (j : Nat) :
    climb layers j = climb layers' j :=
  climb_of_edges (map_map_eq (f := Node.core) Node.bestEdge? (fun _ => rfl) h) j

/-- **A path that meets an exact node before any merged one is a trail.** -/
theorem Woven.traced_of_climbs [BEq σ] {r : Request σ κ Extended} {cache : Cache σ Extended}
    {events : List (Event σ Extended)} {layers : List (Layer σ Extended)}
    (h : Woven r cache events layers) {i j : Nat} {layer : Layer σ Extended} {n : Node σ Extended}
    (hl : level layers i = some layer) (hn : layer[j]? = some n)
    (hclimb : climbsToExact (upward layers i) j = true) :
    r.Traced i (climb (upward layers i) j) n.state n.longest := by
  induction i generalizing layer j n with
  | zero => exact h.traced hl hn (Node.exact_eq (h.eq_root hl hn).2)
  | succ i ih =>
    cases hex : n.exact with
    | true => exact h.traced hl hn hex
    | false =>
      obtain ⟨parents, hp, hjoined⟩ := h.joined hl hn
      obtain ⟨e, p, he, hpe, _⟩ := hjoined.best
      rw [upward_succ hl, climbsToExact, hn] at hclimb
      simp only [hex, Bool.false_eq_true, if_false, he] at hclimb
      split at hclimb
      · cases hclimb
      · rename_i hm
        rw [climb_succ hl hn, climbFrom, he]
        exact hjoined.traced (Bool.eq_false_iff.2 hm) he hpe (ih hp hpe hclimb)

end DiagramSearch
