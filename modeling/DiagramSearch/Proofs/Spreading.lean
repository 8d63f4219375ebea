/-
# Passes from a layer to the one above

Tails and thresholds are computed from the deepest layer upwards: each node
tells the starts of its edges something (`Layer.spread`).  Whatever is told, the
two facts that are needed of it are of one kind.

* `spread_invariant`: what every telling respects, the whole pass respects;
* `spread_progress`: what one telling brings about and no other undoes holds in
  the end.
-/

import DiagramSearch.Proofs.ExactValues
import DiagramSearch.Diagram.Node

namespace DiagramSearch

variable {σ : Type}

/-- What a node has to tell the start of an edge, if anything. -/
abbrev Message (σ : Type) :=
  Node σ Extended → Option (Edge Extended → Node σ Extended → Node σ Extended)

/-- A node tells the starts of its edges. -/
def Layer.spread (tell : Message σ) (parents : Layer σ Extended) (n : Node σ Extended) :
    Layer σ Extended :=
  match tell n with
  | none => parents
  | some act => n.inbound.foldl (fun parents e => parents.modify e.source (act e)) parents

namespace Layer

variable {tell : Message σ} {layer parents : Layer σ Extended} {I : Nat → Node σ Extended → Prop}

theorem invariant_modify {V : Type} {parents : Layer σ V} {I : Nat → Node σ V → Prop} {j : Nat}
    {f : Node σ V → Node σ V} (hf : ∀ p, I j p → I j (f p))
    (h : ∀ (k : Nat) p, parents[k]? = some p → I k p) :
    ∀ (k : Nat) p, (parents.modify j f)[k]? = some p → I k p := by
  intro k p hp
  rw [Array.getElem?_modify] at hp
  split at hp
  · rename_i hjk
    subst hjk
    obtain ⟨q, hq, rfl⟩ := Option.map_eq_some_iff.1 hp
    exact hf q (h j q hq)
  · exact h k p hp

/-- A telling respects what each of its acts respects. -/
theorem spread_step {n : Node σ Extended}
    (hstep : ∀ act, tell n = some act → ∀ e ∈ n.inbound, ∀ p, I e.source p → I e.source (act e p))
    (h : ∀ (k : Nat) p, parents[k]? = some p → I k p) :
    ∀ (k : Nat) p, (spread tell parents n)[k]? = some p → I k p := by
  unfold spread
  split
  · exact h
  · rename_i act hact
    exact List.foldlRecOn n.inbound _ (motive := fun l => ∀ (k : Nat) p, l[k]? = some p → I k p) h
      fun l hl e he => invariant_modify (hstep act hact e he) hl

/-- **What every telling respects, the whole pass respects.** -/
theorem spread_invariant (hstep : ∀ n ∈ layer, ∀ act, tell n = some act → ∀ e ∈ n.inbound, ∀ p,
      I e.source p → I e.source (act e p))
    (h : ∀ (k : Nat) p, parents[k]? = some p → I k p) :
    ∀ (k : Nat) p, (layer.foldl (spread tell) parents)[k]? = some p → I k p := by
  rw [← Array.foldl_toList]
  exact List.foldlRecOn layer.toList _ (motive := fun l => ∀ (k : Nat) p, l[k]? = some p → I k p) h
    fun l hl n hn => spread_step (hstep n (Array.mem_toList_iff.1 hn)) hl

/-- **What one telling brings about and no other undoes holds in the end.** -/
theorem spread_progress {J : Node σ Extended → Prop} {n : Node σ Extended} {e : Edge Extended}
    {act : Edge Extended → Node σ Extended → Node σ Extended} (hn : n ∈ layer)
    (hact : tell n = some act) (he : e ∈ n.inbound) (hJ : ∀ p, J (act e p))
    (hstep : ∀ m ∈ layer, ∀ act, tell m = some act → ∀ f ∈ m.inbound, f.source = e.source → ∀ p,
      J p → J (act f p))
    {p : Node σ Extended} (hp : (layer.foldl (spread tell) parents)[e.source]? = some p) : J p := by
  obtain ⟨ns, ms, hsplit⟩ := List.append_of_mem (Array.mem_toList_iff.2 hn)
  obtain ⟨es, fs, hedges⟩ := List.append_of_mem he
  have hlater : ∀ m ∈ n :: ms, ∀ act, tell m = some act → ∀ f ∈ m.inbound, ∀ p,
      (f.source = e.source → J p) → f.source = e.source → J (act f p) := by
    intro m hm act hact f hf p hp hfe
    have hmem : m ∈ layer.toList := by rw [hsplit]; exact List.mem_append_right ns hm
    exact hstep m (Array.mem_toList_iff.1 hmem) act hact f hf hfe p (hp hfe)
  -- The telling of the edge itself, and then those of the same node.
  have hown : ∀ (l : Layer σ Extended) (k : Nat) p, (spread tell l n)[k]? = some p →
      k = e.source → J p := by
    intro l
    unfold spread
    rw [hact, hedges]
    simp only [List.foldl_append, List.foldl_cons]
    generalize es.foldl (fun parents e => parents.modify e.source (act e)) l = l'
    refine List.foldlRecOn fs _
      (motive := fun l => ∀ (k : Nat) p, l[k]? = some p → k = e.source → J p) ?_ ?_
    · intro k p hp hk
      subst hk
      rw [Array.getElem?_modify, if_pos rfl] at hp
      obtain ⟨q, _, rfl⟩ := Option.map_eq_some_iff.1 hp
      exact hJ q
    · intro l hl f hf
      refine invariant_modify (I := fun k p => k = e.source → J p) ?_ hl
      refine hlater n List.mem_cons_self act hact f ?_
      rw [hedges]
      exact List.mem_append_right es (List.mem_cons_of_mem e hf)
  rw [← Array.foldl_toList, hsplit, List.foldl_append, List.foldl_cons] at hp
  refine List.foldlRecOn ms _
    (motive := fun l => ∀ (k : Nat) p, l[k]? = some p → k = e.source → J p) (hown _) ?_ _ p hp rfl
  intro l hl m hm
  exact spread_step (I := fun k p => k = e.source → J p)
    (hlater m (List.mem_cons_of_mem n hm)) hl

theorem map_modify_eq {V α : Type} {g : Node σ V → α} {f : Node σ V → Node σ V}
    (h : ∀ p, g (f p) = g p) (l : Layer σ V) (j : Nat) : (l.modify j f).map g = l.map g := by
  refine Array.ext_getElem? fun k => ?_
  rw [Array.getElem?_map, Array.getElem?_map, Array.getElem?_modify]
  split
  · rw [Option.map_map]
    congr 1
    funext p
    exact h p
  · rfl

/-- A pass leaves alone what its messages leave alone. -/
theorem map_foldl_spread {α : Type} {g : Node σ Extended → α}
    (h : ∀ n act, tell n = some act → ∀ e p, g (act e p) = g p) (layer parents : Layer σ Extended) :
    (layer.foldl (spread tell) parents).map g = parents.map g := by
  rw [← Array.foldl_toList]
  refine List.foldlRecOn layer.toList _
    (motive := fun l : Layer σ Extended => l.map g = parents.map g) rfl ?_
  intro l hl n _
  unfold spread
  split
  · exact hl
  · rename_i act hact
    refine List.foldlRecOn n.inbound _
      (motive := fun l : Layer σ Extended => l.map g = parents.map g) hl ?_
    intro l' hl' e _
    rw [map_modify_eq (h n act hact e)]
    exact hl'

end Layer
end DiagramSearch
