/-
# Where the nodes of a diagram come from

Bounds, merges and dominance may be wrong, and a diagram still never makes up a
path: a node that is not merged has its value from its best edge, which is a
decision of the problem taken in a node of the layer above.

* `Lineage`: what a node knows of where it comes from.  Selecting, dropping and
  all that is computed once a diagram is unrolled leave it alone;
* `Lineal`: layers in which every node that is exact or not merged descends from a
  node of the layer above;
* `Lineal.follows`: **climbing to an exact node before any merged one reads off
  decisions that can be taken one after the other**, and that add up to the value
  of the node where the climb began.
-/

import DiagramSearch.Proofs.Following
import DiagramSearch.Proofs.Linkage
import DiagramSearch.Diagram.Summary

namespace DiagramSearch

open Diagram

/-- What a node knows of where it comes from. -/
structure Lineage (σ V : Type) where
  state : σ
  depth : Nat
  longest : V
  inbound : List (Edge V)
  /-- The best edge. -/
  edge : Option (Edge V)
  exact : Bool
  merged : Bool

variable {σ V : Type}

/-- What a node knows of where it comes from. -/
def Node.lineage (n : Node σ V) : Lineage σ V :=
  ⟨n.state, n.depth, n.longest, n.inbound, n.bestEdge?, n.exact, n.merged⟩

/-- Layers as far as descent is concerned. -/
def lineages (layers : List (Layer σ V)) : List (Array (Lineage σ V)) :=
  layers.map (·.map Node.lineage)

theorem length_eq_of_lineages {layers layers' : List (Layer σ V)}
    (h : lineages layers = lineages layers') : layers.length = layers'.length := by
  simpa [lineages] using congrArg List.length h

theorem lineages_drop {layers layers' : List (Layer σ V)} (h : lineages layers = lineages layers')
    (k : Nat) : lineages (layers.drop k) = lineages (layers'.drop k) := by
  rw [lineages, lineages, List.map_drop, List.map_drop]
  exact congrArg (List.drop k) h

namespace Layer

/-- What leaves the lineage of each node alone leaves those of a layer alone. -/
theorem lineage_modify {f : Node σ V → Node σ V} (hf : ∀ n, (f n).lineage = n.lineage)
    (layer : Layer σ V) (j : Nat) :
    (layer.modify j f).map Node.lineage = layer.map Node.lineage := by
  refine Array.ext_getElem? fun k => ?_
  rw [Array.getElem?_map, Array.getElem?_map, Array.getElem?_modify]
  split
  · rw [Option.map_map]
    exact congrArg (Option.map · _) (funext hf)
  · rfl

theorem lineage_map {f : Node σ V → Node σ V} (hf : ∀ n, (f n).lineage = n.lineage)
    (layer : Layer σ V) : (layer.map f).map Node.lineage = layer.map Node.lineage := by
  rw [Array.map_map]
  exact Array.map_congr_left fun n _ => hf n

/-- So does a pass made of such steps. -/
theorem lineage_foldl {α : Type} {step : Layer σ V → α → Layer σ V} {as : List α}
    (hstep : ∀ layer, ∀ a ∈ as, (step layer a).map Node.lineage = layer.map Node.lineage)
    (layer : Layer σ V) : (as.foldl step layer).map Node.lineage = layer.map Node.lineage := by
  refine List.foldlRecOn as step (motive := fun l => l.map Node.lineage = layer.map Node.lineage)
    rfl fun l hl a ha => ?_
  exact (hstep l a ha).trans hl

theorem exists_lineage_eq {layer layer' : Layer σ V}
    (h : layer.map Node.lineage = layer'.map Node.lineage) {n : Node σ V} (hn : n ∈ layer) :
    ∃ n' ∈ layer', n.lineage = n'.lineage := by
  obtain ⟨j, hj⟩ := Array.mem_iff_getElem?.1 hn
  obtain ⟨n', hn', heq⟩ := getElem?_of_map_eq h hj
  exact ⟨n', Array.mem_of_getElem? hn', heq⟩

end Layer

/-! ### Descent from one layer to the next -/

variable [Value V]

/-- A node that owes its value to an edge from another one. -/
structure Lineage.From (p : Problem σ V) (x : Nat) (n : Lineage σ V) (e : Edge V)
    (q : Lineage σ V) : Prop where
  edge : n.edge = some e
  possible : e.decision ∈ p.domain x q.state
  state : n.state = p.transition 0 q.state e.decision
  longest : n.longest = q.longest + p.cost q.state e.decision
  exact : n.exact = true → q.exact = true

/-- A node that descends from a node of a layer, unless it is merged or its value
is undefined. -/
def Lineage.Bred (p : Problem σ V) (x : Nat) (parents : Layer σ V) (n : Lineage σ V) : Prop :=
  n.exact = true ∨ n.merged = false → n.longest ≤ n.longest →
    ∃ e q, parents[e.source]? = some q ∧ n.From p x e q.lineage

/-- Layers, deepest first, each of which was branched on one of the variables that
were free.  Those that are left free come with them. -/
inductive Lineal (p : Problem σ V) (root : Subproblem σ V) :
    Variables → List (Layer σ V) → Prop where
  | root {layer : Layer σ V}
      (h : ∀ n ∈ layer, n.bestEdge? = none ∧ n.state = root.state ∧ n.longest = root.value) :
      Lineal p root (root.free p.variables) [layer]
  | next {free : Variables} {x : Nat} {layer parents : Layer σ V} {above : List (Layer σ V)}
      (hx : x ∈ free) (h : Lineal p root free (parents :: above))
      (hbred : ∀ n ∈ layer, n.lineage.Bred p x parents) :
      Lineal p root (free.erase x) (layer :: parents :: above)

section Congr

variable {p : Problem σ V} {root : Subproblem σ V} {free : Variables} {x : Nat}

theorem Lineage.Bred.congr {parents parents' : Layer σ V} {n : Lineage σ V}
    (hparents : parents.map Node.lineage = parents'.map Node.lineage) (h : n.Bred p x parents) :
    n.Bred p x parents' := by
  intro hgenuine hdef
  obtain ⟨e, q, hq, hfrom⟩ := h hgenuine hdef
  obtain ⟨q', hq', heq⟩ := Layer.getElem?_of_map_eq hparents hq
  rw [heq] at hfrom
  exact ⟨e, q', hq', hfrom⟩

/-- The deepest layer may be replaced by one with the same lineages. -/
theorem Lineal.congr_head {layer layer' : Layer σ V} {above : List (Layer σ V)}
    (heq : layer.map Node.lineage = layer'.map Node.lineage)
    (h : Lineal p root free (layer :: above)) : Lineal p root free (layer' :: above) := by
  cases h with
  | root h =>
    refine .root fun n' hn' => ?_
    obtain ⟨n, hn, hsame⟩ := Layer.exists_lineage_eq heq.symm hn'
    obtain ⟨hedge, hstate, hlongest⟩ := h n hn
    exact ⟨(congrArg Lineage.edge hsame).trans hedge, (congrArg Lineage.state hsame).trans hstate,
      (congrArg Lineage.longest hsame).trans hlongest⟩
  | next hx h hbred =>
    refine .next hx h fun n' hn' => ?_
    obtain ⟨n, hn, hsame⟩ := Layer.exists_lineage_eq heq.symm hn'
    rw [hsame]
    exact hbred n hn

/-- **Descent does not depend on what is computed later.** -/
theorem Lineal.congr {layers layers' : List (Layer σ V)} (heq : lineages layers = lineages layers')
    (h : Lineal p root free layers) : Lineal p root free layers' := by
  induction h generalizing layers' with
  | root h =>
    obtain ⟨layer', rfl, hlayer⟩ := List.map_eq_singleton_iff.1 heq.symm
    exact (Lineal.root h).congr_head hlayer.symm
  | @next free x layer parents above hx _ hbred ih =>
    obtain ⟨layer', rest, rfl, hlayer, hrest⟩ := List.map_eq_cons_iff.1 heq.symm
    obtain ⟨parents', above', rfl, hparents, habove⟩ := List.map_eq_cons_iff.1 hrest
    have hlineal := @ih (parents' :: above') hrest.symm
    exact (Lineal.next hx hlineal fun n hn =>
      (hbred n hn).congr hparents.symm).congr_head hlayer.symm

omit [Value V] in
/-- Nor does the way to an exact node. -/
theorem climbsToExact_congr {layers layers' : List (Layer σ V)}
    (heq : lineages layers = lineages layers') (i : Nat) :
    climbsToExact layers i = climbsToExact layers' i := by
  induction layers generalizing layers' i with
  | nil => rw [List.map_eq_nil_iff.1 heq.symm]
  | cons layer above ih =>
    obtain ⟨layer', above', rfl, hlayer, habove⟩ := List.map_eq_cons_iff.1 heq.symm
    have hnode : (layer[i]?).map Node.lineage = (layer'[i]?).map Node.lineage := by
      rw [← Array.getElem?_map, ← Array.getElem?_map, hlayer]
    cases hn : layer[i]? with
    | none =>
      rw [hn] at hnode
      rw [climbsToExact, climbsToExact, hn, Option.map_eq_none_iff.1 hnode.symm]
    | some n =>
      rw [hn] at hnode
      obtain ⟨n', hn', hsame⟩ := Option.map_eq_some_iff.1 hnode.symm
      have hexact : n'.exact = n.exact := congrArg Lineage.exact hsame
      have hmerged : n'.merged = n.merged := congrArg Lineage.merged hsame
      have hedge : n'.bestEdge? = n.bestEdge? := congrArg Lineage.edge hsame
      rw [climbsToExact, climbsToExact, hn, hn']
      simp only [hexact, hmerged, hedge]
      split
      · rfl
      · split
        · rfl
        · split
          · exact ih habove.symm _
          · rfl

/-- Nodes further up descend from the root as well. -/
theorem Lineal.drop {layers : List (Layer σ V)} (h : Lineal p root free layers) (k : Nat)
    (hk : k < layers.length) : ∃ free', Lineal p root free' (layers.drop k) := by
  induction k generalizing free layers with
  | zero => exact ⟨free, h⟩
  | succ k ih =>
    cases h with
    | root => exact absurd hk (by simp)
    | next _ h => exact ih h (by simpa using hk)

end Congr

/-! ### Climbing -/

section Climb

variable {p : Problem σ V} {root : Subproblem σ V} {free : Variables} {x : Nat}
  {layer parents : Layer σ V} {above : List (Layer σ V)} {i : Nat} {n : Node σ V}

omit [Value V] in
theorem climbsToExact_of_exact (hn : layer[i]? = some n) (hexact : n.exact = true) :
    climbsToExact (layer :: above) i = true := by
  rw [climbsToExact, hn]
  simp only [hexact, if_pos]

omit [Value V] in
/-- A climb that may be trusted starts at a node that is exact or not merged. -/
theorem genuine_of_climbsToExact (hn : layer[i]? = some n)
    (htrust : climbsToExact (layer :: above) i = true) : n.exact = true ∨ n.merged = false := by
  rw [climbsToExact, hn] at htrust
  cases hexact : n.exact with
  | true => exact .inl rfl
  | false =>
    cases hmerged : n.merged with
    | false => exact .inr rfl
    | true => simp [hexact, hmerged] at htrust

/-- It may be trusted from the next node on, too. -/
theorem Lineage.From.climbsToExact {e : Edge V} {q : Node σ V}
    (h : n.lineage.From p x e q.lineage) (hn : layer[i]? = some n)
    (hq : parents[e.source]? = some q)
    (htrust : Diagram.climbsToExact (layer :: parents :: above) i = true) :
    Diagram.climbsToExact (parents :: above) e.source = true := by
  cases hexact : n.exact with
  | true => exact climbsToExact_of_exact hq (h.exact hexact)
  | false =>
    have hedge : n.bestEdge? = some e := h.edge
    rcases genuine_of_climbsToExact hn htrust with hn' | hmerged
    · rw [hexact] at hn'
      cases hn'
    · rw [Diagram.climbsToExact, hn] at htrust
      simpa [hexact, hmerged, hedge] using htrust

theorem Lineal.lt_variables {layers : List (Layer σ V)} (h : Lineal p root free layers)
    (hx : x ∈ free) : x < p.variables := by
  induction h with
  | root => exact (Subproblem.mem_freeAfter.1 hx).1
  | next _ _ _ ih => exact ih (Variables.mem_erase.1 hx).1

omit [Value V] in
theorem Variables.perm_erase {s : Variables} {x : Nat} (hx : x ∈ s) :
    (x :: (s.erase x).toList).Perm s.toList := by
  have hnot : x ∉ (s.erase x).toList := fun hmem => (Variables.mem_erase.1 hmem).2 rfl
  refine (List.perm_ext_iff_of_nodup (List.nodup_cons.2 ⟨hnot, Variables.nodup _⟩)
    (Variables.nodup s)).2 fun y => ?_
  rw [List.mem_cons, ← Variables.mem_def, ← Variables.mem_def, Variables.mem_erase]
  by_cases hy : y = x
  · simp [hy, hx]
  · simp [hy]

section Trusted

variable [Value.Lawful V]

/-- What holds of the root and is handed down along best edges holds of each climb that may
be trusted: of the variables that are left free, the number of layers above, the decisions
and the node where it began. -/
theorem Lineal.climb_induction {M : Variables → Nat → Path → Node σ V → Prop}
    (hroot : ∀ n : Node σ V, n.state = root.state → n.longest = root.value →
      M (root.free p.variables) 0 [] n)
    (hnext : ∀ {free x k ds e q n}, x ∈ free → x < p.variables →
      n.lineage.From p x e q.lineage → M free k ds q →
      M (free.erase x) (k + 1) (e.decision :: ds) n)
    (h : Lineal p root free (layer :: above)) (hn : layer[i]? = some n)
    (htrust : climbsToExact (layer :: above) i = true) (hdef : n.longest ≤ n.longest) :
    M free above.length (climb (layer :: above) i) n := by
  generalize hlayers : layer :: above = layers at h htrust ⊢
  induction h generalizing layer above i n with
  | root h =>
    obtain ⟨rfl, rfl⟩ := List.cons.inj hlayers
    obtain ⟨hedge, hstate, hlongest⟩ := h n (Array.mem_of_getElem? hn)
    rw [climb, hn, Option.bind_eq_bind, Option.bind_some, hedge]
    exact hroot n hstate hlongest
  | next hx h hbred ih =>
    obtain ⟨rfl, rfl⟩ := List.cons.inj hlayers
    obtain ⟨e, q, hq, hfrom⟩ := hbred n (Array.mem_of_getElem? hn)
      (genuine_of_climbsToExact hn htrust) hdef
    have hedge : n.bestEdge? = some e := hfrom.edge
    have hlongest : n.longest = q.longest + p.cost q.state e.decision := hfrom.longest
    rw [hlongest] at hdef
    have hup := ih hq (Value.Lawful.defined_of_add hdef) rfl (hfrom.climbsToExact hn hq htrust)
    rw [climb, hn, Option.bind_eq_bind, Option.bind_some, hedge]
    exact hnext hx (h.lt_variables hx) hfrom hup

/-- **Climbing reads off decisions that can be taken one after the other**, and
that add up to the value of the node. -/
theorem Lineal.follows (h : Lineal p root free (layer :: above))
    (hn : layer[i]? = some n) (htrust : climbsToExact (layer :: above) i = true)
    (hdef : n.longest ≤ n.longest) :
    p.Follows (climb (layer :: above) i).reverse root.state root.value n.state n.longest := by
  refine h.climb_induction (M := fun _ _ ds n =>
    p.Follows ds.reverse root.state root.value n.state n.longest) ?_ ?_ hn htrust hdef
  · intro n hstate hlongest
    rw [hstate, hlongest]
    exact .nil _ _
  · intro free x k ds e q n _ hlt hfrom hup
    have hstate : n.state = p.transition 0 q.state e.decision := hfrom.state
    have hlongest : n.longest = q.longest + p.cost q.state e.decision := hfrom.longest
    rw [List.reverse_cons, hstate, hlongest]
    exact hup.snoc hlt hfrom.possible

/-- It reads off one for each of the layers above. -/
theorem Lineal.length_climb (h : Lineal p root free (layer :: above)) (hn : layer[i]? = some n)
    (htrust : climbsToExact (layer :: above) i = true) (hdef : n.longest ≤ n.longest) :
    (climb (layer :: above) i).length = above.length :=
  h.climb_induction (M := fun _ k ds _ => ds.length = k) (fun _ _ _ => rfl)
    (fun _ _ _ hup => congrArg (· + 1) hup) hn htrust hdef

/-- **Climbing meets each variable that was branched on, once.** -/
theorem Lineal.perm_free (hfocus : p.Focused)
    (h : Lineal p root free (layer :: above)) (hn : layer[i]? = some n)
    (htrust : climbsToExact (layer :: above) i = true) (hdef : n.longest ≤ n.longest) :
    ((climb (layer :: above) i).map (·.var) ++ free.toList).Perm
      (root.free p.variables).toList := by
  refine h.climb_induction (M := fun free _ ds _ =>
    (ds.map (·.var) ++ free.toList).Perm (root.free p.variables).toList) ?_ ?_ hn htrust hdef
  · exact fun _ _ _ => .refl _
  · intro free x k ds e q n hx _ hfrom hup
    simp only [List.map_cons, hfocus x q.state e.decision hfrom.possible]
    -- The variable moves from the free ones to those that were decided.
    refine List.Perm.trans ?_ hup
    refine (List.perm_middle.symm).trans ?_
    exact (Variables.perm_erase hx).append_left _

end Trusted

end Climb
end DiagramSearch
