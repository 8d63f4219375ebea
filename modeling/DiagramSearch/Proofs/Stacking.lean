/-
# How the nodes of a diagram are stacked

Each layer of a diagram is one deeper than the layer above it, and that is so of every
node of it: a node is created one deeper than the node it is reached from, and a merged
node is as deep as those that it absorbs.  Decisions that lead to the same state lead to
the same node, and a node that is merged is not exact; so the exact nodes of a layer all
have states of their own.  Bounds, merges, dominance and the cache may be wrong,
transitions impure, and values undefined.

* `settleLayer_origin`: **completing a layer leaves nodes at their places**, and adds at
  most one, which is not exact;
* `Rounds.stacked`, `Rounds.distinct`: what holds in every round;
* `Request.compile_tiered`: **the cut-set of a diagram lists exact nodes below the root,
  each once**;
* `Diagram.Tiered.deeper`, `Diagram.Tiered.pairwise_handOut`: what is handed out is deeper
  than the root of the diagram, and no state is handed out twice at the same depth.
-/

import DiagramSearch.Proofs.Laddering

namespace DiagramSearch

open Diagram

variable {σ κ V : Type}

/-! ### Where the nodes of a completed layer come from -/

/-- A node that stands in for another: it has its state and its depth, and is exact only if
that one was. -/
structure Node.Replaces (n m : Node σ V) : Prop where
  state : n.state = m.state
  depth : n.depth = m.depth
  exact : n.exact = true → m.exact = true

/-- Where a node comes from, given the layer as it was: it stands in for the one at its
place, or it is new, and then it is not exact and as deep as one of the others. -/
def Layer.Origin (layer : Layer σ V) (j : Nat) (n : Node σ V) : Prop :=
  (∃ m, layer[j]? = some m ∧ n.Replaces m) ∨ n.exact = false ∧ ∃ m ∈ layer, n.depth = m.depth

namespace Layer

variable {layer layer' : Layer σ V} {j : Nat} {n n' : Node σ V}

theorem origin_self (h : layer[j]? = some n) : layer.Origin j n :=
  .inl ⟨n, h, rfl, rfl, id⟩

theorem Origin.replaces (h : layer.Origin j n) (hn : n'.Replaces n) : layer.Origin j n' := by
  rcases h with ⟨m, hm, hreplaces⟩ | ⟨hexact, m, hm, hdepth⟩
  · exact .inl ⟨m, hm, hn.state.trans hreplaces.state, hn.depth.trans hreplaces.depth,
      fun hexact => hreplaces.exact (hn.exact hexact)⟩
  · refine .inr ⟨Bool.eq_false_iff.2 fun htrue => ?_, m, hm, hn.depth.trans hdepth⟩
    exact Bool.false_ne_true (hexact.symm.trans (hn.exact htrue))

/-- Only the descent of the nodes matters. -/
theorem Origin.congr (hsame : layer.map Node.lineage = layer'.map Node.lineage)
    (h : layer.Origin j n) : layer'.Origin j n := by
  rcases h with ⟨m, hm, hreplaces⟩ | ⟨hexact, m, hm, hdepth⟩
  · obtain ⟨m', hm', heq⟩ := getElem?_of_map_eq hsame hm
    refine .inl ⟨m', hm', hreplaces.state.trans (congrArg Lineage.state heq),
      hreplaces.depth.trans (congrArg Lineage.depth heq), fun hexact => ?_⟩
    exact (congrArg Lineage.exact heq).symm.trans (hreplaces.exact hexact)
  · obtain ⟨m', hm', heq⟩ := exists_lineage_eq hsame hm
    exact .inr ⟨hexact, m', hm', hdepth.trans (congrArg Lineage.depth heq)⟩

end Layer

variable [BEq σ] [BEq κ] [Value V] {audit : Audit σ κ V} {r : Request σ κ V} {path : Path}
  {above : List (Layer σ V)} {s : Selection σ κ V}

omit [BEq σ] [BEq κ] in
/-- Leading edges to another node leaves all nodes at their places. -/
theorem redirect_origin {origin parents layer : Layer σ V} {merged : σ} {target : Nat}
    (c : Candidate σ V) (h : ∀ (j : Nat) n, layer[j]? = some n → origin.Origin j n) :
    ∀ (j : Nat) n, (redirect r parents merged target layer c)[j]? = some n →
      origin.Origin j n := by
  unfold redirect
  split
  · exact h
  · rename_i m _
    refine List.foldlRecOn m.inbound _
      (motive := fun l => ∀ (j : Nat) n, l[j]? = some n → origin.Origin j n) ?_ ?_
    · exact Layer.invariant_modify (fun n hn => hn.replaces ⟨rfl, rfl, id⟩) h
    · intro l hl e _
      dsimp only
      split
      · exact hl
      · rename_i parent _
        refine Layer.invariant_modify (fun n hn => hn.replaces ?_) hl
        refine ⟨Node.attach_state n parent _, Node.attach_depth n parent _, fun hexact => ?_⟩
        rw [Node.attach_exact, Bool.and_eq_true] at hexact
        exact hexact.2

omit [BEq κ] in
/-- Merging nodes leaves all nodes at their places, and adds at most one. -/
theorem mergeExcess_origin {width : Nat} (hlists : Lists s.layer s.kept)
    (hwidth : width - 1 < s.kept.length) :
    ∀ (j : Nat) n, (mergeExcess audit r path above width s).layer[j]? = some n →
      s.layer.Origin j n := by
  unfold mergeExcess
  extract_lets sorted kept absorbed merged depth recycled target layer marked _
  refine List.foldlRecOn absorbed _
    (motive := fun l => ∀ (j : Nat) n, l[j]? = some n → s.layer.Origin j n) ?_
    fun l hl c _ => redirect_origin c hl
  refine Layer.invariant_modify (fun n hn => hn.replaces ⟨rfl, rfl, nofun⟩) fun j n hj => ?_
  dsimp only [layer] at hj
  generalize recycled = place at hj
  cases place with
  | some _ => exact Layer.origin_self hj
  | none =>
    rw [Array.getElem?_push] at hj
    split at hj
    · -- The new node is as deep as the first one that it absorbs.
      obtain rfl := Option.some.inj hj
      refine .inr ⟨rfl, ?_⟩
      have hperm := r.reduction.perm (width - 1) r.ranking s.kept
      have hne : absorbed ≠ [] := by
        refine List.ne_nil_of_length_pos ?_
        rw [List.length_drop, hperm.length_eq]
        omega
      obtain ⟨c, rest, hcons⟩ := List.exists_cons_of_ne_nil hne
      have hc : c ∈ absorbed := hcons ▸ List.mem_cons_self
      obtain ⟨m, hm, _⟩ := hlists.sound c (hperm.mem_iff.1 (List.mem_of_mem_drop hc))
      refine ⟨m, Array.mem_of_getElem? hm, ?_⟩
      change depth = m.depth
      simp only [depth, hcons, List.head?_cons, Option.bind_some, hm, Option.map_some,
        Option.getD_some]
    · exact Layer.origin_self hj

omit [BEq κ] in
/-- So does fitting a layer to its width. -/
theorem fit_origin (hlists : Lists s.layer s.kept) :
    ∀ (j : Nat) n, (fit audit r path above s).layer[j]? = some n → s.layer.Origin j n := by
  unfold fit
  extract_lets width whole
  split
  · exact fun j n => Layer.origin_self
  · rename_i hwide
    split
    · exact fun j n => Layer.origin_self
    · refine List.foldlRecOn _ _
        (motive := fun l : Layer σ V => ∀ (j : Nat) n, l[j]? = some n → s.layer.Origin j n)
        (fun j n => Layer.origin_self) fun l hl c _ => ?_
      exact Layer.invariant_modify (fun n hn => hn.replaces ⟨rfl, rfl, id⟩) hl
    · split
      · exact mergeExcess_origin hlists (by omega)
      · exact fun j n => Layer.origin_self

/-- **Completing a layer leaves nodes at their places**, and adds at most one. -/
theorem settleLayer_origin (audit : Audit σ κ V) (r : Request σ κ V) (session : Session σ κ V)
    (d : Diagram σ V) : ∀ (j : Nat) n, (settleLayer audit r session d).layer[j]? = some n →
      d.pending.Origin j n := by
  intro j n hj
  have hselected := selected r session d.layers.isEmpty d.pending
  exact (fit_origin hselected.lists j n hj).congr (select_lineage r session _ d.pending)

theorem settleLayer_depth {p : Nat → Prop} {session : Session σ κ V} {d : Diagram σ V}
    (h : ∀ n ∈ d.pending, p n.depth) :
    ∀ n ∈ (settleLayer audit r session d).layer, p n.depth := by
  intro n hn
  obtain ⟨j, hj⟩ := Array.mem_iff_getElem?.1 hn
  rcases settleLayer_origin audit r session d j n hj with ⟨m, hm, hreplaces⟩ | ⟨_, m, hm, hdepth⟩
  · exact hreplaces.depth ▸ h m (Array.mem_of_getElem? hm)
  · exact hdepth ▸ h m hm

/-! ### Expanding a layer -/

section Expand

variable [Hashable σ]

omit [BEq κ] in
/-- What is reached from a layer is one deeper. -/
theorem Fitted.expansion_depth {p : Nat → Prop} {f : Fitted σ κ V} {x : Nat}
    (h : ∀ n ∈ f.layer, p (n.depth + 1)) (free : Variables) (index : Nat) :
    ∀ n ∈ (f.expansion r free index x).pending, p n.depth := by
  have hspreads : Spreads r.model.problem x f.layer fun n => p n.depth := by
    refine ⟨fun parent e _ _ n hn _ => ?_, fun parent e he _ => ?_⟩
    · rw [Node.attach_depth]
      exact hn
    · obtain ⟨q, hq, hsame⟩ := he.source
      have hdepth : parent.depth = q.depth := congrArg Lineage.depth hsame
      rw [Node.attach_depth]
      change p (parent.depth + 1)
      rw [hdepth]
      exact h q (Array.mem_of_getElem? hq)
  exact (f.breeds hspreads free index).each

omit [BEq κ] in
/-- A state leads to one node. -/
theorem Layer.connect_pairwise {pending : Layer σ V}
    (h : (pending.toList.map (·.state)).Pairwise fun a b => sameState a b = false)
    (parent : Node σ V) (state : σ) (e : Edge V) :
    ((pending.connect parent state e).toList.map (·.state)).Pairwise
      fun a b => sameState a b = false := by
  rcases Layer.connect_cases pending parent state e with ⟨i, m, _, _, heq⟩ | ⟨hnone, heq⟩
  · have hsame : (pending.modify i fun n => n.attach parent e).toList.map (·.state) =
        pending.toList.map (·.state) := by
      rw [← Array.toList_map, ← Array.toList_map,
        Layer.map_modify_eq (fun n => Node.attach_state n parent e)]
    rw [heq, hsame]
    exact h
  · rw [heq, Array.toList_push, List.map_append]
    refine List.pairwise_append.2 ⟨h, List.pairwise_singleton _ _, fun a ha b hb => ?_⟩
    obtain ⟨n, hn, rfl⟩ := List.mem_map.1 ha
    obtain rfl := List.mem_singleton.1 hb
    show sameState n.state (Node.attach _ parent e).state = false
    rw [Node.attach_state]
    exact hnone n (Array.mem_toList_iff.1 hn)

omit [BEq κ] in
/-- **The nodes that are reached from a layer have states of their own.** -/
theorem Fitted.expansion_pairwise (f : Fitted σ κ V) (r : Request σ κ V) (free : Variables)
    (index x : Nat) : ((f.expansion r free index x).pending.toList.map (·.state)).Pairwise
      fun a b => sameState a b = false := by
  refine f.expansion_induction (P := fun pending => (pending.toList.map Node.state).Pairwise
    fun a b => sameState a b = false) free index List.Pairwise.nil ?_
  intro j _ q _ parent _ d _ k pending hpending
  exact Layer.connect_pairwise hpending _ _ _

omit [BEq κ] in
theorem Fitted.expansion_nodup [LawfulBEq σ] (f : Fitted σ κ V) (r : Request σ κ V)
    (free : Variables) (index x : Nat) :
    ((f.expansion r free index x).pending.toList.map (·.state)).Nodup := by
  refine (f.expansion_pairwise r free index x).imp fun hdiffer heq => ?_
  rw [sameState_iff.2 heq] at hdiffer
  cases hdiffer

end Expand

/-! ### Layer upon layer -/

/-- Layers, deepest first, of which the last one is at a given depth and each is one deeper
than the next. -/
def Stacked (base : Nat) : List (Array (Lineage σ V)) → Prop
  | [] => True
  | layer :: above => (∀ m ∈ layer, m.depth = base + above.length) ∧ Stacked base above

/-- The exact nodes of a layer have states of their own. -/
def Distinct (layer : Array (Lineage σ V)) : Prop :=
  ∀ (i j : Nat) m n, layer[i]? = some m → layer[j]? = some n → m.exact = true →
    n.exact = true → m.state = n.state → i = j

omit [BEq σ] [Value V] in
theorem Stacked.drop {base : Nat} {layers : List (Array (Lineage σ V))} (h : Stacked base layers)
    (k : Nat) : Stacked base (layers.drop k) := by
  induction k generalizing layers with
  | zero => exact h
  | succ k ih =>
    cases layers with
    | nil => exact h
    | cons layer above => exact ih h.2

omit [BEq σ] [Value V] in
theorem Stacked.le_depth {base : Nat} {layers : List (Array (Lineage σ V))}
    (h : Stacked base layers) {layer : Array (Lineage σ V)} (hlayer : layer ∈ layers)
    {m : Lineage σ V} (hm : m ∈ layer) : base ≤ m.depth := by
  induction layers with
  | nil => exact absurd hlayer List.not_mem_nil
  | cons _ above ih =>
    rcases List.mem_cons.1 hlayer with rfl | hlayer
    · exact (h.1 m hm).symm ▸ Nat.le_add_right _ _
    · exact ih h.2 hlayer

section Rounds

variable [Hashable σ] {start session : Session σ κ V} {free : Variables} {d : Diagram σ V}

omit [Hashable σ] in
theorem Stacked.settle {base : Nat} (h : Stacked base (lineages (d.pending :: d.layers))) :
    Stacked base (lineages ((settleLayer audit r session d).layer :: d.layers)) := by
  refine ⟨fun m hm => ?_, h.2⟩
  obtain ⟨n, hn, rfl⟩ := Array.mem_map.1 hm
  exact settleLayer_depth (p := (· = base + (lineages d.layers).length))
    (fun n hn => h.1 n.lineage (Array.mem_map_of_mem hn)) n hn

/-- **Each layer is one deeper than the layer above it**, in every round. -/
theorem Rounds.stacked (h : Rounds audit r start session free d) :
    Stacked r.residual.depth (lineages (d.pending :: d.layers)) := by
  induction h with
  | root =>
    refine ⟨fun m hm => ?_, trivial⟩
    obtain ⟨n, hn, rfl⟩ := Array.mem_map.1 hm
    obtain rfl := Array.mem_singleton.1 hn
    rfl
  | @next session free d f v x h hf _ _ _ hx _ ih =>
    subst hf hx
    have hsettled : Stacked r.residual.depth
        (lineages ((settleLayer audit r session d).layer :: d.layers)) := ih.settle
    have hsame := ((settleLayer audit r session d).breeds
      (spreads_exact r.model.problem v _) free d.layers.length).same
    have hdepth := (settleLayer audit r session d).expansion_depth (r := r) (x := v)
      (p := (· = r.residual.depth + (d.layers.length + 1)))
      (fun n hn => by
        have hn' := hsettled.1 n.lineage (Array.mem_map_of_mem hn)
        rw [List.length_map] at hn'
        change n.depth = r.residual.depth + d.layers.length at hn'
        omega) free d.layers.length
    refine ⟨fun m hm => ?_, ?_⟩
    · obtain ⟨n, hn, rfl⟩ := Array.mem_map.1 hm
      change n.depth = r.residual.depth + (lineages (_ :: d.layers)).length
      rw [lineages, List.length_map, List.length_cons]
      exact hdepth n hn
    · rw [lineages, List.map_cons, ← hsame] at hsettled
      exact hsettled

/-- Only nodes above the first merge are known to be exact, in every round. -/
theorem Rounds.spared (h : Rounds audit r start session free d) :
    Spared r.kind d.lastExact (d.pending :: d.layers) := by
  induction h with
  | root => exact .rooted r.kind r.residual
  | @next session free d f v x h hf _ _ _ hx _ ih =>
    subst hf hx
    have hexact := (settleLayer audit r session d).breeds
      (spreads_exact r.model.problem v _) free d.layers.length
    exact ih.settle.expand hexact.same fun hall n hn => hexact.each n hn hall

variable [LawfulBEq σ]

omit [Hashable σ] [LawfulBEq σ] in
theorem Distinct.settle (h : (d.pending.toList.map (·.state)).Nodup) :
    Distinct ((settleLayer audit r session d).layer.map Node.lineage) := by
  intro i j m n hi hj hm hn hstate
  rw [Array.getElem?_map] at hi hj
  obtain ⟨p, hp, rfl⟩ := Option.map_eq_some_iff.1 hi
  obtain ⟨q, hq, rfl⟩ := Option.map_eq_some_iff.1 hj
  obtain ⟨m', hm', hmr⟩ := (settleLayer_origin audit r session d i p hp).resolve_right
    fun hnew => Bool.false_ne_true (hnew.1.symm.trans hm)
  obtain ⟨n', hn', hnr⟩ := (settleLayer_origin audit r session d j q hq).resolve_right
    fun hnew => Bool.false_ne_true (hnew.1.symm.trans hn)
  have heq : m'.state = n'.state := hmr.state.symm.trans (Eq.trans hstate hnr.state)
  have hlt := (Array.getElem?_eq_some_iff.1 hm').1
  refine (List.getElem?_inj (by simpa using hlt) h).1 ?_
  simp only [List.getElem?_map, Array.getElem?_toList, hm', hn', Option.map_some, heq]

/-- **The exact nodes of a layer have states of their own**, in every round. -/
theorem Rounds.distinct (h : Rounds audit r start session free d) :
    (d.pending.toList.map (·.state)).Nodup ∧ ∀ layer ∈ lineages d.layers, Distinct layer := by
  induction h with
  | root => exact ⟨List.nodup_singleton _, nofun⟩
  | @next session free d f v x h hf _ _ _ hx _ ih =>
    subst hf hx
    have hsame := ((settleLayer audit r session d).breeds
      (spreads_exact r.model.problem v _) free d.layers.length).same
    refine ⟨(settleLayer audit r session d).expansion_nodup r free _ v, fun layer hlayer => ?_⟩
    rcases List.mem_cons.1 hlayer with rfl | hlayer
    · change Distinct (Array.map Node.lineage (Fitted.expansion _ r free _ v).layer)
      rw [hsame]
      exact Distinct.settle ih.1
    · exact ih.2 layer hlayer

end Rounds

/-! ### Cut-sets -/

section Cut

omit [BEq σ] [Value V]

/-- A parent is put in the cut-set once. -/
theorem Flagged.nodup_step {parents : Layer σ V} {es : List (Edge V)}
    {marked : Layer σ V × List Nat} (h : Flagged parents es marked) (hnodup : marked.2.Nodup)
    (e : Edge V) : (flagSource marked e).2.Nodup := by
  unfold flagSource
  split
  · rename_i p hp
    split
    · rename_i hcond
      rw [Bool.and_eq_true, Bool.not_eq_true'] at hcond
      refine hnodup.append (List.nodup_singleton _) fun j hj hj' => ?_
      obtain rfl := List.mem_singleton.1 hj'
      have hsame := h.same e.source
      rw [hp] at hsame
      obtain ⟨q, _, rfl⟩ := Option.map_eq_some_iff.1 hsame.symm
      simp [hj] at hcond
    · exact hnodup
  · exact hnodup

/-- **No address is listed twice**: the addresses of a layer are those of parents that were
marked one after the other, and all others are further up. -/
theorem cutAbove_nodup (stop : Nat) (layer : Layer σ V) (above : List (Layer σ V)) :
    (cutAbove stop layer above).2.Nodup := by
  induction above generalizing layer with
  | nil => exact List.nodup_nil
  | cons parents above ih =>
    rw [cutAbove]
    split
    · exact List.nodup_nil
    · rw [foldl_flagParents]
      have hfound : ((inexactEdges layer).foldl flagSource (parents, [])).2.Nodup := by
        refine (List.foldlRecOn (inexactEdges layer) _ (motive := fun marked =>
          (∃ es, Flagged parents es marked) ∧ marked.2.Nodup) ⟨⟨[], flagged_foldl parents []⟩,
            List.nodup_nil⟩ ?_).2
        rintro marked ⟨⟨es, hmarked⟩, hnodup⟩ e _
        exact ⟨⟨_, hmarked.step e⟩, hmarked.nodup_step hnodup e⟩
      generalize (inexactEdges layer).foldl flagSource (parents, []) = marked at hfound
      refine (hfound.map fun i j hij => congrArg Address.position hij).append (ih marked.1) ?_
      intro a ha ha'
      obtain ⟨i, _, rfl⟩ := List.mem_map.1 ha
      obtain ⟨below, child, parents', above', _, _, hlayers, hlen, _⟩ :=
        ((cutAbove_cutsExact stop marked.1 above).divides _ ha').exists_split
      have hlength := congrArg List.length hlayers
      simp only [List.length_append, List.length_cons] at hlength hlen
      omega

theorem markCutset_nodup {d : Diagram σ V} (h : d.cutset = []) (kind : Kind)
    (cutset : CutsetKind) : (d.markCutset kind cutset).cutset.Nodup := by
  unfold markCutset
  split
  · cases cutset with
    | lastExactLayer =>
      refine List.Nodup.map (fun i j hij => congrArg Address.position hij) ?_
      exact (List.nodup_zipIdx_map_snd _).sublist (List.filter_sublist.map _)
    | frontier => exact cutAbove_nodup _ _ _
  · rw [h]
    exact List.nodup_nil

end Cut

/-- A diagram, its root at a given depth, whose cut-set lists exact nodes below the root, each
once. -/
structure Diagram.Tiered (base : Nat) (d : Diagram σ V) : Prop where
  stacked : Stacked base (lineages d.layers)
  cutset : ∀ a ∈ d.cutset, 0 < a.layer ∧ a.layer < d.layers.length ∧
    ∀ n, d.node? a = some n → n.exact = true
  nodup : d.cutset.Nodup

namespace Request

variable [Hashable σ] {session : Session σ κ V} {report : Report V}

/-- **A compiled diagram is stacked**, whatever the model. -/
theorem compile_tiered (hok : (r.compile session).outcome = .ok report) :
    (r.compile session).diagram.Tiered r.residual.depth := by
  obtain ⟨hfault, heq⟩ := Request.compileWith_of_ok hok
  obtain ⟨session', free, d, hrounds, hlast⟩ := r.unroll_lastRound hfault
  unfold compile
  rw [heq, hlast.eq]
  dsimp only
  generalize hd : d.completed (settleLayer r.audit r session' d) = d'
  have hstacked : Stacked r.residual.depth (lineages d'.layers) := hd ▸ hrounds.stacked.settle
  have hspared : Spared r.kind d'.lastExact d'.layers := hd ▸ hrounds.spared.settle
  have hempty : d'.cutset = [] := hd ▸ hrounds.frame.2
  obtain ⟨best, bestExact, isExact, layers, heq, hsame, hmembers⟩ :=
    r.evaluate_diagram (Fitted.reported (settleLayer r.audit r session' d) d.layers.length) d'
  rw [heq]
  refine ⟨hsame ▸ hstacked, fun a ha => ?_, ?_⟩
  · obtain ⟨hpos, hlt, hexact⟩ := hspared.cutset_of_evaluate hempty hmembers a ha
    refine ⟨hpos, length_eq_of_lineages hsame ▸ hlt, fun n hn => ?_⟩
    obtain ⟨n', hn', hlineage⟩ := Diagram.node?_congr (d := d') hsame hn
    exact (congrArg Lineage.exact hlineage).trans (hexact n' hn')
  · refine markCutset_nodup ?_ r.kind r.cutset
    unfold markExact markBest
    split
    · exact hempty
    · exact hempty

/-- **The exact nodes of a layer of a compiled diagram have states of their own.** -/
theorem compile_distinct [LawfulBEq σ] (hok : (r.compile session).outcome = .ok report) :
    ∀ layer ∈ lineages (r.compile session).diagram.layers, Distinct layer := by
  obtain ⟨hfault, heq⟩ := Request.compileWith_of_ok hok
  obtain ⟨session', free, d, hrounds, hlast⟩ := r.unroll_lastRound hfault
  unfold compile
  rw [heq, hlast.eq]
  dsimp only
  obtain ⟨_, _, _, layers, heq, hsame, _⟩ :=
    r.evaluate_diagram (Fitted.reported (settleLayer r.audit r session' d) d.layers.length)
      (d.completed (settleLayer r.audit r session' d))
  rw [heq]
  intro layer hlayer
  change layer ∈ lineages layers at hlayer
  rw [hsame] at hlayer
  rcases List.mem_cons.1 hlayer with rfl | hlayer
  · exact Distinct.settle hrounds.distinct.1
  · exact hrounds.distinct.2 layer hlayer

end Request

namespace Diagram.Tiered

omit [BEq σ]

variable {base : Nat} {d : Diagram σ V} {a : Address} {n : Node σ V} {z : Subproblem σ V}

omit [Value V] in
/-- The depth of a node of the cut-set is that of its layer. -/
theorem depth_eq (h : d.Tiered base) (ha : a ∈ d.cutset) (hn : d.node? a = some n) :
    n.depth = base + a.layer := by
  obtain ⟨_, hlt, _⟩ := h.cutset a ha
  obtain ⟨layer, above, habove, hlen, hn⟩ := Diagram.exists_of_node? hlt hn
  have hdrop := h.stacked.drop (d.layers.length - 1 - a.layer)
  rw [lineages, ← List.map_drop] at hdrop
  change Stacked base (lineages (d.upTo a.layer)) at hdrop
  rw [habove] at hdrop
  have hdepth := hdrop.1 n.lineage (Array.mem_map_of_mem (Array.mem_of_getElem? hn))
  rwa [List.length_map, hlen] at hdepth

/-- **What is handed out is deeper than the root of the diagram.** -/
theorem deeper (h : d.Tiered base) (hz : z ∈ d.handOut.1) : base < z.depth := by
  obtain ⟨best, a, ha, hsub⟩ := Diagram.mem_handOut hz
  obtain ⟨n, hn, _, _, hdepth, _⟩ := Diagram.subproblem?_eq_some hsub
  have hpos := (h.cutset a ha).1
  rw [hdepth, h.depth_eq ha hn]
  omega

/-- **No state is handed out twice at the same depth.** -/
theorem pairwise_handOut (h : d.Tiered base)
    (hdistinct : ∀ layer ∈ lineages d.layers, Distinct layer) :
    d.handOut.1.Pairwise fun y z => ¬(y.state = z.state ∧ y.depth = z.depth) := by
  unfold handOut
  split
  · exact .nil
  · refine List.pairwise_filterMap.2 (h.nodup.imp_of_mem ?_)
    rintro a b ha hb hne y hy z hz ⟨hstate, hdepth⟩
    obtain ⟨m, hm, hystate, _, hydepth, _⟩ := Diagram.subproblem?_eq_some hy
    obtain ⟨n, hn, hzstate, _, hzdepth, _⟩ := Diagram.subproblem?_eq_some hz
    rw [hydepth, hzdepth, h.depth_eq ha hm, h.depth_eq hb hn] at hdepth
    have hlayer : a.layer = b.layer := by omega
    obtain ⟨_, halt, haexact⟩ := h.cutset a ha
    obtain ⟨_, hblt, hbexact⟩ := h.cutset b hb
    obtain ⟨layer, above, habove, _, hi⟩ := Diagram.exists_of_node? halt hm
    obtain ⟨layer', above', habove', _, hj⟩ := Diagram.exists_of_node? hblt hn
    rw [hlayer, habove'] at habove
    obtain ⟨rfl, -⟩ := List.cons.inj habove
    have hmem : layer'.map Node.lineage ∈ lineages d.layers := by
      refine List.mem_map_of_mem (List.mem_of_mem_drop (i := d.layers.length - 1 - b.layer) ?_)
      change layer' ∈ d.upTo b.layer
      rw [habove']
      exact List.mem_cons_self
    -- Two exact nodes of one layer with the same state are the same.
    refine hne ?_
    have hposition := hdistinct _ hmem a.position b.position m.lineage n.lineage
      (by rw [Array.getElem?_map, hi, Option.map_some])
      (by rw [Array.getElem?_map, hj, Option.map_some]) (haexact m hm) (hbexact n hn)
      (hystate.symm.trans (hstate.trans hzstate))
    cases a
    cases b
    exact congrArg₂ Address.mk hlayer hposition

end Diagram.Tiered
end DiagramSearch
