/-
# What a sweep overlooks

A sweep looks at the tail of a node only if that node is in the cut-set, and of a diagram
that is not relaxed no node is.  So nothing changes for the cache, nor for what such a
diagram finds, if tails are computed before: a closer watch computes them for the sake of
the bounds that it checks.

* `Diagram.bestValue_congr`, `Diagram.bestSolution_congr`: what a diagram finds is decided
  by the lineages of its nodes;
* `Request.unroll_unmarked`: unrolling puts no node in the cut-set, and gives none a tail;
* `Diagram.sweep_untailed`: **a sweep overlooks the tails of such nodes.**
-/

import DiagramSearch.Proofs.Stacking

namespace DiagramSearch

open Diagram

variable {σ κ V : Type}

/-! ### What a diagram finds -/

section Found

variable {layers layers' : List (Layer σ V)} {d d' : Diagram σ V}

theorem climb_of_lineages (h : lineages layers = lineages layers') (i : Nat) :
    climb layers i = climb layers' i :=
  climb_of_edges (map_map_eq (f := Node.lineage) Lineage.edge (fun _ => rfl) h) i

theorem Diagram.longest_terminal?_congr (h : lineages d.layers = lineages d'.layers) (i : Nat) :
    (d.terminal? i).map (·.longest) = (d'.terminal? i).map (·.longest) := by
  have hlast : ∀ d : Diagram σ V, (d.terminal? i).map (·.longest) =
      ((lineages d.layers).head? >>= fun layer => layer[i]?).map (·.longest) := by
    intro d
    unfold terminal? lineages
    cases d.layers with
    | nil => rfl
    | cons layer above =>
      simp [Function.comp_def, Node.lineage]
  rw [hlast, hlast, h]

theorem Diagram.bestValue_congr (hbest : d.best = d'.best)
    (h : lineages d.layers = lineages d'.layers) : d.bestValue = d'.bestValue := by
  unfold bestValue
  rw [hbest]
  cases d'.best with
  | none => rfl
  | some i => exact longest_terminal?_congr h i

theorem Diagram.bestExactValue_congr (hbest : d.bestExact = d'.bestExact)
    (h : lineages d.layers = lineages d'.layers) : d.bestExactValue = d'.bestExactValue := by
  unfold bestExactValue
  rw [hbest]
  cases d'.bestExact with
  | none => rfl
  | some i => exact longest_terminal?_congr h i

theorem Diagram.bestSolution_congr (hpath : d.path = d'.path) (hbest : d.best = d'.best)
    (h : lineages d.layers = lineages d'.layers) : d.bestSolution = d'.bestSolution := by
  unfold bestSolution
  rw [hpath, hbest]
  exact congrArg (d'.best.map ·) (funext fun i => congrArg (d'.path ++ ·) (climb_of_lineages h i))

end Found

/-! ### Nodes outside of the cut-set -/

/-- No node of these layers is in the cut-set. -/
def Uncut (layers : List (Layer σ V)) : Prop :=
  ∀ marks ∈ layers.map (·.map Node.cutset), ∀ mark ∈ marks, mark = false

namespace Uncut

variable {layer : Layer σ V} {layers layers' above : List (Layer σ V)}

theorem of_mem (h : ∀ layer ∈ layers, ∀ n ∈ layer, n.cutset = false) : Uncut layers := by
  intro marks hmarks mark hmark
  obtain ⟨layer, hlayer, rfl⟩ := List.mem_map.1 hmarks
  obtain ⟨n, hn, rfl⟩ := Array.mem_map.1 hmark
  exact h layer hlayer n hn

theorem congr (h : Uncut layers)
    (hsame : layers'.map (·.map Node.cutset) = layers.map (·.map Node.cutset)) : Uncut layers' :=
  fun marks hmarks => h marks (hsame ▸ hmarks)

theorem head (h : Uncut (layer :: above)) : ∀ n ∈ layer, n.cutset = false :=
  fun n hn => h _ List.mem_cons_self n.cutset (Array.mem_map_of_mem hn)

theorem tail (h : Uncut (layer :: above)) : Uncut above :=
  fun marks hmarks => h marks (List.mem_cons_of_mem _ hmarks)

end Uncut

section Unrolling

variable [BEq σ] [BEq κ] [Value V] {r : Request σ κ V} {audit : Audit σ κ V}
  {start session : Session σ κ V} {free : Variables} {d : Diagram σ V}

/-- What an evaluation marks has not been marked: the tail of a node, and its place in the
cut-set. -/
def Node.Unmarked (n : Node σ V) : Prop := n.tail = none ∧ n.cutset = false

omit [BEq σ] [BEq κ] in
/-- Merging marks no node. -/
theorem merges_unmarked (r : Request σ κ V) (parents : Layer σ V) :
    Merges r parents Node.Unmarked Node.Unmarked where
  spared _ hn := hn
  deleted _ hn := hn
  doomed _ hn := hn
  marked _ hn := hn
  fresh _ _ := ⟨rfl, rfl⟩
  takes n _ _ _ _ _ hn _ _ :=
    ⟨(Node.attach_tail n _ _).trans hn.1, (Node.attach_cutset n _ _).trans hn.2⟩

/-- Neither does completing a layer. -/
theorem settleLayer_unmarked (h : ∀ n ∈ d.pending, n.Unmarked) :
    ∀ n ∈ (settleLayer audit r session d).layer, n.Unmarked := by
  refine (merges_unmarked r _).fit fun n hn => ?_
  obtain ⟨m, hm, hsifts⟩ := (selected r session d.layers.isEmpty d.pending).of_mem hn
  cases hsifts with
  | kept => exact h n hm
  | cached => exact h m hm
  | dominated => exact h m hm

variable [Hashable σ]

omit [BEq κ] in
/-- Nor does expanding one. -/
theorem Fitted.expansion_unmarked (f : Fitted σ κ V) (h : ∀ n ∈ f.layer, n.Unmarked)
    (free : Variables) (index var : Nat) :
    (∀ n ∈ (f.expansion r free index var).pending, n.Unmarked) ∧
      ∀ n ∈ (f.expansion r free index var).layer, n.Unmarked := by
  constructor
  · have hspreads : Spreads r.model.problem var f.layer Node.Unmarked :=
      ⟨fun _ _ _ _ n hn _ =>
          ⟨(Node.attach_tail n _ _).trans hn.1, (Node.attach_cutset n _ _).trans hn.2⟩,
        fun _ _ _ _ => ⟨Node.attach_tail _ _ _, Node.attach_cutset _ _ _⟩⟩
    exact (f.breeds hspreads free index).each
  · have hsame := f.map_expansion (g := fun n => (n.tail, n.cutset)) (fun _ _ => rfl) r free
      index var
    intro n hn
    obtain ⟨j, hj⟩ := Array.mem_iff_getElem?.1 hn
    obtain ⟨m, hm, heq⟩ := Layer.getElem?_of_map_eq hsame hj
    obtain ⟨htail, hcutset⟩ := Prod.mk.inj heq
    obtain ⟨hnone, hfalse⟩ := h m (Array.mem_of_getElem? hm)
    exact ⟨htail.trans hnone, hcutset.trans hfalse⟩

/-- No node is marked, in every round. -/
theorem Rounds.unmarked (h : Rounds audit r start session free d) :
    ∀ layer ∈ d.pending :: d.layers, ∀ n ∈ layer, n.Unmarked := by
  induction h with
  | root =>
    intro layer hlayer n hn
    obtain rfl := List.mem_singleton.1 hlayer
    obtain rfl := Array.mem_singleton.1 hn
    exact ⟨rfl, rfl⟩
  | @next session free d f v x h hf _ _ _ hx _ ih =>
    subst hf hx
    obtain ⟨hpending, hlayer⟩ := (settleLayer audit r session d).expansion_unmarked (r := r)
      (settleLayer_unmarked (ih _ List.mem_cons_self)) free d.layers.length v
    exact List.forall_mem_cons.2 ⟨hpending, List.forall_mem_cons.2
      ⟨hlayer, (List.forall_mem_cons.1 ih).2⟩⟩

/-- **Unrolling marks no node.** -/
theorem Request.unroll_unmarked (hok : (r.unroll audit start).fault = none) :
    ∀ layer ∈ (r.unroll audit start).diagram.layers, ∀ n ∈ layer, n.Unmarked := by
  obtain ⟨session, free, d, hrounds, hlast⟩ := r.unroll_lastRound hok
  obtain ⟨hpending, hlayers⟩ := List.forall_mem_cons.1 hrounds.unmarked
  rw [hlast.eq]
  exact List.forall_mem_cons.2 ⟨settleLayer_unmarked hpending, hlayers⟩

/-- So it puts none in the cut-set. -/
theorem Request.unroll_uncut (hok : (r.unroll audit start).fault = none) :
    Uncut (r.unroll audit start).diagram.layers :=
  .of_mem fun layer hlayer n hn => (r.unroll_unmarked hok layer hlayer n hn).2

end Unrolling

/-! ### Sweeping past tails -/

section Sweeping

variable [Value V]

/-- What settles a node outside of the cut-set is not its tail. -/
theorem Node.settle_untailed (best : V) {n : Node σ V} (h : n.cutset = false) :
    n.untailed.settle best = (n.settle best).untailed := by
  obtain ⟨_, _, _, _, _, _, _, _, _, _, _, cutset, _⟩ := n
  obtain rfl : cutset = false := h
  unfold untailed settle
  simp only [isDeleted, isPruned, Bool.false_eq_true, if_false]
  split_ifs <;> rfl

theorem Node.cutset_inform (parents : Layer σ V) (n : Node σ V) :
    (inform parents n).map Node.cutset = parents.map Node.cutset := by
  unfold inform
  split
  · refine List.foldlRecOn n.inbound _
      (motive := fun l : Layer σ V => l.map Node.cutset = parents.map Node.cutset) rfl ?_
    intro l hl e _
    refine Eq.trans ?_ hl
    refine Layer.map_modify_eq ?_ l e.source
    exact fun _ => rfl
  · rfl

/-- What a node tells its parents is not its tail, and leaves theirs alone. -/
theorem Node.inform_untailed (parents : Layer σ V) (n : Node σ V) :
    inform (parents.map untailed) n.untailed = (inform parents n).map untailed := by
  have hmodify : ∀ (l : Layer σ V) (j : Nat) (f : Node σ V → Node σ V),
      (∀ p, f p.untailed = (f p).untailed) →
        (l.map untailed).modify j f = (l.modify j f).map untailed := by
    intro l j f hf
    refine Array.ext_getElem? fun i => ?_
    rw [Array.getElem?_modify, Array.getElem?_map, Array.getElem?_map, Array.getElem?_modify]
    split
    · rw [Option.map_map, Option.map_map]
      exact congrArg (Option.map · _) (funext hf)
    · rfl
  have hdeleted : n.untailed.isDeleted = n.isDeleted := rfl
  have hthreshold : n.untailed.threshold = n.threshold := rfl
  unfold inform
  rw [hdeleted, hthreshold]
  split
  · exact List.foldl_hom (Array.map untailed) fun l e => hmodify l e.source _ fun _ => rfl
  · rfl

variable [BEq σ] [BEq κ]

omit [BEq κ] in
/-- What the cache is told of a layer is not its tails. -/
theorem Layer.teach_untailed (layer : Layer σ V) {lasting : Node σ V → Bool}
    (hlasting : ∀ n, lasting n.untailed = lasting n) (session : Session σ κ V) :
    Layer.teach (layer.map Node.untailed) lasting session = layer.teach lasting session := by
  have hlesson : ∀ n : Node σ V, n.untailed.lesson? = n.lesson? := fun _ => rfl
  unfold teach
  rw [Array.foldl_map]
  simp only [hlesson, hlasting]
  rfl

omit [BEq κ] in
/-- **A sweep overlooks the tails of nodes outside of the cut-set.** -/
theorem sweepLayers_untailed (best : V) {lasting : Nat → Node σ V → Bool}
    (hlasting : ∀ i n, lasting i n.untailed = lasting i n) (session : Session σ κ V)
    {layer : Layer σ V} {above : List (Layer σ V)} (h : Uncut (layer :: above)) :
    (sweepLayers best lasting session (layer.map Node.untailed)
      (above.map (·.map Node.untailed))).1 = (sweepLayers best lasting session layer above).1 := by
  have hsettle : (layer.map Node.untailed).map (Node.settle best) =
      (layer.map (Node.settle best)).map Node.untailed := by
    rw [Array.map_map, Array.map_map]
    exact Array.map_congr_left fun n hn => Node.settle_untailed best (h.head n hn)
  induction above generalizing session layer with
  | nil =>
    rw [List.map_nil, sweepLayers, sweepLayers, hsettle, Layer.teach_untailed _ (hlasting 0)]
  | cons parents above ih =>
    have hinform : ((layer.map (Node.settle best)).map Node.untailed).foldl Node.inform
        (parents.map Node.untailed) =
          ((layer.map (Node.settle best)).foldl Node.inform parents).map Node.untailed := by
      rw [Array.foldl_map, ← Array.foldl_toList, ← Array.foldl_toList]
      exact List.foldl_hom (Array.map Node.untailed) Node.inform_untailed
    have hparents : ((layer.map (Node.settle best)).foldl Node.inform parents).map Node.cutset =
        parents.map Node.cutset := by
      rw [← Array.foldl_toList]
      refine List.foldlRecOn _ _
        (motive := fun l : Layer σ V => l.map Node.cutset = parents.map Node.cutset) rfl ?_
      exact fun l hl n _ => (Node.cutset_inform l n).trans hl
    have huncut : Uncut ((layer.map (Node.settle best)).foldl Node.inform parents :: above) :=
      h.tail.congr (congrArg (· :: _) hparents)
    rw [List.map_cons, sweepLayers, sweepLayers, hsettle, Layer.teach_untailed _ (hlasting _),
      List.length_map, hinform]
    refine ih _ huncut ?_
    rw [Array.map_map, Array.map_map]
    exact Array.map_congr_left fun n hn => Node.settle_untailed best (huncut.head n hn)

omit [BEq κ] in
theorem sweepLayers_congr (best : V) {lasting : Nat → Node σ V → Bool}
    (hlasting : ∀ i n, lasting i n.untailed = lasting i n) (session : Session σ κ V)
    {layer layer' : Layer σ V} {above above' : List (Layer σ V)} (h : Uncut (layer :: above))
    (hsame : (layer' :: above').map (·.map Node.untailed) =
      (layer :: above).map (·.map Node.untailed)) :
    (sweepLayers best lasting session layer' above').1 =
      (sweepLayers best lasting session layer above).1 := by
  have h' : Uncut (layer' :: above') :=
    h.congr (map_map_eq (f := Node.untailed) Node.cutset (fun _ => rfl) hsame)
  obtain ⟨hlayer, habove⟩ := List.cons.inj hsame
  dsimp only at hlayer
  rw [← sweepLayers_untailed best hlasting session h,
    ← sweepLayers_untailed best hlasting session h',
    hlayer, habove]

omit [BEq σ] [BEq κ] in
/-- Computing tails changes nothing else. -/
theorem Diagram.markBounds_untailed (d : Diagram σ V) : ∃ layers,
    d.markBounds = { d with layers } ∧
      layers.map (·.map Node.untailed) = d.layers.map (·.map Node.untailed) := by
  unfold markBounds
  cases hd : d.layers with
  | nil => exact ⟨[], by simp [← hd], rfl⟩
  | cons last above =>
    refine ⟨_, rfl, ?_⟩
    rw [untailed_liftBounds, List.map_cons, List.map_cons, Array.map_map]
    refine congrArg (· :: _) (Array.map_congr_left fun n _ => ?_)
    rw [Function.comp_apply]
    split <;> rfl

omit [BEq κ] in
/-- So what the cache is told of a diagram is not its tails. -/
theorem Diagram.sweep_untailed {d : Diagram σ V} {layers : List (Layer σ V)}
    (hsame : layers.map (·.map Node.untailed) = d.layers.map (·.map Node.untailed))
    (huncut : Uncut d.layers) (r : Request σ κ V) (session : Session σ κ V) :
    (({ d with layers } : Diagram σ V).sweep r session).1 = (d.sweep r session).1 := by
  have hexact : ({ d with layers } : Diagram σ V).bestExactValue = d.bestExactValue :=
    bestExactValue_congr rfl (map_map_eq (f := Node.untailed) Node.lineage (fun _ => rfl) hsame)
  have hlasting : ∀ i n,
      d.lasting r.kind r.cutset i n.untailed = d.lasting r.kind r.cutset i n := by
    intro i n
    unfold lasting
    split <;> rfl
  unfold sweep
  rw [hexact]
  dsimp only
  cases hd : d.layers with
  | nil =>
    rw [hd] at hsame
    obtain rfl : layers = [] := List.map_eq_nil_iff.1 hsame
    rfl
  | cons last above =>
    rw [hd] at hsame huncut
    obtain ⟨last', above', rfl, hlast, habove⟩ := List.map_eq_cons_iff.1 hsame
    dsimp only
    cases d.bestExactValue with
    | none => exact sweepLayers_congr _ hlasting session huncut hsame
    | some value =>
      -- The best exact nodes get their threshold first, whatever their tails.
      refine sweepLayers_congr _ hlasting session (huncut.congr ?_) ?_
      · rw [List.map_cons, List.map_cons, Array.map_map]
        refine congrArg (· :: _) (Array.map_congr_left fun n _ => ?_)
        simp only [Function.comp_apply, apply_ite Node.cutset, ite_self]
      · have hfinish : ∀ n : Node σ V, (if n.isAlive && n.exact then
            { n with threshold := some (max r.toBeat value) } else n).untailed =
              if n.untailed.isAlive && n.untailed.exact then
                { n.untailed with threshold := some (max r.toBeat value) } else n.untailed :=
          fun n => apply_ite Node.untailed ..
        rw [List.map_cons, List.map_cons, habove, Array.map_map, Array.map_map]
        simp only [Function.comp_def, hfinish]
        have hmapped := congrArg (Array.map fun n : Node σ V => if n.isAlive && n.exact then
          { n with threshold := some (max r.toBeat value) } else n) hlast
        rw [Array.map_map, Array.map_map] at hmapped
        exact congrArg (· :: _) hmapped

end Sweeping

end DiagramSearch
