/-
# Evaluating an unrolled diagram

`Evaluated` is what is known of a diagram once it has told all it can.

* `Grown.clear`: **evaluating a diagram that was unrolled to the end finds no
  fault**, unless the bound of a lone root is at fault;
* `Request.evaluate_evaluated`: what an evaluation adds to the diagram is as it
  should be: the best nodes, and for a relaxed or an exact diagram the cut-set,
  the tails and the thresholds.

A value that a diagram tells, and is known to be exact, is that of a trail.
-/

import DiagramSearch.Proofs.Ranking
import DiagramSearch.Proofs.Sourcing
import DiagramSearch.Diagram.Compile

namespace DiagramSearch

open Extended Diagram

variable {σ κ : Type}

/-! ### The parts that a pass leaves alone -/

section Parts

variable {layers layers' : List (Layer σ Extended)}

theorem skeleton_of_uncut (h : layers.map (·.map Node.uncut) = layers'.map (·.map Node.uncut)) :
    layers.map (·.map Node.skeleton) = layers'.map (·.map Node.skeleton) :=
  map_map_eq (f := Node.uncut) Node.skeleton (fun _ => rfl) h

theorem skeleton_of_untailed
    (h : layers.map (·.map Node.untailed) = layers'.map (·.map Node.untailed)) :
    layers.map (·.map Node.skeleton) = layers'.map (·.map Node.skeleton) :=
  map_map_eq (f := Node.untailed) Node.skeleton (fun _ => rfl) h

theorem skeleton_of_unswept
    (h : layers.map (·.map Node.unswept) = layers'.map (·.map Node.unswept)) :
    layers.map (·.map Node.skeleton) = layers'.map (·.map Node.skeleton) := by
  refine map_map_eq Node.skeleton (fun n => ?_) h
  cases hf : n.fate <;> simp [Node.skeleton, Node.unswept, Node.isAlive, hf]

theorem core_of_skeleton
    (h : layers.map (·.map Node.skeleton) = layers'.map (·.map Node.skeleton)) :
    layers.map (·.map Node.core) = layers'.map (·.map Node.core) := by
  refine map_map_eq Node.core (fun n => ?_) h
  cases hf : n.fate <;> simp [Node.core, Node.skeleton, Node.isAlive, hf]

/-- The value of a node of the deepest layer depends on its core alone. -/
theorem map_longest_congr {d d' : Diagram σ Extended}
    (h : d.layers.map (·.map Node.core) = d'.layers.map (·.map Node.core)) (o : Option Nat) :
    (o >>= d.terminal?).map (·.longest) = (o >>= d'.terminal?).map (·.longest) := by
  have hlongest : ∀ ls : List (Layer σ Extended), ∀ j : Nat,
      ((ls.head? >>= fun layer => layer[j]?).map (·.longest)) =
        (((ls.map (·.map Node.core)).head? >>= fun layer => layer[j]?).map (·.longest)) := by
    intro ls j
    cases ls with
    | nil => rfl
    | cons l above =>
      change l[j]?.map _ = (l.map Node.core)[j]?.map _
      rw [Array.getElem?_map, Option.map_map]
      rfl
  rcases o with _ | j
  · rfl
  · change (d.terminal? j).map _ = (d'.terminal? j).map _
    unfold terminal?
    rw [hlongest, hlongest d'.layers, h]

end Parts

/-! ### What is known of the nodes -/

section Sketch

variable [BEq σ] {r : Request σ κ Extended} {cache : Cache σ Extended}
  {events : List (Event σ Extended)} {d : Diagram σ Extended}
  {layers layers' : List (Layer σ Extended)}

theorem Grown.sketched (hg : Grown r cache events d) (hend : Ended r d) :
    Sketched r cache events d.layers where
  woven := hg.woven
  bounded := hg.bounded
  rough := hg.rough
  branches := hg.branches
  ended := hend

omit [BEq σ] in
theorem Node.state_of_skeleton {n n' : Node σ Extended} (h : n.skeleton = n'.skeleton) :
    n.state = n'.state := (congrArg Node.state h :)

omit [BEq σ] in
theorem Node.isAlive_of_skeleton {n n' : Node σ Extended} (h : n.skeleton = n'.skeleton) :
    n.isAlive = n'.isAlive := (congrArg Node.isAlive h :)

omit [BEq σ] in
theorem Node.roughBound_of_skeleton {n n' : Node σ Extended} (h : n.skeleton = n'.skeleton) :
    n.roughBound = n'.roughBound := (congrArg Node.roughBound h :)

theorem Sketched.congr (h : Sketched r cache events layers)
    (hskel : layers.map (·.map Node.skeleton) = layers'.map (·.map Node.skeleton)) :
    Sketched r cache events layers' := by
  have hlen := length_of_map_eq hskel
  have hback : ∀ {i layer'} {n' : Node σ Extended}, level layers' i = some layer' → n' ∈ layer' →
      ∃ layer n, level layers i = some layer ∧ n ∈ layer ∧ n'.skeleton = n.skeleton := by
    intro i layer' n' hl' hn'
    obtain ⟨j, hj⟩ := Array.mem_iff_getElem?.1 hn'
    obtain ⟨layer, n, hl, hn, hnode⟩ := node_of_map_eq hskel.symm hl' hj
    exact ⟨layer, n, hl, Array.mem_of_getElem? hn, hnode⟩
  refine ⟨h.woven.congr (core_of_skeleton hskel), fun i layer' hl' hi n' hn' ha => ?_,
    fun i layer' hl' hi n' hn' => ?_, fun i hi => h.branches i (by omega),
    fun i layer' hl' hi => ?_⟩
  · obtain ⟨layer, n, hl, hn, heq⟩ := hback hl' hn'
    rw [Node.isAlive_of_skeleton heq] at ha
    rw [Node.roughBound_of_skeleton heq, Node.state_of_skeleton heq]
    exact h.bounded i layer hl (by omega) n hn ha
  · obtain ⟨layer, n, hl, hn, heq⟩ := hback hl' hn'
    rw [Node.roughBound_of_skeleton heq]
    exact h.rough i layer hl (by omega) n hn
  · obtain ⟨layer, hl, heq⟩ := level_of_map_eq hskel.symm hl'
    refine (h.ended i layer hl (by omega)).imp_right fun hdead n' hn' => ?_
    obtain ⟨j, hj⟩ := Array.mem_iff_getElem?.1 hn'
    obtain ⟨n, hn, hnode⟩ := Layer.getElem?_of_map_eq heq hj
    rw [Node.isAlive_of_skeleton hnode]
    exact hdead n (Array.mem_of_getElem? hn)

/-- Only a relaxed diagram has inexact nodes. -/
theorem Woven.exact_of_kind (h : Woven r cache events layers) (hkind : r.kind ≠ .relaxed)
    {i j : Nat} {layer : Layer σ Extended} {n : Node σ Extended}
    (hl : level layers i = some layer) (hn : layer[j]? = some n) : n.exact = true := by
  induction i generalizing layer j n with
  | zero => exact Node.exact_eq (h.eq_root hl hn).2
  | succ i ih =>
    obtain ⟨parents, hp, hjoined⟩ := h.joined hl hn
    have hplaced := h.placed (i + 1) layer hl n (Array.mem_of_getElem? hn)
    refine hjoined.exact ?_ fun e _ p hpe => ih hp hpe
    exact Bool.eq_false_iff.2 fun hm => hkind (hplaced.merged hm)

end Sketch

/-! ### Cut-sets and tails of layers that differ elsewhere -/

/-- The part of a node that a cut-set depends on. -/
def Node.frame (n : Node σ Extended) : Bool × Fate × Bool × List (Edge Extended) :=
  (n.exact, n.fate, n.cutset, n.inbound)

theorem Cut.congr {r : Request σ κ Extended} {d : Diagram σ Extended} (h : Cut r d)
    {layers : List (Layer σ Extended)}
    (hframe : layers.map (·.map Node.frame) = d.layers.map (·.map Node.frame)) :
    Cut r { d with layers } := by
  have hlen := length_of_map_eq hframe
  have hback : ∀ {i layer'} {j : Nat} {n' : Node σ Extended}, level layers i = some layer' →
      layer'[j]? = some n' → ∃ layer n, level d.layers i = some layer ∧ layer[j]? = some n ∧
        n'.exact = n.exact ∧ n'.isAlive = n.isAlive ∧ n'.cutset = n.cutset ∧
          n'.inbound = n.inbound := by
    intro i layer' j n' hl' hn'
    obtain ⟨layer, n, hl, hn, hnode⟩ := node_of_map_eq hframe hl' hn'
    obtain ⟨hex, hrest⟩ := Prod.mk.inj hnode
    obtain ⟨hfate, hrest⟩ := Prod.mk.inj hrest
    obtain ⟨hcut, hin⟩ := Prod.mk.inj hrest
    exact ⟨layer, n, hl, hn, hex, by rw [Node.isAlive, Node.isAlive, hfate], hcut, hin⟩
  have hlas : ∀ i {n n' : Node σ Extended}, n'.exact = n.exact →
      Diagram.lasting { d with layers } r.kind r.cutset i n' = d.lasting r.kind r.cutset i n := by
    intro i n n' hex
    unfold Diagram.lasting
    dsimp only
    rw [hex]
  refine ⟨fun i layer' j n' hl' hn' hcut => ?_, fun a ha => ?_,
    fun i ps' layer' p' hp' hl' y' hy' hya e he hpe hpa hplas hpcut => ?_,
    fun i layer' hl' n' hn' hnlas => ?_, fun layer' hl' n' hn' => ?_⟩
  · obtain ⟨layer, n, hl, hn, _, _, hc, _⟩ := hback hl' hn'
    exact h.listed i layer j n hl hn (hc ▸ hcut)
  · obtain ⟨layer, n, hl, hn, hex, ha', h0, hlt⟩ := h.sound a ha
    obtain ⟨layer', n', hl', hn', _⟩ := node_of_map_eq hframe.symm hl hn
    obtain ⟨layer₂, n₂, hl₂, hn₂, hex₂, ha₂, _⟩ := hback hl' hn'
    obtain rfl := Option.some.inj (hl.symm.trans hl₂)
    obtain rfl := Option.some.inj (hn.symm.trans hn₂)
    exact ⟨layer', n', hl', hn', hex₂.trans hex, ha₂.trans ha', h0, by rw [hlen]; exact hlt⟩
  · obtain ⟨k, hk⟩ := Array.mem_iff_getElem?.1 hy'
    obtain ⟨layer, y, hl, hy, hyex, hyalive, _, hyin⟩ := hback hl' hk
    obtain ⟨ps, p, hp, hpj, hpex, hpalive, hpc, _⟩ := hback hp' hpe
    rw [hlas (i + 1) hyex]
    refine h.covers i ps layer p hp hl y (Array.mem_of_getElem? hy) (hyalive ▸ hya) e (hyin ▸ he)
      hpj (hpalive ▸ hpa) ?_ (hpc ▸ hpcut)
    rw [← hlas i hpex]
    exact hplas
  · obtain ⟨j, hj⟩ := Array.mem_iff_getElem?.1 hn'
    obtain ⟨layer, n, hl, hn, hex, _⟩ := hback hl' hj
    rw [hlas i hex] at hnlas
    exact hex.trans (h.exact i layer hl n (Array.mem_of_getElem? hn) hnlas)
  · obtain ⟨j, hj⟩ := Array.mem_iff_getElem?.1 hn'
    obtain ⟨layer, n, hl, hn, hex, _⟩ := hback hl' hj
    rw [hlas 0 hex]
    exact h.root layer hl n (Array.mem_of_getElem? hn)

theorem Tailed.congr {layers layers' : List (Layer σ Extended)} (h : Tailed layers)
    (hsame : layers.map (·.map Node.unswept) = layers'.map (·.map Node.unswept)) :
    Tailed layers' := by
  have hlen := length_of_map_eq hsame
  refine ⟨fun i layer' hl' hi n' hn' halive => ?_,
    fun i ps' layer' hp' hl' n' hn' t ht e he p' hpe => ?_⟩
  · obtain ⟨j, hj⟩ := Array.mem_iff_getElem?.1 hn'
    obtain ⟨layer, n, hl, hn, heq⟩ := node_of_map_eq hsame.symm hl' hj
    rw [Node.isAlive_of_unswept heq] at halive
    rw [Node.tail_of_unswept heq]
    exact h.last i layer hl (by omega) n (Array.mem_of_getElem? hn) halive
  · obtain ⟨j, hj⟩ := Array.mem_iff_getElem?.1 hn'
    obtain ⟨layer, n, hl, hn, heq⟩ := node_of_map_eq hsame.symm hl' hj
    obtain ⟨ps, p, hp, hpj, hpeq⟩ := node_of_map_eq hsame.symm hp' hpe
    rw [Node.tail_of_unswept heq] at ht
    rw [Node.inbound_of_unswept heq] at he
    rw [Node.tail_of_unswept hpeq]
    exact h.lift i ps layer hp hl n (Array.mem_of_getElem? hn) t ht e he p hpj

/-! ### Evaluation -/

theorem layers_markBest (d : Diagram σ Extended) : d.markBest.layers = d.layers := by
  unfold markBest
  split
  · rfl
  · rfl

/-- The best nodes are found, and whether their value can be relied on. -/
theorem markExact_eq (d : Diagram σ Extended) (kind : Kind) (hd : d.layers ≠ []) :
    ∃ best bestExact isExact, d.markBest.markExact kind = { d with best, bestExact, isExact } ∧
      Ranked { d with best, bestExact, isExact } ∧
      (isExact = true ↔ d.lastExact = none ∨
        (kind = .relaxed ∧ ∀ j, best = some j → climbsToExact d.layers j = true)) := by
  obtain ⟨last, above, hlayers⟩ := List.exists_cons_of_ne_nil hd
  have hlast : ∀ l, level d.layers (d.layers.length - 1) = some l → l = last := by
    intro l hl
    rw [hlayers] at hl
    exact (Option.some.inj ((level_length last above).symm.trans hl)).symm
  refine ⟨last.best? fun n => n.isAlive, last.best? fun n => n.isAlive && n.exact,
    d.lastExact.isNone || (kind == .relaxed &&
      ((last.best? fun n => n.isAlive).map (climbsToExact d.layers)).getD true), ?_,
    ⟨fun l hl => ?_, fun l hl => ?_⟩, ?_⟩
  · unfold markExact markBest
    rw [hlayers]
  · obtain rfl := hlast l hl
    exact best?_chooses _ _
  · obtain rfl := hlast l hl
    exact best?_chooses _ _
  · rw [hlayers]
    rcases Option.eq_none_or_eq_some (last.best? fun n => n.isAlive) with hb | ⟨j, hb⟩
    · simp [hb]
    · simp [hb]

variable [BEq σ] {r : Request σ κ Extended} {cache : Cache σ Extended}
  {events : List (Event σ Extended)} {d : Diagram σ Extended}

/-- Where bounds are checked, none is found to be inadmissible. -/
def Request.Clear (r : Request σ κ Extended) (d : Diagram σ Extended) : Prop :=
  r.checks.watches = true → r.kind ≠ .relaxed → d.markBounds.inadmissible? = none

theorem Grown.marked (hg : Grown r cache events d) (best bestExact : Option Nat)
    (isExact : Bool) : Grown r cache events { d with best, bestExact, isExact } :=
  ⟨⟨hg.path, hg.unlisted, hg.woven, hg.bounded, hg.blank, hg.intact, hg.reduced⟩, hg.rough,
    hg.branches⟩

/-- **A sound model is never found to be inadmissible.** -/
theorem Grown.clear (hg : Grown r cache events d) (hend : Ended r d) (hr : r.Regular)
    (hroot : d.layers.length = 1 → r.Entered) : r.Clear d := by
  intro _ hkind
  refine DiagramSearch.inadmissible?_eq_none fun l hl n hn halive w hw => ?_
  obtain ⟨i, hi⟩ : ∃ i, level d.markBounds.layers i = some l :=
    List.mem_iff_getElem?.1 (List.mem_reverse.2 hl)
  obtain ⟨j, hj⟩ := Array.mem_iff_getElem?.1 hn
  have hmerged : ∀ i l, level d.layers i = some l → ∀ n ∈ l, n.merged = false := by
    intro i l hl n hn
    exact Bool.eq_false_iff.2 fun hm => hkind ((hg.woven.placed i l hl n hn).merged hm)
  have hsketch : Sketched r cache events d.markBounds.layers :=
    (hg.sketched hend).congr (skeleton_of_untailed (untailed_markBounds d).symm)
  have hlen : d.markBounds.layers.length = d.layers.length :=
    length_of_map_eq (untailed_markBounds d)
  exact (markBounds_within hg hend hmerged i l hi j n hj w hw).trans
    (hsketch.admissible hr (hlen ▸ hroot) hi hn halive)

omit [BEq σ] in
/-- Whether bounds are found to be inadmissible depends on the layers alone. -/
theorem inadmissible?_markBounds_congr (d d' : Diagram σ Extended) (h : d.layers = d'.layers) :
    d.markBounds.inadmissible? = d'.markBounds.inadmissible? := by
  unfold markBounds inadmissible?
  rw [h]
  cases d'.layers with
  | nil => rw [h]
  | cons last above => rfl

omit [BEq σ] in
/-- So no fault is found where bounds are checked, which is where no cut-set is
collected. -/
theorem Request.Clear.unfaulted (hclear : r.Clear d) {cut bounded : Diagram σ Extended}
    (hcut : r.kind ≠ .relaxed → cut.layers = d.layers)
    (hbounded : (if r.kind == .relaxed || r.checks.watches then cut.markBounds else cut) =
      bounded) :
    (if r.checks.watches && r.kind != .relaxed then bounded.inadmissible? else none) = none := by
  split
  · rename_i hwatch
    rw [Bool.and_eq_true, bne_iff_ne] at hwatch
    rw [hwatch.1, Bool.or_true, if_pos rfl] at hbounded
    rw [← hbounded, inadmissible?_markBounds_congr cut d (hcut hwatch.2)]
    exact hclear hwatch.1 hwatch.2
  · rfl

omit [BEq σ] in
theorem markBounds_if (b : Bool) (d : Diagram σ Extended) :
    ∃ layers, (if b then d.markBounds else d) = { d with layers } ∧ (b = true → Tailed layers) ∧
      layers.map (·.map Node.untailed) = d.layers.map (·.map Node.untailed) := by
  cases b with
  | true =>
    obtain ⟨layers, heq, htailed, hsame⟩ := markBounds_eq d
    exact ⟨layers, heq, fun _ => htailed, hsame⟩
  | false => exact ⟨d.layers, rfl, nofun, rfl⟩

/-- A diagram that was evaluated, in a session that it may have taught. -/
structure Evaluated (r : Request σ κ Extended) (session : Session σ κ Extended)
    (c : Compiled σ κ Extended) : Prop where
  outcome : c.outcome = .ok ⟨c.diagram.isExact, c.diagram.bestValue⟩
  path : c.diagram.path = r.residual.path
  sketched : Sketched r session.cache session.events c.diagram.layers
  ranked : Ranked c.diagram
  exact : r.kind = .exact → c.diagram.isExact = true
  /-- A diagram that is said to be exact lost nothing, unless it only bounds. -/
  whole : c.diagram.isExact = true → r.kind = .relaxed ∨ c.diagram.lastExact = none
  /-- Only a relaxed diagram has a cut-set. -/
  uncut : r.kind ≠ .relaxed → c.diagram.cutset = []
  /-- The path to the best node is a trail, unless the diagram only bounds. -/
  trusted : r.kind ≠ .relaxed ∨ c.diagram.isExact = true → ∀ last (j : Nat) n,
    level c.diagram.layers (c.diagram.layers.length - 1) = some last →
      c.diagram.best = some j → last[j]? = some n →
        r.Traced (c.diagram.layers.length - 1) (climb c.diagram.layers j) n.state n.longest
  surveyed : r.kind = .relaxed ∨ c.diagram.isExact = true →
    Surveyed r session.cache session.events c.diagram
  graded : r.kind = .relaxed ∨ c.diagram.isExact = true →
    Graded (c.diagram.sweepBest r.toBeat) c.diagram.layers
  taught : session.Taught (fun state depth t => (r.kind = .relaxed ∨ c.diagram.isExact = true) ∧
    Lesson (c.diagram.lasting r.kind r.cutset) c.diagram.layers state depth t) c.session
  sourced : r.kind = .relaxed ∨ c.diagram.isExact = true →
    Sourced (c.diagram.sweepBest r.toBeat) c.diagram.layers
  recalled : r.kind = .relaxed ∨ c.diagram.isExact = true → ∀ i layer,
    level c.diagram.layers i = some layer → ∀ n ∈ layer,
      c.diagram.lasting r.kind r.cutset i n = true → n.lesson?.isSome = true →
        n.depth < session.cache.layers.size →
          (c.session.cache.get? n.state n.depth).isSome = true

/-- What an evaluation leaves alone: the cores of the nodes and the last exact
layer. -/
def Diagram.SameShape (d d' : Diagram σ Extended) : Prop :=
  d'.layers.map (·.map Node.core) = d.layers.map (·.map Node.core) ∧ d'.lastExact = d.lastExact

/-- What is known of a diagram does not depend on its thresholds. -/
theorem Surveyed.congr (h : Surveyed r cache events d) {layers : List (Layer σ Extended)}
    (hsame : layers.map (·.map Node.unswept) = d.layers.map (·.map Node.unswept)) :
    Surveyed r cache events { d with layers } where
  toSketched := h.toSketched.congr (skeleton_of_unswept hsame.symm)
  whole := by
    intro i layer' hl' hkind n' hn'
    obtain ⟨j, hj⟩ := Array.mem_iff_getElem?.1 hn'
    obtain ⟨layer, n, hl, hn, heq⟩ := node_of_map_eq hsame hl' hj
    have hfate : n'.fate = n.fate := (congrArg Node.fate heq :)
    rw [hfate]
    exact h.whole i layer hl hkind n (Array.mem_of_getElem? hn)
  cut := h.cut.congr (map_map_eq (f := Node.unswept) Node.frame (fun _ => rfl) hsame)
  tailed hcut := (h.tailed hcut).congr hsame.symm

/-- A diagram that was not restricted, with its cut-set and its tails. -/
theorem Grown.surveyed (hg : Grown r cache events d) (hend : Ended r d)
    (hkind : r.kind = .relaxed ∨ d.lastExact = none)
    {layers layers' : List (Layer σ Extended)} {cutset : List Address}
    (hcut : Cut r { d with layers, cutset })
    (huncut : layers.map (·.map Node.uncut) = d.layers.map (·.map Node.uncut))
    (huntailed : layers'.map (·.map Node.untailed) = layers.map (·.map Node.untailed))
    (htailed : cutset ≠ [] → Tailed layers') :
    Surveyed r cache events { d with layers := layers', cutset } := by
  have hskel := (skeleton_of_untailed huntailed).trans (skeleton_of_uncut huncut)
  refine ⟨(hg.sketched hend).congr hskel.symm, fun i layer' hl' hi n' hn' => ?_,
    hcut.congr (map_map_eq (f := Node.untailed) Node.frame (fun _ => rfl) huntailed), htailed⟩
  obtain ⟨j, hj⟩ := Array.mem_iff_getElem?.1 hn'
  obtain ⟨layer, n, hl, hn, heq⟩ := node_of_map_eq hskel hl' hj
  have hfate : n'.fate = n.fate := (congrArg Node.fate heq :)
  rw [hfate]
  refine (hg.intact i layer hl (fun l hlast => ?_) n (Array.mem_of_getElem? hn)).2
  rcases hi with hne | rfl
  · rcases hkind with hrel | hnone
    · exact absurd hrel hne
    · rw [hnone] at hlast
      cases hlast
  · exact Nat.zero_le l

/-- The path to a node of the deepest layer is a trail if the node is known to be
exact, or meets an exact one on the way up. -/
theorem Layered.traced_last (h : Layered r cache events d) {j : Nat}
    (htrust : r.kind ≠ .relaxed ∨ d.lastExact = none ∨ climbsToExact d.layers j = true)
    {layers : List (Layer σ Extended)}
    (hcore : layers.map (·.map Node.core) = d.layers.map (·.map Node.core))
    {last : Layer σ Extended} {n : Node σ Extended}
    (hl : level layers (layers.length - 1) = some last) (hn : last[j]? = some n) :
    r.Traced (layers.length - 1) (climb layers j) n.state n.longest := by
  obtain ⟨layer, m, hl', hm, heq⟩ := node_of_map_eq hcore hl hn
  have hstem := Node.stem_eq_of_core_eq heq
  rw [length_of_map_eq hcore] at hl' ⊢
  rw [climb_congr hcore, Node.state_eq hstem, Node.longest_eq hstem]
  rcases htrust with hkind | hnone | hclimb
  · have htraced := h.woven.traced hl' hm (h.woven.exact_of_kind hkind hl' hm)
    rwa [upward_last] at htraced
  · have hex := h.exact hl' (fun l hl => by rw [hnone] at hl; cases hl) (Array.mem_of_getElem? hm)
    have htraced := h.woven.traced hl' hm hex
    rwa [upward_last] at htraced
  · have htraced := h.woven.traced_of_climbs hl' hm (by rw [upward_last]; exact hclimb)
    rwa [upward_last] at htraced

omit [BEq σ] in
/-- The best value is read off the nodes of the deepest layer, whatever they are told. -/
theorem Diagram.sweepBest_congr {d : Diagram σ Extended} {layers : List (Layer σ Extended)}
    (hcore : layers.map (·.map Node.core) = d.layers.map (·.map Node.core)) (toBeat : Extended) :
    Diagram.sweepBest { d with layers } toBeat = d.sweepBest toBeat := by
  have hvalue : Diagram.bestExactValue { d with layers } = d.bestExactValue :=
    map_longest_congr hcore d.bestExact
  rw [sweepBest, sweepBest, hvalue]

/-- The thresholds of a diagram after a sweep, from the best value that it knows. -/
theorem Diagram.SweptBy.graded {session : Session σ κ Extended}
    {out : Session σ κ Extended × Diagram σ Extended} (h : d.SweptBy r session out)
    (hranked : Ranked d) : Graded (out.2.sweepBest r.toBeat) out.2.layers := by
  obtain ⟨layers, hout, hsame⟩ := h.same
  have hcore := core_of_skeleton (skeleton_of_unswept hsame)
  have hbest : out.2.sweepBest r.toBeat = d.sweepBest r.toBeat := by
    rw [hout]
    exact sweepBest_congr hcore r.toBeat
  rw [hbest]
  refine ⟨h.swept, fun i layer' hl' hi n' hn' ha hex => ?_⟩
  -- An exact node of the deepest layer is one of those the best is chosen from.
  refine h.last ?_ i layer' hl' hi n' hn' ha hex
  obtain ⟨j, hj⟩ := Array.mem_iff_getElem?.1 hn'
  rw [hout] at hl' hi
  obtain ⟨layer, n, hl, hn, heq⟩ := node_of_map_eq hsame hl' hj
  have hlast : level d.layers (d.layers.length - 1) = some layer := by
    rw [← length_of_map_eq hsame, ← hi, Nat.add_sub_cancel]
    exact hl
  obtain ⟨v, hv, _⟩ := hranked.exists_bestExactValue ⟨layer, n, hlast, Array.mem_of_getElem? hn,
    (Node.isAlive_of_unswept heq).symm.trans ha, (Node.exact_of_unswept heq).symm.trans hex,
    le_rfl⟩
  rw [hv]
  rfl

/-- Before the sweep no node was told anything. -/
theorem Grown.untold {cache : Cache σ Extended} {events : List (Event σ Extended)}
    (hg : Grown r cache events d) {layers₁ layers₂ : List (Layer σ Extended)}
    (huncut : layers₁.map (·.map Node.uncut) = d.layers.map (·.map Node.uncut))
    (huntailed : layers₂.map (·.map Node.untailed) = layers₁.map (·.map Node.untailed)) :
    ∀ i layer, level layers₂ i = some layer → ∀ n ∈ layer, n.Untold := by
  intro i layer hl n hn
  obtain ⟨j, hj⟩ := Array.mem_iff_getElem?.1 hn
  obtain ⟨layer₁, n₁, hl₁, hn₁, heq₁⟩ := node_of_map_eq huntailed hl hj
  obtain ⟨layer₀, n₀, hl₀, hn₀, heq₀⟩ := node_of_map_eq huncut hl₁ hn₁
  have hblank := hg.blank i layer₀ hl₀ n₀ (Array.mem_of_getElem? hn₀)
  have hborrowed : n.borrowed = n₀.borrowed :=
    (congrArg Node.borrowed heq₁ :).trans (congrArg Node.borrowed heq₀ :)
  have halive : n.isAlive = n₀.isAlive :=
    (congrArg Node.isAlive heq₁ :).trans (congrArg Node.isAlive heq₀ :)
  have hthreshold : n.threshold = n₀.threshold :=
    (congrArg Node.threshold heq₁ :).trans (congrArg Node.threshold heq₀ :)
  refine ⟨hborrowed.trans hblank.borrowed, fun ha => ?_⟩
  rw [hthreshold]
  exact hblank.threshold (halive ▸ ha)

variable [LawfulBEq σ] {session : Session σ κ Extended}

/-- A diagram that was not restricted tells all there is to tell. -/
theorem Grown.evaluated_of_whole (hg : Grown r session.cache session.events d) (hend : Ended r d)
    (hclear : r.Clear d) (hkind : r.kind = .relaxed ∨ d.lastExact = none)
    {best bestExact : Option Nat} {isExact : Bool}
    (hm : d.markBest.markExact r.kind = { d with best, bestExact, isExact })
    (hranked : Ranked { d with best, bestExact, isExact })
    (hexact : isExact = true ↔ d.lastExact = none ∨
      (r.kind = .relaxed ∧ ∀ j, best = some j → climbsToExact d.layers j = true)) :
    Evaluated r session (r.evaluate session d) ∧ d.SameShape (r.evaluate session d).diagram := by
  have hgm := hg.marked best bestExact isExact
  obtain ⟨hcut, layers₁, cutset, h₁, huncut⟩ := markCutset_cut hgm.toLayered hkind
  rw [h₁] at hcut
  obtain ⟨layers₂, h₂, htailed, huntailed⟩ := markBounds_if
    (r.kind == .relaxed || r.checks.watches)
    { d with best, bestExact, isExact, layers := layers₁, cutset }
  -- Without a cut-set the layers are those that were unrolled.
  have huncutset : r.kind ≠ .relaxed → layers₁ = d.layers ∧ cutset = [] := by
    intro hrel
    rw [markCutset_of_none (d := { d with best, bestExact, isExact })
      (hkind.resolve_left hrel)] at h₁
    exact ⟨(congrArg Diagram.layers h₁ :).symm,
      (congrArg Diagram.cutset h₁ :).symm.trans hg.unlisted⟩
  have hunlisted := fun hrel => (huncutset hrel).2
  have hsurvey : Surveyed r session.cache session.events
      { d with best, bestExact, isExact, layers := layers₂, cutset } := by
    refine hgm.surveyed hend hkind hcut huncut huntailed fun hne => htailed ?_
    have hrel : r.kind = .relaxed := not_not.1 fun hrel => hne (hunlisted hrel)
    rw [hrel]
    rfl
  have hfault := hclear.unfaulted (fun hrel => (huncutset hrel).1) h₂
  have hsweep : (r.kind == .relaxed || isExact) = true := by
    rcases hkind with hrel | hnone
    · rw [hrel]
      rfl
    · rw [hexact.2 (.inl hnone), Bool.or_true]
  have hne : layers₂ ≠ [] := hsurvey.woven.ne_nil
  have hswept := Diagram.sweep_sweptBy
    { d with best, bestExact, isExact, layers := layers₂, cutset } r session hne
    fun i parents layer hp hl => (hsurvey.woven.linked i parents layer hp hl).anchored
  have heval : r.evaluate session d =
      let out := Diagram.sweep
        { d with best, bestExact, isExact, layers := layers₂, cutset } r session
      ⟨out.1, out.2, .ok ⟨out.2.isExact, out.2.bestValue⟩⟩ := by
    unfold Request.evaluate
    dsimp only
    rw [hm, h₁, h₂, hfault]
    dsimp only
    rw [if_pos hsweep]
  have hskel₂ := (skeleton_of_untailed huntailed).trans (skeleton_of_uncut huncut)
  have hranked₂ : Ranked { d with best, bestExact, isExact, layers := layers₂, cutset } :=
    hranked.congr (core_of_skeleton hskel₂) rfl rfl rfl
  have hgraded := hswept.graded hranked₂
  have hsourced := Diagram.sweep_sourced
    { d with best, bestExact, isExact, layers := layers₂, cutset } r session hne
    (hg.untold huncut huntailed)
  have hrecalled := Diagram.sweep_recalled
    { d with best, bestExact, isExact, layers := layers₂, cutset } r session hne
  rw [heval]
  dsimp only
  generalize Diagram.sweep { d with best, bestExact, isExact, layers := layers₂, cutset } r session
    = out at hswept hgraded hsourced hrecalled
  obtain ⟨layers₃, hout, hsame⟩ := hswept.same
  have hskel₃ := (skeleton_of_unswept hsame).trans hskel₂
  have htaught := hswept.taught
  rw [← Diagram.sweepBest_congr (core_of_skeleton (skeleton_of_unswept hsame)), ← hout] at hsourced
  rw [hout] at hgraded htaught hsourced hrecalled ⊢
  refine ⟨⟨rfl, hg.path, (hg.sketched hend).congr hskel₃.symm,
    hranked.congr (core_of_skeleton hskel₃) rfl rfl rfl, fun hex => ?_, fun _ => hkind, hunlisted,
    fun htrust last j n hl hj hn => ?_, fun _ => hsurvey.congr hsame, fun _ => hgraded,
    htaught.mono fun _ _ _ h => ⟨?_, h⟩, fun _ => hsourced, fun _ => hrecalled⟩,
    core_of_skeleton hskel₃, rfl⟩
  · exact hexact.2 (.inl (hkind.resolve_left (by rw [hex]; exact Kind.noConfusion)))
  · refine hg.toLayered.traced_last ?_ (core_of_skeleton hskel₃) hl hn
    refine htrust.imp_right fun hex => ?_
    exact (hexact.1 hex).imp_right fun hclimb => hclimb.2 j hj
  · rcases hkind with hrel | hnone
    · exact .inl hrel
    · exact .inr (hexact.2 (.inl hnone))

omit [LawfulBEq σ] in
/-- A diagram from which nodes were dropped tells its best node. -/
theorem Grown.evaluated_of_dropped (hg : Grown r session.cache session.events d) (hend : Ended r d)
    (hclear : r.Clear d) (hkind : ¬(r.kind = .relaxed ∨ d.lastExact = none))
    {best bestExact : Option Nat} {isExact : Bool}
    (hm : d.markBest.markExact r.kind = { d with best, bestExact, isExact })
    (hranked : Ranked { d with best, bestExact, isExact })
    (hexact : isExact = true ↔ d.lastExact = none ∨
      (r.kind = .relaxed ∧ ∀ j, best = some j → climbsToExact d.layers j = true)) :
    Evaluated r session (r.evaluate session d) ∧ d.SameShape (r.evaluate session d).diagram := by
  push Not at hkind
  obtain ⟨hrel, hlast⟩ := hkind
  have hfalse : isExact = false := by
    refine Bool.eq_false_iff.2 fun hex => ?_
    rcases hexact.1 hex with hnone | hclimb
    · exact hlast hnone
    · exact hrel hclimb.1
  have h₁ : Diagram.markCutset { d with best, bestExact, isExact } r.kind r.cutset =
      { d with best, bestExact, isExact } := by
    unfold markCutset
    cases hk : r.kind with
    | relaxed => exact absurd hk hrel
    | restricted => rfl
    | exact => rfl
  obtain ⟨layers₂, h₂, _, huntailed⟩ := markBounds_if (r.kind == .relaxed || r.checks.watches)
    { d with best, bestExact, isExact }
  have hfault := hclear.unfaulted (fun _ => by rfl) h₂
  have hsweep : ¬(r.kind == .relaxed || isExact) = true := by
    rw [hfalse, Bool.or_false, beq_iff_eq]
    exact hrel
  have heval : r.evaluate session d =
      ⟨session, { d with best, bestExact, isExact, layers := layers₂ },
      .ok ⟨isExact, Diagram.bestValue { d with best, bestExact, isExact, layers := layers₂ }⟩⟩ := by
    unfold Request.evaluate
    dsimp only
    rw [hm, h₁, h₂, hfault]
    dsimp only
    rw [if_neg hsweep]
  have hskel := skeleton_of_untailed huntailed
  have hnot : ¬(r.kind = .relaxed ∨ isExact = true) := by
    rintro (h | h)
    · exact hrel h
    · rw [hfalse] at h
      cases h
  have hnever : r.kind ≠ .exact := by
    obtain ⟨l, hl⟩ := Option.ne_none_iff_exists'.1 hlast
    rcases (hg.reduced l hl).2 with hres | hres
    · rw [hres]
      exact Kind.noConfusion
    · exact absurd hres.1 hrel
  rw [heval]
  exact ⟨⟨rfl, hg.path, (hg.sketched hend).congr hskel.symm,
    hranked.congr (core_of_skeleton hskel) rfl rfl rfl, fun hex => absurd hex hnever,
    fun hex => absurd (.inr hex) hnot, fun _ => hg.unlisted,
    fun _ last j n hl _ hn =>
      hg.toLayered.traced_last (.inl hrel) (core_of_skeleton hskel) hl hn,
    fun h => absurd h hnot, fun h => absurd h hnot, .refl _ _, fun h => absurd h hnot,
    fun h => absurd h hnot⟩, core_of_skeleton hskel, rfl⟩

/-- **What evaluating a diagram that was unrolled to the end brings about.** -/
theorem Request.evaluate_evaluated (hg : Grown r session.cache session.events d)
    (hend : Ended r d) (hclear : r.Clear d) :
    Evaluated r session (r.evaluate session d) ∧ d.SameShape (r.evaluate session d).diagram := by
  obtain ⟨best, bestExact, isExact, hm, hranked, hexact⟩ :=
    markExact_eq d r.kind hg.woven.ne_nil
  by_cases hkind : r.kind = .relaxed ∨ d.lastExact = none
  · exact hg.evaluated_of_whole hend hclear hkind hm hranked hexact
  · exact hg.evaluated_of_dropped hend hclear hkind hm hranked hexact

omit [LawfulBEq σ] in
/-- **Where bounds are checked, the first one that is found to be inadmissible is the
fault**, and there is no other. -/
theorem Request.evaluate_error_iff (session : Session σ κ Extended)
    (hwatch : r.checks.watches = true) (hkind : r.kind ≠ .relaxed) {fault : Fault σ Extended} :
    (r.evaluate session d).outcome = .error fault ↔ d.markBounds.inadmissible? = some fault := by
  have hmark : ((d.markBest.markExact r.kind).markCutset r.kind r.cutset).layers = d.layers := by
    unfold markCutset
    cases hk : r.kind with
    | relaxed => exact absurd hk hkind
    | exact => exact layers_markBest d
    | restricted => exact layers_markBest d
  have hcond : (r.checks.watches && r.kind != .relaxed) = true := by
    rw [hwatch, Bool.true_and, bne_iff_ne]
    exact hkind
  unfold evaluate
  dsimp only
  rw [if_pos hcond, hwatch, Bool.or_true, if_pos rfl, inadmissible?_markBounds_congr _ d hmark]
  cases d.markBounds.inadmissible? with
  | none => exact ⟨nofun, nofun⟩
  | some found => exact ⟨fun h => congrArg some (Except.error.inj h),
      fun h => congrArg Except.error (Option.some.inj h)⟩

omit [LawfulBEq σ] in
/-- An evaluation without a fault found no bound to be inadmissible. -/
theorem Request.clear_of_ok {report : Report Extended}
    (h : (r.evaluate session d).outcome = .ok report) : r.Clear d := by
  intro hwatch hkind
  refine Option.eq_none_iff_forall_not_mem.2 fun fault hfault => ?_
  have herror := (Request.evaluate_error_iff session hwatch hkind).2 hfault
  rw [h] at herror
  cases herror

end DiagramSearch
