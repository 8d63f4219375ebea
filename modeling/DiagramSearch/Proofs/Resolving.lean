/-
# What becomes of a target that can still be reached

Two things rest on a compiled diagram: that a sub-problem need not be looked at
again once its cut-set is open, and that no path which stays below a threshold
need be followed.  In both cases one asks what became of a target above the best
value known.

* `Surveyed.finds`: from the root of the diagram it is found in the deepest
  layer, or a node of the cut-set passes it on, or a node on the way was set
  aside, by the cache (`Escapes`) or as dominated (`Lost`);
* `Surveyed.learns`: below the threshold of a lasting node it is passed on by the
  cut-set or was set aside, always deeper than the node itself, unless that node
  is in the cut-set and meets the target exactly.
-/

import DiagramSearch.Proofs.Descending

namespace DiagramSearch

open Extended Diagram

variable {σ κ : Type}

/-- The cache holds a threshold, below a layer, under which the target can be
reached. -/
def Escapes [BEq σ] (r : Request σ κ Extended) (cache : Cache σ Extended) (target : Extended)
    (i : Nat) : Prop :=
  ∃ k s t, i < k ∧ cache.get? s (r.residual.depth + k) = some t ∧
    target ≤ t.value + r.optimumAt k s

/-- A pair that was found to be dominated is at least as good as one that is
followed. -/
def Lost (r : Request σ κ Extended) (events : List (Event σ Extended))
    (safe : Nat → σ → Extended → Prop) : Prop :=
  r.dominance ≠ none ∧
  ∃ k s v t h, .checked s (r.residual.depth + k) v (some t) ∈ events ∧ h ≤ v ∧
    safe (r.residual.depth + k) s h

/-- A pair was found to be dominated by a value that reaches the target from its
own state. -/
def Outbid (r : Request σ κ Extended) (events : List (Event σ Extended)) (target : Extended) :
    Prop :=
  r.dominance ≠ none ∧ ∃ k s v t, .checked s (r.residual.depth + k) v (some t) ∈ events ∧
    target ≤ t + r.optimumAt k s

/-- The deepest layer holds a node that reaches the target. -/
def Attained (layers : List (Layer σ Extended)) (target : Extended)
    (accepts : Node σ Extended → Prop) : Prop :=
  ∃ l z, level layers (layers.length - 1) = some l ∧ z ∈ l ∧ z.isAlive = true ∧ accepts z ∧
    target ≤ z.longest

/-- A node of the cut-set passes the target on. -/
structure Emits (r : Request σ κ Extended) (d : Diagram σ Extended) (target : Extended)
    (safe : Nat → σ → Extended → Prop) (k j : Nat) (z : Node σ Extended) : Prop where
  node : ∃ layer, level d.layers k = some layer ∧ layer[j]? = some z
  listed : ⟨k, j⟩ ∈ d.cutset
  safe : safe (r.residual.depth + k) z.state z.longest
  rough : target ≤ z.longest + z.roughBound
  tail : ∃ w, z.tail = some w ∧ target ≤ z.longest + w
  best : Attained d.layers target fun _ => True

/-- A node of the cut-set that still has to be explored. -/
def Node.Open (best : Extended) (n : Node σ Extended) : Prop :=
  n.cutset = true ∧ best < n.longest + n.tail.getD negInf

/-- Thresholds that were swept down to the deepest layer, where the best value is
what counts at the end of an exact path. -/
structure Graded (best : Extended) (layers : List (Layer σ Extended)) : Prop where
  swept : Swept best layers
  last : ∀ i layer, level layers i = some layer → i + 1 = layers.length → ∀ n ∈ layer,
    n.isAlive = true → n.exact = true → n.cutset = false → ∀ h ≤ n.threshold.getD posInf,
      h + n.roughBound ≤ best ∨ h ≤ best

theorem Escapes.weaken [BEq σ] {r : Request σ κ Extended} {cache : Cache σ Extended}
    {target target' : Extended} {i : Nat} (h : Escapes r cache target' i) (hle : target ≤ target') :
    Escapes r cache target i := by
  obtain ⟨k, s, t, hk, ht, hreach⟩ := h
  exact ⟨k, s, t, hk, ht, hle.trans hreach⟩

theorem Outbid.weaken {r : Request σ κ Extended} {events : List (Event σ Extended)}
    {target target' : Extended} (h : Outbid r events target') (hle : target ≤ target') :
    Outbid r events target := by
  obtain ⟨hrel, k, s, v, t, hmem, hreach⟩ := h
  exact ⟨hrel, k, s, v, t, hmem, hle.trans hreach⟩

theorem Escapes.mono [BEq σ] {r : Request σ κ Extended} {cache : Cache σ Extended}
    {target : Extended} {i k : Nat} (h : Escapes r cache target k) (hik : i ≤ k) :
    Escapes r cache target i := by
  obtain ⟨m, s, t, hk, ht⟩ := h
  exact ⟨m, s, t, by omega, ht⟩

namespace Surveyed

variable [BEq σ] {r : Request σ κ Extended} {cache : Cache σ Extended}
  {events : List (Event σ Extended)} {d : Diagram σ Extended} {target best h : Extended}
  {safe : Nat → σ → Extended → Prop} {i j k : Nat} {layer : Layer σ Extended}
  {x y z : Node σ Extended} {room : Node σ Extended → Extended}

/-! ### What is carried down -/

/-- A value that is at most the longest path of a node is at most that of its
children once the edge is paid. -/
theorem passes_longest (hs : Surveyed r cache events d) (hr : r.Regular)
    (hbeat : r.toBeat < target) : Passes r d.layers target (·.longest) fun _ => False := by
  intro i parents layer j p hl hl' hp halive _ h hh hreach
  refine ⟨?_, fun y hy _ e he hej => ?_⟩
  · calc r.toBeat < target := hbeat
      _ ≤ h + r.optimumAt i p.state := hreach
      _ ≤ p.longest + r.optimumAt i p.state := add_le_add_left hh _
      _ ≤ p.longest + r.model.relaxation.upperBound p.state (r.freeAt i) :=
        add_le_add_right (hr.sound.admissible p.state (r.freeAt i)) _
  · obtain ⟨q, hq, hfrom⟩ := ((hs.woven.linked i parents layer hl hl').joined y hy).edge e he
    rw [hej] at hq
    obtain rfl := Option.some.inj (hp.symm.trans hq)
    exact (add_le_add_left hh e.cost).trans hfrom.le_longest

/-- So is a value below the threshold of a node, unless the node still has to be
explored. -/
theorem passes_threshold (hs : Surveyed r cache events d) (hr : r.Regular)
    (hswept : Swept best d.layers)
    (hbeat : r.toBeat ≤ best) (hbest : best < target) :
    Passes r d.layers target (fun n => n.threshold.getD posInf) (Node.Open best) := by
  intro i parents layer j p hl hl' hp halive hopen h hh hreach
  have hmem := Array.mem_of_getElem? hp
  rcases hswept.cases hl hp halive hh with hrough | ⟨hcut, htail, _⟩ | ⟨hrough, _, hfits⟩
  · have hlt := lt_of_level hl'
    have hle := hreach.trans
      (add_le_add_right (hs.admissible hr (by omega) hl hmem halive) h)
    exact absurd (hle.trans hrough) (not_le.2 hbest)
  · exact absurd ⟨hcut, htail⟩ hopen
  · refine ⟨?_, hfits layer hl'⟩
    rw [hs.bounded i parents hl (lt_of_level hl') p hmem halive] at hrough
    exact lt_of_le_of_lt hbeat hrough

/-! ### Nodes that were set aside -/

theorem escapes_of_cached (hs : Surveyed r cache events d)
    (hy : Arrives r d.layers target safe room k layer j y h) (hik : i < k)
    (hfate : y.fate = .cached)
    (hroom : ∀ t, y.longest ≤ t → y.threshold = some t → room y ≤ t) :
    Escapes r cache target i := by
  have hplaced := hs.woven.placed k layer hy.level y (Array.mem_of_getElem? hy.node)
  obtain ⟨_, t, ht, hle, hthr⟩ := hplaced.cached hfate
  rw [hplaced.depth] at ht
  refine ⟨k, y.state, t, hik, ht, hy.carries.reach.trans (add_le_add_left ?_ _)⟩
  exact hy.room.trans (hroom t.value hle hthr)

theorem lost_of_dominated (hs : Surveyed r cache events d)
    (hy : Arrives r d.layers target safe (·.longest) k layer j y h) (hfate : y.fate = .dominated) :
    Lost r events safe := by
  have hplaced := hs.woven.placed k layer hy.level y (Array.mem_of_getElem? hy.node)
  obtain ⟨hrel, hex, t, _, hmem⟩ := hplaced.dominated hfate
  rw [hplaced.depth] at hmem
  exact ⟨hrel, k, y.state, y.longest, t, h, hmem, hy.room, hy.carries.safe hex⟩

theorem outbid_of_dominated (hs : Surveyed r cache events d)
    (hy : Arrives r d.layers target safe (fun n => n.threshold.getD posInf) k layer j y h)
    (hfate : y.fate = .dominated) : Outbid r events target := by
  have hplaced := hs.woven.placed k layer hy.level y (Array.mem_of_getElem? hy.node)
  obtain ⟨hrel, _, t, ht, hmem⟩ := hplaced.dominated hfate
  rw [hplaced.depth] at hmem
  have hroom := hy.room
  rw [ht] at hroom
  exact ⟨hrel, k, y.state, y.longest, t, hmem, hy.carries.reach.trans (add_le_add_left hroom _)⟩

/-! ### From the root -/

/-- A node of the cut-set from which the target can be reached passes it on. -/
theorem emits_of_cutset (hs : Surveyed r cache events d) (hr : r.Regular)
    (ht : r.Thread target safe) (hbeat : r.toBeat < target)
    (hz : Arrives r d.layers target safe (·.longest) k layer j z h) (hlisted : ⟨k, j⟩ ∈ d.cutset) :
    Escapes r cache target k ∨ Lost r events safe ∨ Emits r d target safe k j z := by
  obtain ⟨layer', n, hl', hn, hex, halive, _, hlt⟩ := hs.cut.sound _ hlisted
  obtain rfl := Option.some.inj (hl'.symm.trans hz.level)
  obtain rfl := Option.some.inj (hn.symm.trans hz.node)
  have htailed := hs.tailed (List.ne_nil_of_mem hlisted)
  have htraced := hs.woven.traced hz.level hz.node hex
  have hsafe := ht.raise k n.state h _ n.longest (hz.carries.safe hex) hz.room htraced
  rcases hs.descend_tail hr ht htailed (hs.passes_longest hr hbeat) hz halive not_false with
    ⟨m, l, q, y, h', hm, hy, hfate | hfate | hfalse⟩ | ⟨w, hw, hreach, l, y, hl, hy, hyalive, hle⟩
  · exact .inl (hs.escapes_of_cached hy hm hfate fun t hle _ => hle)
  · exact .inr (.inl (hs.lost_of_dominated hy hfate))
  · exact hfalse.2.elim
  · refine .inr (.inr ⟨⟨layer', hz.level, hz.node⟩, hlisted, hsafe, ?_, ⟨w, hw, ?_⟩, l, y, hl, hy,
      hyalive, trivial, hle⟩)
    · refine hz.carries.reach.trans ?_
      exact add_le_add hz.room
        (hs.admissible hr (by omega) hz.level (Array.mem_of_getElem? hz.node) halive)
    · exact hreach.trans (add_le_add_left hz.room w)

/-- **What becomes of a target that can be reached from the root.** -/
theorem finds (hs : Surveyed r cache events d) (hr : r.Regular) (ht : r.Thread target safe)
    (hbeat : r.toBeat < target) (hroot : safe r.residual.depth r.residual.state r.residual.value) :
    Escapes r cache target 0 ∨ Lost r events safe ∨
      Attained d.layers target (fun n => n.exact = true) ∨
      ∃ k j z, Emits r d target safe k j z := by
  obtain ⟨x, hl, hstem⟩ := hs.woven.root
  have hx0 : (#[x] : Layer σ Extended)[0]? = some x := rfl
  have hmem := Array.mem_of_getElem? hx0
  have hlongest : x.longest = r.residual.value := Node.longest_eq hstem
  have hstate : x.state = r.residual.state := Node.state_eq hstem
  have hx : Arrives r d.layers target safe (·.longest) 0 #[x] 0 x r.residual.value := by
    refine ⟨hl, hx0, hlongest.ge, ?_, fun _ => ?_⟩
    · rw [hstate]
      exact ht.reach 0 _ _ hroot
    · rw [hstate]
      exact hroot
  have hset : x.isAlive = true ∨ x.fate = .dominated := by
    cases hf : x.fate with
    | alive => exact .inl (by simp [Node.isAlive, hf])
    | cached => exact absurd ((hs.woven.placed 0 _ hl x hmem).cached hf).1 (Nat.lt_irrefl 0)
    | dominated => exact .inr rfl
    | deleted => exact absurd hf (hs.whole 0 _ hl (.inr rfl) x hmem)
  rcases hset with halive | hdom
  · obtain ⟨k, l, m, y, h', _, _, hy, hend⟩ := hs.descend_lasting hr ht
      ((hs.passes_longest hr hbeat).mono fun _ => False.elim) hx halive (hs.cut.root _ hl x hmem)
    rcases hend with ⟨hk, hfate | hfate⟩ | ⟨hyalive, hylas, hcut | ⟨_, hlast⟩⟩
    · exact .inl (hs.escapes_of_cached hy hk hfate fun t hle _ => hle)
    · exact .inr (.inl (hs.lost_of_dominated hy hfate))
    · rcases hs.emits_of_cutset hr ht hbeat hy (hs.cut.listed k l m y hy.level hy.node hcut) with
        hesc | hlost | hemit
      · exact .inl (hesc.mono (Nat.zero_le k))
      · exact .inr (.inl hlost)
      · exact .inr (.inr (.inr ⟨k, m, y, hemit⟩))
    · have hex := hs.cut.exact k l hy.level y (Array.mem_of_getElem? hy.node) hylas
      refine .inr (.inr (.inl ⟨l, y, ?_, Array.mem_of_getElem? hy.node, hyalive, hex, ?_⟩))
      · rw [← hlast, Nat.add_sub_cancel]
        exact hy.level
      · exact (hs.reach_last hlast hy hyalive).trans hy.room
  · exact .inr (.inl (hs.lost_of_dominated hx hdom))

/-! ### Below the threshold of a lasting node -/

/-- A node of the cut-set holds a value below its threshold, for as long as it has
to be explored, or a node below it does, or the value was set aside. -/
theorem open_of_cutset (hs : Surveyed r cache events d) (hr : r.Regular)
    (hswept : Swept best d.layers) (hbeat : r.toBeat ≤ best) (hbest : best < target)
    (hz : Arrives r d.layers target (r.loose target) (fun n => n.threshold.getD posInf) k layer j
      z h)
    (halive : z.isAlive = true) (hcut : z.cutset = true) :
    Escapes r cache target k ∨ Outbid r events target ∨
      ∃ m l q y, k ≤ m ∧ (m = k → y = z) ∧ y.isAlive = true ∧ y.cutset = true ∧
        Arrives r d.layers target (r.loose target) (·.longest) m l q y y.longest := by
  have htarget : target ≠ negInf := negInf_lt_iff.1 ((negInf_le best).trans_lt hbest)
  have ht : r.Thread target (r.loose target) := Request.thread_loose htarget
  have hlisted := hs.cut.listed k layer j z hz.level hz.node hcut
  have htailed := hs.tailed (List.ne_nil_of_mem hlisted)
  obtain ⟨_, _, _, _, _, _, _, hlt⟩ := hs.cut.sound _ hlisted
  -- A node that halts the value has it on its longest path.
  have hopen : ∀ {m l q y h}, Arrives r d.layers target (r.loose target)
      (fun n => n.threshold.getD posInf) m l q y h → y.isAlive = true → y.Open best →
      Arrives r d.layers target (r.loose target) (·.longest) m l q y y.longest := by
    intro m l q y h hy hyalive hyopen
    have hreach := hy.carries.reach
    have hmem := Array.mem_of_getElem? hy.node
    rcases hswept.cases hy.level hy.node hyalive hy.room with hrough | ⟨_, _, hle⟩ | ⟨_, htail, _⟩
    · have hle :=
        hreach.trans (add_le_add_right (hs.admissible hr (by omega) hy.level hmem hyalive) h)
      exact absurd (hle.trans hrough) (not_le.2 hbest)
    · exact ⟨hy.level, hy.node, le_rfl, .of_reach (hreach.trans (add_le_add_left hle _))⟩
    · refine ⟨hy.level, hy.node, le_rfl, .of_reach ?_⟩
      -- Its tail leaves no room for the value, but for the longest path.
      rcases le_total h y.longest with hle | hle
      · exact hreach.trans (add_le_add_left hle _)
      · exact absurd ((add_le_add_left hle _).trans (htail hyopen.1)) (not_le.2 hyopen.2)
  by_cases hzopen : z.Open best
  · exact .inr (.inr ⟨k, layer, j, z, le_rfl, fun _ => rfl, halive, hcut, hopen hz halive hzopen⟩)
  · rcases hs.descend_tail hr ht htailed (hs.passes_threshold hr hswept hbeat hbest) hz halive
      hzopen
      with ⟨m, l, q, y, h', hm, hy, hfate | hfate | ⟨hyalive, hyopen⟩⟩ | ⟨w, hw, hreach, _⟩
    · refine .inl (hs.escapes_of_cached hy hm hfate fun t _ hthr => ?_)
      rw [hthr]
      exact le_rfl
    · exact .inr (.inl (hs.outbid_of_dominated hy hfate))
    · exact .inr (.inr ⟨m, l, q, y, hm.le, fun h => by omega, hyalive, hyopen.1,
        hopen hy hyalive hyopen⟩)
    · -- The tail of a node that need not be explored leaves no room.
      rcases hswept.cases hz.level hz.node halive hz.room with
        hrough | ⟨_, htail, _⟩ | ⟨_, htail, _⟩
      · have hmem := Array.mem_of_getElem? hz.node
        have hle := hz.carries.reach.trans
          (add_le_add_right (hs.admissible hr (by omega) hz.level hmem halive) h)
        exact absurd (hle.trans hrough) (not_le.2 hbest)
      · exact absurd ⟨hcut, htail⟩ hzopen
      · have hroom := htail hcut
        rw [hw] at hroom
        exact absurd (hreach.trans hroom) (not_le.2 hbest)

/-- **What becomes of a target below the threshold of a lasting node.** -/
theorem learns (hs : Surveyed r cache events d) (hr : r.Regular)
    (hroot : d.layers.length = 1 → r.Entered) (hgraded : Graded best d.layers)
    (hbeat : r.toBeat ≤ best) (hbest : best < target) (hl : level d.layers i = some layer)
    (hx : layer[j]? = some x) (halive : x.isAlive = true)
    (hlas : d.lasting r.kind r.cutset i x = true) {t : Extended} (ht : x.threshold = some t)
    (hreach : target ≤ t + r.optimumAt i x.state) :
    Escapes r cache target i ∨ Outbid r events target ∨ Lost r events (r.loose target) ∨
      ∃ k j z, Emits r d target (r.loose target) k j z ∧ i ≤ k ∧ (k = i → x.cutset = true) ∧
        t + r.optimumAt i x.state ≤ z.longest + r.optimumAt k z.state := by
  -- The walk follows everything that the threshold promises.
  generalize hu : t + r.optimumAt i x.state = u at *
  have hbest' := hbest.trans_le hreach
  have hu_ne : u ≠ negInf := negInf_lt_iff.1 ((negInf_le best).trans_lt hbest')
  have hthread : r.Thread u (r.loose u) := Request.thread_loose hu_ne
  have harr : Arrives r d.layers u (r.loose u) (fun n => n.threshold.getD posInf) i layer j x t :=
    ⟨hl, hx, by rw [ht]; exact le_rfl, .of_reach hu.ge⟩
  obtain ⟨k, l, m, y, h', hik, hkx, hy, hend⟩ := hs.descend_lasting hr hthread
    ((hs.passes_threshold hr hgraded.swept hbeat hbest').mono fun _ h => h.1) harr halive hlas
  rcases hend with ⟨hk, hfate | hfate⟩ | ⟨hyalive, hylas, hcut | ⟨hcut, hlast⟩⟩
  · refine .inl (Escapes.weaken (hs.escapes_of_cached hy hk hfate fun t _ hthr => ?_) hreach)
    rw [hthr]
    exact le_rfl
  · exact .inr (.inl ((hs.outbid_of_dominated hy hfate).weaken hreach))
  · rcases hs.open_of_cutset hr hgraded.swept hbeat hbest' hy hyalive hcut with hesc | hout |
      ⟨m', l', q, z, hkm, hmz, hzalive, hzcut, hz⟩
    · exact .inl ((hesc.weaken hreach).mono hik)
    · exact .inr (.inl (hout.weaken hreach))
    · have hz' : Arrives r d.layers target (r.loose target) (·.longest) m' l' q z z.longest :=
        ⟨hz.level, hz.node, le_rfl, .of_reach (hreach.trans hz.carries.reach)⟩
      have htarget : target ≠ negInf := negInf_lt_iff.1 ((negInf_le best).trans_lt hbest)
      rcases hs.emits_of_cutset hr (Request.thread_loose htarget) (hbeat.trans_lt hbest) hz'
        (hs.cut.listed m' l' q z hz.level hz.node hzcut) with hesc | hlost | hemit
      · exact .inl (hesc.mono (hik.trans hkm))
      · exact .inr (.inr (.inl hlost))
      · refine .inr (.inr (.inr ⟨m', q, z, hemit, hik.trans hkm, fun hmi => ?_, hz.carries.reach⟩))
        have hki : k = i := by omega
        rw [← hkx hki]
        exact hcut
  · -- At the end of an exact path there is no room above the best value.
    have hmem := Array.mem_of_getElem? hy.node
    have hex := hs.cut.exact k l hy.level y hmem hylas
    have hle := hs.reach_last hlast hy hyalive
    rcases hgraded.last k l hy.level hlast y hmem hyalive hex hcut h' hy.room with hrough | hroom
    · have hle' := hy.carries.reach.trans
        (add_le_add_right (hs.admissible hr hroot hy.level hmem hyalive) h')
      exact absurd (hle'.trans hrough) (not_le.2 hbest')
    · exact absurd (hle.trans hroom) (not_le.2 hbest')

end Surveyed
end DiagramSearch
