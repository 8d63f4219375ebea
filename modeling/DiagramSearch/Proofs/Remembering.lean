/-
# What one compilation tells the cache

A threshold is safe to prune with if whatever lies below it is accounted for elsewhere:
the value and the optimum of the state add up to no more than the best value known, or
than what a sub-problem that is handed out still promises.  That sub-problem lies deeper
than the threshold, or as deep if the threshold is not marked explored.

An exact compilation without bounds hands nothing out, so its thresholds are as low as
that.  They are not lower either: a threshold comes from the best value or from a child
(`Sourced`), and each decision takes its cost from the room that is left.

* `Evaluated.accounts`: **what lies below a threshold of the diagram is accounted for**;
* `Sourced.headroom_le`: **no threshold of a plain diagram is below the room that is
  left**;
* `Request.compile_remembers`: both, for what the cache holds afterwards.
-/

import DiagramSearch.Proofs.Vouching

namespace DiagramSearch

open Extended Diagram

variable {σ κ : Type} {r : Request σ κ Extended}

/-! ### Thresholds are not too high -/

section Accounts

variable [BEq σ] {session : Session σ κ Extended} {c : Compiled σ κ Extended}

/-- **What lies below a threshold is worth no more than the best value known, or than a
sub-problem that is handed out**, as deep as the threshold only if its node is in the
cut-set. -/
theorem Evaluated.accounts (h : Evaluated r session c) (hr : r.Regular)
    (hfine : r.kind = .relaxed ∨ c.diagram.isExact = true) (hdom : r.dominance = none)
    (hcache : ∀ state depth, session.cache.get? state depth = none)
    (hroot : c.diagram.layers.length = 1 → r.Entered) {i : Nat} {layer : Layer σ Extended}
    {n : Node σ Extended} (hl : level c.diagram.layers i = some layer) (hn : n ∈ layer)
    (halive : n.isAlive = true) (hlas : c.diagram.lasting r.kind r.cutset i n = true)
    {t : Extended} (ht : n.threshold = some t) :
    t + r.optimumAt i n.state ≤ c.diagram.sweepBest r.toBeat ∨
      ∃ z ∈ c.diagram.handOut.1, r.residual.depth + i ≤ z.depth ∧
        (n.cutset = false → r.residual.depth + i < z.depth) ∧
        t + r.optimumAt i n.state ≤ r.promise z := by
  by_cases hle : t + r.optimumAt i n.state ≤ c.diagram.sweepBest r.toBeat
  · exact .inl hle
  · right
    obtain ⟨j, hj⟩ := Array.mem_iff_getElem?.1 hn
    have hlt := lt_of_not_ge hle
    rcases (h.surveyed hfine).learns hr hroot (h.graded hfine) (c.diagram.le_sweepBest r.toBeat)
      hlt hl hj halive hlas ht le_rfl with
      hescapes | hout | hlost | ⟨k, m, z, hemits, hik, hcut, hreach⟩
    · exact absurd hescapes (not_escapes hcache _ _)
    · exact absurd hdom hout.1
    · exact absurd hdom hlost.1
    · obtain ⟨N, hN, hstate, hvalue, hdepth, _⟩ := hemits.handOut h hfine
      refine ⟨N, hN, by omega, fun hnot => ?_, ?_⟩
      · have hne : k ≠ i := fun heq => by
          rw [hcut heq] at hnot
          cases hnot
        omega
      · rw [Request.promise, hstate, hvalue, hdepth, Nat.add_sub_cancel_left]
        exact hreach

end Accounts

/-! ### Nor are they too low -/

/-- A diagram in which nothing was set aside, merged, ruled out or put into a cut-set. -/
structure Plain (best : Extended) (layers : List (Layer σ Extended)) : Prop where
  alive : ∀ i layer, level layers i = some layer → ∀ n ∈ layer, n.isAlive = true
  exact : ∀ i layer, level layers i = some layer → ∀ n ∈ layer, n.exact = true
  merged : ∀ i layer, level layers i = some layer → ∀ n ∈ layer, n.merged = false
  cutset : ∀ i layer, level layers i = some layer → ∀ n ∈ layer, n.cutset = false
  room : ∀ i layer, level layers i = some layer → ∀ n ∈ layer,
    best < n.longest + n.roughBound

section Floor

variable {best : Extended} {layers : List (Layer σ Extended)}

/-- A node of a plain diagram settles for what it was told, and for the upper end if it
was told nothing. -/
theorem Plain.threshold_settle (h : Plain best layers) {i : Nat} {layer : Layer σ Extended}
    (hl : level layers i = some layer) {n : Node σ Extended} (hn : n.settle best ∈ layer) :
    (n.settle best).threshold = some (n.threshold.getD posInf) := by
  have hsame := n.unswept_settle best
  have halive := h.alive i layer hl _ hn
  have hexact := h.exact i layer hl _ hn
  have hcut := h.cutset i layer hl _ hn
  have hroom := h.room i layer hl _ hn
  rw [Node.isAlive_of_unswept hsame] at halive
  rw [Node.exact_of_unswept hsame] at hexact
  rw [Node.cutset_of_unswept hsame] at hcut
  rw [Node.longest_of_unswept hsame, Node.roughBound_of_unswept hsame] at hroom
  unfold Node.settle
  rw [if_neg (Node.not_dead_of_isAlive halive), if_neg (not_le.2 hroom), hcut, hexact,
    if_neg Bool.false_ne_true]
  cases ht : n.threshold with
  | none => rfl
  | some t => exact ht

/-- **No threshold of a plain diagram is below the room that is left**, and none is
borrowed. -/
theorem Sourced.headroom_le [BEq σ] {cache : Cache σ Extended} {events : List (Event σ Extended)}
    (h : Sourced best layers) (hplain : Plain best layers) (hr : r.Regular)
    (hsketch : Sketched r cache events layers) {i : Nat} {layer : Layer σ Extended}
    (hl : level layers i = some layer) {n : Node σ Extended} (hn : n ∈ layer) :
    n.borrowed = false ∧ ∃ t, n.threshold = some t ∧
      Value.headroom best (r.optimumAt i n.state) ≤ t := by
  -- The room of a node is inherited from the layer below, so the induction goes upwards.
  obtain ⟨k, hk⟩ : ∃ k, k + i + 1 = layers.length := by
    have := lt_of_level hl
    exact ⟨layers.length - i - 1, by omega⟩
  induction k generalizing i layer n with
  | zero =>
    have hlast : i + 1 = layers.length := by omega
    have halive := hplain.alive i layer hl n hn
    obtain ⟨n₀, rfl, htold, hborrowed⟩ := h.last i layer hl hlast n hn halive
    refine ⟨hborrowed, _, hplain.threshold_settle hl hn, ?_⟩
    cases ht : n₀.threshold with
    | none => exact le_posInf _
    | some t =>
      have hnone := (hsketch.ended i layer hl hlast).resolve_right fun hdead => by
        rw [hdead _ hn] at halive
        cases halive
      rw [Request.optimumAt_of_none hnone, headroom_zero]
      exact (htold t ht).ge
  | succ k ih =>
    obtain ⟨below, hbelow⟩ := exists_level layers (i := i + 1) (by omega)
    have halive := hplain.alive i layer hl n hn
    obtain ⟨j, hj⟩ := Array.mem_iff_getElem?.1 hn
    obtain ⟨n₀, rfl, htold, hborrowed⟩ := h.inner i layer below j n hl hbelow hj halive
    refine ⟨Bool.eq_false_iff.2 fun hb => ?_, _, hplain.threshold_settle hl hn, ?_⟩
    · obtain ⟨y, hy, hfate | hb'⟩ := hborrowed hb
      · have hyalive := hplain.alive (i + 1) below hbelow y hy
        rw [Node.isAlive, hfate] at hyalive
        cases hyalive
      · rw [(ih hbelow hy (by omega)).1] at hb'
        cases hb'
    · cases ht : n₀.threshold with
      | none => exact le_posInf _
      | some t =>
        -- The child that left this much is reached by a decision of the problem.
        obtain ⟨y, hy, u, hu, e, he, hej, rfl⟩ := htold t ht
        obtain ⟨_, u', hu', hroom⟩ := ih hbelow hy (by omega)
        obtain rfl := Option.some.inj (hu.symm.trans hu')
        obtain ⟨p, hp, hfrom⟩ :=
          ((hsketch.woven.linked i layer below hl hbelow).joined y hy).edge e he
        rw [hej] at hp
        obtain rfl := Option.some.inj (hj.symm.trans hp)
        obtain ⟨hstate, hcost⟩ := hfrom.original (hplain.merged (i + 1) below hbelow y hy)
        have hstep := hfrom.branches.le_optimumAt
        rw [← hstate, ← hcost] at hstep
        calc Value.headroom best (r.optimumAt i (n₀.settle best).state)
            ≤ Value.headroom best (e.cost + r.optimumAt (i + 1) y.state) := headroom_anti best hstep
          _ ≤ Value.headroom best (r.optimumAt (i + 1) y.state) - e.cost :=
            headroom_add_le best _ (hcost ▸ hr.finite _ _)
          _ ≤ u - e.cost := add_le_add_left hroom _

end Floor

/-! ### Exact compilations without bounds -/

section Exact

variable [BEq σ] {session : Session σ κ Extended} {c : Compiled σ κ Extended}

section Parts

variable (h : Evaluated r session c) (hkind : r.kind = .exact)

include h hkind

theorem Evaluated.survey_of_exact :
    r.kind ≠ .relaxed ∧ Surveyed r session.cache session.events c.diagram := by
  refine ⟨?_, h.surveyed (.inr (h.exact hkind))⟩
  rw [hkind]
  exact Kind.noConfusion

/-- Nothing is set aside without a cache, dominance and a width. -/
theorem Evaluated.alive_of_exact (hdom : r.dominance = none)
    (hcache : ∀ state depth, session.cache.get? state depth = none) {i : Nat}
    {layer : Layer σ Extended} (hl : level c.diagram.layers i = some layer)
    {n : Node σ Extended} (hn : n ∈ layer) : n.isAlive = true := by
  obtain ⟨hrelaxed, hsurvey⟩ := h.survey_of_exact hkind
  have hplaced := hsurvey.woven.placed i layer hl n hn
  cases hf : n.fate with
  | alive =>
    rw [Node.isAlive, hf]
    rfl
  | cached =>
    obtain ⟨_, t, ht, _⟩ := hplaced.cached hf
    rw [hcache] at ht
    cases ht
  | dominated => exact absurd hdom (hplaced.dominated hf).1
  | deleted => exact absurd hf (hsurvey.whole i layer hl (.inl hrelaxed) n hn)

/-- A node that is alive has the bound of its state, which is the upper end. -/
theorem Evaluated.roughBound_of_exact
    (hunbounded : ∀ s free, r.model.relaxation.upperBound s free = posInf)
    (hroot : r.branching (r.freeAt 0) [] ≠ none) {i : Nat} {layer : Layer σ Extended}
    (hl : level c.diagram.layers i = some layer) {n : Node σ Extended} (hn : n ∈ layer)
    (halive : n.isAlive = true) : n.roughBound = posInf := by
  obtain ⟨_, hsurvey⟩ := h.survey_of_exact hkind
  have hlt := lt_of_level hl
  rcases Nat.lt_or_ge (i + 1) c.diagram.layers.length with hi | hi
  · rw [hsurvey.bounded i layer hl hi n hn halive]
    exact hunbounded _ _
  · have hi : i + 1 = c.diagram.layers.length := by omega
    rw [hsurvey.rough i layer hl hi n hn]
    refine if_neg fun h0 => ?_
    -- A lone root would have been expanded.
    subst h0
    rcases hsurvey.ended 0 layer hl hi with hnone | hdead
    · exact hroot hnone
    · rw [hdead n hn] at halive
      cases halive

end Parts

/-- The best value known is finite if it is one of the diagram's. -/
theorem Evaluated.sweepBest_lt_posInf (h : Evaluated r session c) (hr : r.Regular)
    (hbeat : r.toBeat < posInf) (hvalue : Value.isFinite r.residual.value = true) :
    c.diagram.sweepBest r.toBeat < posInf := by
  rcases c.diagram.sweepBest_cases r.toBeat with heq | hv
  · rw [heq]
    exact hbeat
  · obtain ⟨k, ds, s, _, htraced, _⟩ := h.traced_bestExact hv
    obtain ⟨q, hq⟩ := isFinite_iff.1 (htraced.2.wanders.isFinite hr.finite hvalue)
    rw [hq]
    rfl

section Unaided

variable (h : Evaluated r session c) (hr : r.Regular) (hkind : r.kind = .exact)
  (hdom : r.dominance = none) (hcache : ∀ state depth, session.cache.get? state depth = none)
  (hunbounded : ∀ s free, r.model.relaxation.upperBound s free = posInf)
  (hroot : r.branching (r.freeAt 0) [] ≠ none) (hbeat : r.toBeat < posInf)
  (hvalue : Value.isFinite r.residual.value = true)

include h hr hkind hdom hcache hunbounded hroot hbeat hvalue

/-- **Without bounds, cache and dominance an exact diagram is plain.** -/
theorem Evaluated.plain :
    Plain (c.diagram.sweepBest r.toBeat) c.diagram.layers := by
  obtain ⟨hrelaxed, hsurvey⟩ := h.survey_of_exact hkind
  have hexact : ∀ i layer, level c.diagram.layers i = some layer → ∀ n ∈ layer, n.exact = true := by
    intro i layer hl n hn
    obtain ⟨j, hj⟩ := Array.mem_iff_getElem?.1 hn
    exact hsurvey.woven.exact_of_kind hrelaxed hl hj
  refine ⟨fun i layer hl n hn => h.alive_of_exact hkind hdom hcache hl hn, hexact,
    fun i layer hl n hn => ?_, fun i layer hl n hn => ?_, fun i layer hl n hn => ?_⟩
  · exact Bool.eq_false_iff.2 fun hm =>
      hrelaxed ((hsurvey.woven.placed i layer hl n hn).merged hm)
  · obtain ⟨j, hj⟩ := Array.mem_iff_getElem?.1 hn
    refine Bool.eq_false_iff.2 fun hcut => ?_
    have hlisted := hsurvey.cut.listed i layer j n hl hj hcut
    rw [h.uncut hrelaxed] at hlisted
    cases hlisted
  · obtain ⟨j, hj⟩ := Array.mem_iff_getElem?.1 hn
    have htraced := hsurvey.woven.traced hl hj (hexact i layer hl n hn)
    obtain ⟨q, hq⟩ := isFinite_iff.1 (htraced.2.wanders.isFinite hr.finite hvalue)
    rw [h.roughBound_of_exact hkind hunbounded hroot hl hn
      (h.alive_of_exact hkind hdom hcache hl hn), hq]
    exact h.sweepBest_lt_posInf hr hbeat hvalue

/-- **The threshold of a node of an exact diagram without bounds is the room that is
left**, and it is marked explored. -/
theorem Evaluated.lesson_of_exact {i : Nat} {layer : Layer σ Extended}
    (hl : level c.diagram.layers i = some layer) {n : Node σ Extended} (hn : n ∈ layer) :
    c.diagram.lasting r.kind r.cutset i n = true ∧ n.lesson? =
      some ⟨Value.headroom (c.diagram.sweepBest r.toBeat) (r.optimumAt i n.state), true⟩ := by
  have hfine : r.kind = .relaxed ∨ c.diagram.isExact = true := .inr (h.exact hkind)
  have hbest := h.sweepBest_lt_posInf hr hbeat hvalue
  have hplain := h.plain hr hkind hdom hcache hunbounded hroot hbeat hvalue
  have halive := hplain.alive i layer hl n hn
  have hlas : c.diagram.lasting r.kind r.cutset i n = true := by
    unfold lasting
    rw [hkind]
    cases c.diagram.lastExact with
    | none => exact hplain.exact i layer hl n hn
    | some l => exact hplain.exact i layer hl n hn
  obtain ⟨hborrowed, t, ht, hge⟩ := (h.sourced hfine).headroom_le hplain hr h.sketched hl hn
  have hle : t + r.optimumAt i n.state ≤ c.diagram.sweepBest r.toBeat := by
    refine (h.accounts hr hfine hdom hcache (fun _ hnone => absurd hnone hroot) hl hn halive hlas
      ht).resolve_right ?_
    rintro ⟨z, hz, _⟩
    obtain ⟨a, ha, _⟩ := (h.surveyed hfine).cut.node_of_handOut hz
    rw [h.uncut (h.survey_of_exact hkind).1] at ha
    cases ha
  obtain rfl := le_antisymm (le_headroom_of_add_le hbest hle) hge
  refine ⟨hlas, ?_⟩
  unfold Node.lesson?
  rw [if_neg (Node.not_dead_of_isAlive halive), ht, hplain.cutset i layer hl n hn, hborrowed]
  rfl

/-- **The cache holds it afterwards**, whichever node of that state told it. -/
theorem Evaluated.recalls_of_exact {i : Nat} {layer : Layer σ Extended}
    (hl : level c.diagram.layers i = some layer) {n : Node σ Extended} (hn : n ∈ layer)
    (hroom : n.depth < session.cache.layers.size) :
    c.session.cache.get? n.state n.depth =
      some ⟨Value.headroom (c.diagram.sweepBest r.toBeat) (r.optimumAt i n.state), true⟩ := by
  have hlesson := fun {i layer} (hl : level c.diagram.layers i = some layer)
    {n : Node σ Extended} (hn : n ∈ layer) =>
      h.lesson_of_exact hr hkind hdom hcache hunbounded hroot hbeat hvalue hl hn
  obtain ⟨hlas, hn'⟩ := hlesson hl hn
  have hsome := h.recalled (.inr (h.exact hkind)) i layer hl n hn hlas (by rw [hn']; rfl) hroom
  obtain ⟨t, ht⟩ := Option.isSome_iff_exists.1 hsome
  rcases h.taught.entries n.state n.depth t ht with hold |
    ⟨_, k, layer', hl', m, hm, _, hm', hstate, hdepth⟩
  · rw [hcache] at hold
    cases hold
  · have hk : k = i := by
      have hmk := (h.sketched.woven.placed k layer' hl' m hm).depth
      have hni := (h.sketched.woven.placed i layer hl n hn).depth
      omega
    subst hk
    rw [(hlesson hl' hm).2, hstate] at hm'
    rw [ht, ← hm']

end Unaided
end Exact

/-! ### Depths -/

/-- Erasing distinct members one after the other removes as many. -/
theorem Variables.size_foldl_erase {path : Path} {s : Variables}
    (hnodup : (path.map (·.var)).Nodup) (hmem : ∀ d ∈ path, d.var ∈ s) :
    (path.foldl (fun free d => free.erase d.var) s).size + path.length = s.size := by
  induction path generalizing s with
  | nil => rfl
  | cons d path ih =>
    rw [List.map_cons, List.nodup_cons] at hnodup
    have hrest : ∀ e ∈ path, e.var ∈ s.erase d.var := by
      intro e he
      refine Variables.mem_erase.2 ⟨hmem e (List.mem_cons_of_mem d he), fun heq => ?_⟩
      exact hnodup.1 (heq ▸ List.mem_map_of_mem he)
    have hsize := ih hnodup.2 hrest
    have hone := Variables.size_erase_add_one (hmem d List.mem_cons_self)
    rw [List.foldl_cons, List.length_cons]
    omega

/-- **A diagram is at most as deep as there are variables**, if its root is as deep as
its path and the path gives a value to each variable at most once. -/
theorem Sketched.depth_le [BEq σ] {cache : Cache σ Extended} {events : List (Event σ Extended)}
    {layers : List (Layer σ Extended)} (h : Sketched r cache events layers)
    (htotal : r.branching.Total) (hdepth : r.residual.depth = r.residual.path.length)
    (hnodup : (r.residual.path.map (·.var)).Nodup)
    (hvars : ∀ d ∈ r.residual.path, d.var < r.model.problem.variables) {i : Nat}
    {layer : Layer σ Extended} (hl : level layers i = some layer) {n : Node σ Extended}
    (hn : n ∈ layer) : n.depth ≤ r.model.problem.variables := by
  have hfree : (r.residual.free r.model.problem.variables).size + r.residual.path.length =
      r.model.problem.variables := by
    have hsize := Variables.size_foldl_erase (s := .all r.model.problem.variables) hnodup
      fun d hd => Variables.mem_all.2 (hvars d hd)
    rwa [show (Variables.all r.model.problem.variables).size = r.model.problem.variables from
      List.length_range] at hsize
  rw [(h.woven.placed i layer hl n hn).depth, hdepth]
  cases i with
  | zero => omega
  | succ i =>
    have hbranch := h.branches i (lt_of_level hl)
    have hsize : (r.freeAt i).size ≠ 0 := fun hzero => hbranch (Branching.eq_none_of_size hzero)
    have hleft : (r.freeAt i).size = (r.residual.free r.model.problem.variables).size - i :=
      htotal.size_freeAt _ i
    omega

/-! ### What the cache holds -/

/-- **The thresholds that one compilation leaves in an empty cache are sound**, and those
of an exact compilation without bounds are exact. -/
theorem Request.compile_remembers [BEq σ] [LawfulBEq σ] [Hashable σ] [BEq κ]
    (r : Request σ κ Extended) (hr : r.Regular) (htotal : r.branching.Total)
    (hfree : (r.residual.free r.model.problem.variables).size ≠ 0) (hbeat : r.toBeat < posInf)
    (hdom : r.dominance = none) (session : Session σ κ Extended)
    (hcache : session.cache = .ofSize r.model.problem.variables) :
    ((r.kind = .relaxed → r.checks = .extended → r.model.problem.Focused) →
      ∃ report, (r.compile session).outcome = .ok report) ∧
    ∀ report, (r.compile session).outcome = .ok report →
      (r.kind = .relaxed ∨ report.isExact = true →
        ∀ state depth t, (r.compile session).session.cache.get? state depth = some t →
          ∃ i, depth = r.residual.depth + i ∧
            (t.value + r.optimumAt i state ≤ (r.compile session).diagram.sweepBest r.toBeat ∨
              ∃ z ∈ (r.compile session).diagram.handOut.1,
                depth ≤ z.depth ∧ (t.explored = true → depth < z.depth) ∧
                t.value + r.optimumAt i state ≤ r.promise z)) ∧
      (r.kind = .exact → (∀ s free, r.model.relaxation.upperBound s free = posInf) →
        Value.isFinite r.residual.value = true →
        ∀ i layer, level (r.compile session).diagram.layers i = some layer → ∀ n ∈ layer,
          n.depth = r.residual.depth + i ∧
          (n.depth ≤ r.model.problem.variables →
            (r.compile session).session.cache.get? n.state n.depth =
              some ⟨Value.headroom ((r.compile session).diagram.sweepBest r.toBeat)
                (r.optimumAt i n.state), true⟩) ∧
          (r.residual.depth = r.residual.path.length → (r.residual.path.map (·.var)).Nodup →
            (∀ d ∈ r.residual.path, d.var < r.model.problem.variables) →
            n.depth ≤ r.model.problem.variables)) := by
  have hroot : r.branching (r.freeAt 0) [] ≠ none := fun hnone => hfree (htotal.size_eq_zero hnone)
  have hentered : r.Entered := fun hnone => absurd hnone hroot
  refine ⟨fun hfocus => Request.exists_compile_ok hr hfocus (fun _ _ => hentered) session,
    fun report hok => ?_⟩
  obtain ⟨mid, _, hmid, h⟩ := Request.compile_compiles hr session hok
  obtain rfl := Except.ok.inj (hok.symm.trans h.outcome)
  have hempty : ∀ state depth, mid.cache.get? state depth = none := by
    intro state depth
    rw [hmid, hcache]
    exact Cache.get?_ofSize _ state depth
  refine ⟨fun hfine state depth t ht => ?_, fun hkind hunbounded hvalue i layer hl n hn => ?_⟩
  · rcases h.taught.entries state depth t ht with hold | ⟨_, i, layer, hl, n, hn, hlas, hlesson,
      rfl, rfl⟩
    · rw [hempty] at hold
      cases hold
    · obtain ⟨halive, hthr, hexplored⟩ := Node.lesson?_eq_some hlesson
      have hdepth := (h.sketched.woven.placed i layer hl n hn).depth
      refine ⟨i, hdepth, (h.accounts hr hfine hdom hempty (fun _ => hentered) hl hn halive hlas
        hthr).imp_right ?_⟩
      rintro ⟨z, hz, hle, hlt, hreach⟩
      refine ⟨z, hz, hdepth ▸ hle, fun hex => hdepth ▸ hlt ?_, hreach⟩
      rw [hexplored, Bool.and_eq_true, Bool.not_eq_true'] at hex
      exact hex.1
  · have hplaced := (h.sketched.woven.placed i layer hl n hn).depth
    refine ⟨hplaced, fun hdepth => ?_, fun hlen hnodup hvars =>
      h.sketched.depth_le htotal hlen hnodup hvars hl hn⟩
    have hroom : n.depth < mid.cache.layers.size := by
      rw [hmid, hcache]
      simpa [Cache.ofSize] using Nat.lt_succ_of_le hdepth
    exact h.recalls_of_exact hr hkind hdom hempty hunbounded hroot hbeat hvalue hl hn hroom

theorem Request.compile_remembers_twoPicks :
    ((twoPicksRequest .exact none).compile
      { Session.fresh with cache := .ofSize 2 }).session.cache.get? 0 0 =
        some ⟨finite 0, true⟩ := by
  generalize hs : ({ Session.fresh with cache := .ofSize 2 } : Session Nat Unit Extended) = session
  have hlawful := twoPicks_lawful .maximize false none
  obtain ⟨hruns, hall⟩ := Request.compile_remembers (twoPicksRequest .exact none)
    (twoPicksRequest_regular _ _) hlawful.total (by decide) (by decide) rfl session
    (by rw [← hs]; rfl)
  obtain ⟨report, hok⟩ := hruns fun h => by cases h
  have hthresholds := (hall report hok).2 rfl (fun _ _ => rfl) rfl
  -- The root, and what it is worth.
  have hroot : (level ((twoPicksRequest .exact none).compile session).diagram.layers 0).map
      (·.toList.map (·.state)) = some [0] := by
    rw [← hs]
    decide +kernel
  obtain ⟨layer, hl, hstates⟩ := Option.map_eq_some_iff.1 hroot
  obtain ⟨n, hn, hstate⟩ := List.mem_map.1 (hstates ▸ List.mem_singleton_self 0 : 0 ∈ _)
  obtain ⟨hdepth, hcached, hle⟩ := hthresholds 0 layer hl n (Array.mem_toList_iff.1 hn)
  have hget := hcached (hle rfl List.nodup_nil fun d hd => by cases hd)
  have hroom : Value.headroom (((twoPicksRequest .exact none).compile session).diagram.sweepBest
      (twoPicksRequest .exact none).toBeat) ((twoPicksRequest .exact none).optimumAt 0 0) =
        finite 0 := by
    rw [← hs]
    decide +kernel
  rw [hstate, hdepth, hroom] at hget
  exact hget

end DiagramSearch
