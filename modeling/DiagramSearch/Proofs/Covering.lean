/-
# Open sub-problems that carry the optimum

As long as the incumbent falls short of the optimum, some open sub-problem has to
lead to it.  The same is asked of every threshold that the cache holds: if paths
below it could reach the optimum, an open sub-problem at its depth or deeper
carries it instead (`Backed`).  Depth is what keeps two thresholds from resting on
each other.

* `Evaluated.mem_handOut`, `Emits.handOut`: the sub-problems of the cut-set;
* `Compiles.carried`: **compiling a sub-problem that carries the optimum finds
  it, or leaves it to deeper ones**;
* `Compiles.backed`: **the thresholds that it teaches are backed.**
-/

import DiagramSearch.Proofs.Compiling
import DiagramSearch.Proofs.Threads

namespace DiagramSearch

open Extended Diagram

variable {σ κ : Type}

/-! ### The sub-problems of the cut-set -/

section HandOut

variable {r : Request σ κ Extended} {d : Diagram σ Extended}

theorem upTo_eq (d : Diagram σ Extended) (i : Nat) : d.upTo i = upward d.layers i := rfl

theorem node?_eq {a : Address} {layer : Layer σ Extended}
    (hl : level d.layers a.layer = some layer) : d.node? a = layer[a.position]? := by
  have hlt := lt_of_level hl
  rw [level_eq_getElem? hlt, ← List.head?_drop] at hl
  rw [node?, upTo_eq, upward, hl]
  rfl

theorem handOut_of_some {best : Extended} (h : d.bestValue = some best) :
    d.handOut.1 = d.cutset.filterMap (d.subproblem? best) := by
  rw [handOut, h]

/-- The sub-problem of a node of the cut-set. -/
theorem subproblem?_eq {best tail : Extended} {a : Address} {layer : Layer σ Extended}
    {n : Node σ Extended} (hl : level d.layers a.layer = some layer)
    (hn : layer[a.position]? = some n) (htail : n.tail = some tail) :
    d.subproblem? best a = some
      { state := n.state
        value := n.longest
        path := d.path ++ climb (upward d.layers a.layer) a.position
        bound := min (min (n.longest + n.roughBound) (n.longest + tail)) best
        depth := n.depth } := by
  unfold subproblem?
  rw [node?_eq hl, hn]
  dsimp only
  rw [htail]
  rfl

variable {z : Subproblem σ Extended}

/-- **What is handed out is a node of the cut-set**, bounded in three ways. -/
theorem Cut.node_of_handOut (h : Cut r d) (hz : z ∈ d.handOut.1) :
    ∃ a ∈ d.cutset, ∃ layer n tail best, level d.layers a.layer = some layer ∧
      layer[a.position]? = some n ∧ n.tail = some tail ∧ d.bestValue = some best ∧
      z = { state := n.state
            value := n.longest
            path := d.path ++ climb (upward d.layers a.layer) a.position
            bound := min (min (n.longest + n.roughBound) (n.longest + tail)) best
            depth := n.depth } := by
  cases hbest : d.bestValue with
  | none =>
    rw [handOut, hbest] at hz
    cases hz
  | some best =>
    rw [handOut_of_some hbest] at hz
    obtain ⟨a, ha, hsub⟩ := List.mem_filterMap.1 hz
    obtain ⟨layer, n, hl, hn, _⟩ := h.sound a ha
    cases htail : n.tail with
    | none =>
      rw [subproblem?, node?_eq hl, hn] at hsub
      dsimp only at hsub
      rw [htail] at hsub
      cases hsub
    | some tail =>
      rw [subproblem?_eq hl hn htail] at hsub
      exact ⟨a, ha, layer, n, tail, best, hl, hn, htail, rfl, (Option.some.inj hsub).symm⟩

variable [BEq σ] {session : Session σ κ Extended} {c : Compiled σ κ Extended}
  {target : Extended} {safe : Nat → σ → Extended → Prop}

/-- **What is handed out is reached by a trail, below the root, with something
left to decide.** -/
theorem Evaluated.mem_handOut (h : Evaluated r session c)
    (hfine : r.kind = .relaxed ∨ c.diagram.isExact = true) (hz : z ∈ c.diagram.handOut.1) :
    ∃ i ds, 0 < i ∧ r.Traced i ds z.state z.value ∧ z.path = r.residual.path ++ ds ∧
      z.depth = r.residual.depth + i ∧ r.branching (r.freeAt i) [] ≠ none := by
  have hsurvey := h.surveyed hfine
  obtain ⟨a, ha, layer, n, tail, best, hl, hn, _, _, rfl⟩ := hsurvey.cut.node_of_handOut hz
  obtain ⟨layer', n', hl', hn', hex, _, h0, hlt⟩ := hsurvey.cut.sound a ha
  obtain rfl := Option.some.inj (hl.symm.trans hl')
  obtain rfl := Option.some.inj (hn.symm.trans hn')
  refine ⟨a.layer, _, h0, hsurvey.woven.traced hl hn hex, ?_, ?_, hsurvey.branches _ hlt⟩
  · rw [h.path]
  · exact (hsurvey.woven.placed _ layer hl n (Array.mem_of_getElem? hn)).depth

/-- **A node that passes a target on is handed out, with a bound that leaves room
for it.** -/
theorem Emits.handOut {k j : Nat} {n : Node σ Extended}
    (hemits : Emits r c.diagram target safe k j n) (h : Evaluated r session c)
    (hfine : r.kind = .relaxed ∨ c.diagram.isExact = true) :
    ∃ N ∈ c.diagram.handOut.1, N.state = n.state ∧ N.value = n.longest ∧
      N.depth = r.residual.depth + k ∧ target ≤ N.bound := by
  have hsurvey := h.surveyed hfine
  obtain ⟨layer, hl, hn⟩ := hemits.node
  obtain ⟨w, hw, hle⟩ := hemits.tail
  obtain ⟨best, hbest, hbestle⟩ := h.ranked.exists_bestValue hemits.best
  have hsub : c.diagram.subproblem? best ⟨k, j⟩ = some _ := subproblem?_eq hl hn hw
  rw [handOut_of_some hbest]
  exact ⟨_, List.mem_filterMap.2 ⟨_, hemits.listed, hsub⟩, rfl, rfl,
    (hsurvey.woven.placed k layer hl n (Array.mem_of_getElem? hn)).depth,
    le_min (le_min hemits.rough hle) hbestle⟩

end HandOut

/-! ### What carries the optimum -/

variable (p : Problem σ Extended) (b : Branching σ) (safe : Nat → σ → Extended → Prop)

/-- An open sub-problem, at a depth or deeper, leads to the optimum. -/
def Carried (queue : List (Subproblem σ Extended)) (k : Nat) : Prop :=
  ∃ N ∈ queue, safe N.depth N.state N.value ∧ p.total b ≤ N.bound ∧ k ≤ N.depth

/-- A threshold under which the optimum could be reached is backed by an open
sub-problem.  At the very depth of the threshold it has to be of that value, and
not explored yet. -/
def Backs (queue : List (Subproblem σ Extended)) (state : σ) (k : Nat) (t : Threshold Extended) :
    Prop :=
  p.total b ≤ t.value + p.optimumFrom b k state → Carried p b safe queue k ∧
    (t.explored = true ∨ p.total b < t.value + p.optimumFrom b k state →
      Carried p b safe queue (k + 1))

/-- No pair that was found to be dominated could lead to the optimum; with a
cache, not even with the value that dominates it. -/
structure Clean (cached : Prop) (events : List (Event σ Extended)) : Prop where
  kept : ∀ s k v t, .checked s k v (some t) ∈ events → ∀ h ≤ v, ¬safe k s h
  outbid : cached → ∀ s k v t, .checked s k v (some t) ∈ events →
    t + p.optimumFrom b k s < p.total b

variable {p b safe} {queue queue' : List (Subproblem σ Extended)} {k m : Nat} {state : σ}
  {t : Threshold Extended}

theorem Carried.mono (h : Carried p b safe queue k) (hsub : ∀ N ∈ queue, N ∈ queue')
    (hk : m ≤ k) : Carried p b safe queue' m := by
  obtain ⟨N, hN, hsafe, hbound, hdepth⟩ := h
  exact ⟨N, hsub N hN, hsafe, hbound, hk.trans hdepth⟩

/-- What is carried deeper than a sub-problem is carried by another one. -/
theorem Carried.tail {P : Subproblem σ Extended} (h : Carried p b safe (P :: queue) k)
    (hk : P.depth < k) : Carried p b safe queue k := by
  obtain ⟨N, hN, hsafe, hbound, hdepth⟩ := h
  rcases List.mem_cons.1 hN with rfl | hN
  · omega
  · exact ⟨N, hN, hsafe, hbound, hdepth⟩

/-- Sub-problems that are open stay open, but one, for which deeper ones stand
in. -/
theorem Backs.replace {P : Subproblem σ Extended} (h : Backs p b safe (P :: queue) state k t)
    (hsub : ∀ N ∈ queue, N ∈ queue')
    (hP : safe P.depth P.state P.value → p.total b ≤ P.bound →
      Carried p b safe queue' (P.depth + 1)) : Backs p b safe queue' state k t := by
  have hcarried : ∀ {m}, Carried p b safe (P :: queue) m → Carried p b safe queue' m := by
    rintro m ⟨N, hN, hsafe, hbound, hdepth⟩
    rcases List.mem_cons.1 hN with rfl | hN
    · exact (hP hsafe hbound).mono (fun _ h => h) (Nat.le_succ_of_le hdepth)
    · exact ⟨N, hsub N hN, hsafe, hbound, hdepth⟩
  intro hreach
  obtain ⟨hk, hnext⟩ := h hreach
  exact ⟨hcarried hk, fun hex => hcarried (hnext hex)⟩

theorem Clean.mono {cached : Prop} {events events' : List (Event σ Extended)}
    (h : Clean p b safe cached events') (hsub : ∀ e ∈ events, e ∈ events') :
    Clean p b safe cached events :=
  ⟨fun s k v t he => h.kept s k v t (hsub _ he),
    fun hc s k v t he => h.outbid hc s k v t (hsub _ he)⟩

/-! ### Compiling a sub-problem -/

theorem Node.lesson?_eq_some {n : Node σ Extended} (h : n.lesson? = some t) :
    n.isAlive = true ∧ n.threshold = some t.value ∧ t.explored = (!n.cutset && !n.borrowed) := by
  unfold Node.lesson? at h
  split at h
  · cases h
  · rename_i hfate
    obtain ⟨v, hv, rfl⟩ := Option.map_eq_some_iff.1 h
    refine ⟨?_, hv, rfl⟩
    cases hf : n.fate <;> simp_all [Node.isAlive, Node.isDeleted, Node.isPruned]

section Compile

variable [BEq σ] [BEq κ] {r : Request σ κ Extended} {session : Session σ κ Extended}
  {c : Compiled σ κ Extended} {cached : Prop}

/-- What is known of a compilation whose incumbent still falls short of the
optimum, and of the sub-problems that are open after it. -/
structure Pursues (r : Request σ κ Extended) (session : Session σ κ Extended)
    (c : Compiled σ κ Extended) (p : Problem σ Extended) (b : Branching σ)
    (safe : Nat → σ → Extended → Prop) (cached : Prop) (queue : List (Subproblem σ Extended)) :
    Prop where
  regular : r.Regular
  entered : r.Entered
  problem : r.model.problem = p
  branching : r.branching = b
  reached : r.residual.Reached p b
  fine : r.kind = .relaxed ∨ c.diagram.isExact = true
  thread : p.Thread b (p.total b) safe
  beaten : r.toBeat < p.total b
  missed : ∀ v, c.diagram.bestExactValue = some v → v < p.total b
  /-- A node that passes the optimum on is opened. -/
  opened : ∀ {safe' k j z}, Emits r c.diagram (p.total b) safe' k j z → ∃ N ∈ queue,
    N.state = z.state ∧ N.value = z.longest ∧ N.depth = r.residual.depth + k ∧ p.total b ≤ N.bound
  /-- Deeper thresholds are backed. -/
  deeper : ∀ state k t, session.cache.get? state k = some t → r.residual.depth < k →
    p.total b ≤ t.value + p.optimumFrom b k state → Carried p b safe queue k
  clean : Clean p b safe cached c.session.events
  /-- With a cache everything that can reach the optimum is followed. -/
  mode : session.cache.layers.size ≠ 0 → cached ∧
    ∀ k s v, p.total b ≤ v + p.optimumFrom b k s → safe k s v

namespace Pursues

omit [BEq κ] in
theorem optimumAt_eq (h : Pursues r session c p b safe cached queue) (i : Nat) (s : σ) :
    r.optimumAt i s = p.optimumFrom b (r.residual.depth + i) s := by
  obtain rfl := h.problem
  obtain rfl := h.branching
  exact Request.optimumAt_eq h.reached i s

omit [BEq κ] in
theorem carried_of_escapes (h : Pursues r session c p b safe cached queue) {i : Nat}
    (hesc : Escapes r session.cache (p.total b) i) :
    Carried p b safe queue (r.residual.depth + i + 1) := by
  obtain ⟨m, s, t, hm, ht, hreach⟩ := hesc
  rw [h.optimumAt_eq] at hreach
  exact (h.deeper s _ t ht (by omega) hreach).mono (fun _ hN => hN) (by omega)

omit [BEq κ] in
/-- What was met before the diagram was evaluated is clean as well. -/
theorem clean_evaluated {mid : Session σ κ Extended}
    (h : Pursues r session c p b safe cached queue) (he : Evaluated r mid c) :
    Clean p b safe cached mid.events := by
  obtain ⟨new, hnew, _⟩ := he.taught.journal
  exact h.clean.mono fun e hmem => by rw [hnew]; exact List.mem_append_right new hmem

omit [BEq κ] in
/-- The best value known falls short of the optimum. -/
theorem sweepBest_lt (h : Pursues r session c p b safe cached queue) :
    c.diagram.sweepBest r.toBeat < p.total b := by
  rcases c.diagram.sweepBest_cases r.toBeat with heq | hbest
  · rw [heq]
    exact h.beaten
  · exact h.missed _ hbest

omit [BEq κ] in
/-- No node of the cut-set promises more than the optimum. -/
theorem le_total_of_emits {mid : Session σ κ Extended}
    (h : Pursues r session c p b safe cached queue) (he : Evaluated r mid c) {target : Extended}
    {safe' : Nat → σ → Extended → Prop} {m j : Nat} {z : Node σ Extended}
    (hemits : Emits r c.diagram target safe' m j z) :
    z.longest + r.optimumAt m z.state ≤ p.total b := by
  have hsurvey := he.surveyed h.fine
  obtain ⟨layer, hl, hz⟩ := hemits.node
  obtain ⟨layer', z', hl', hz', hzex, _⟩ := hsurvey.cut.sound _ hemits.listed
  obtain rfl := Option.some.inj (hl.symm.trans hl')
  obtain rfl := Option.some.inj (hz.symm.trans hz')
  rw [h.optimumAt_eq]
  have htraced := hsurvey.woven.traced hl hz hzex
  have hr := h.reached
  obtain rfl := h.problem
  obtain rfl := h.branching
  exact (htraced.reaches hr).add_optimumFrom_le

/-- **Compiling a sub-problem that carries the optimum leaves it to deeper ones**,
unless it finds it. -/
theorem carried (h : Pursues r session c p b safe cached queue) (hc : Compiles r session c)
    (hsafe : safe r.residual.depth r.residual.state r.residual.value) :
    Carried p b safe queue (r.residual.depth + 1) := by
  obtain ⟨mid, hevolves, hcache, he⟩ := hc
  have hclean := h.clean_evaluated he
  have hthread : r.Thread (p.total b) safe := by
    have hr := h.reached
    have ht := h.thread
    obtain rfl := h.problem
    obtain rfl := h.branching
    exact ht.request hr
  rcases (he.surveyed h.fine).finds h.regular hthread h.beaten hsafe with hesc | hlost | hfound |
    ⟨k, j, z, hemits⟩
  · rw [hcache] at hesc
    exact h.carried_of_escapes hesc
  · obtain ⟨_, m, s, v, t, w, hmem, hle, hsafe'⟩ := hlost
    exact absurd hsafe' (hclean.kept s _ v t hmem w hle)
  · obtain ⟨v, hv, hle⟩ := he.ranked.exists_bestExactValue hfound
    exact absurd (h.missed v hv) (not_lt.2 hle)
  · obtain ⟨N, hN, hstate, hvalue, hdepth, hbound⟩ := h.opened hemits
    obtain ⟨_, _, _, _, _, _, hk, _⟩ := (he.surveyed h.fine).cut.sound _ hemits.listed
    refine ⟨N, hN, ?_, hbound, ?_⟩
    · rw [hstate, hvalue, hdepth]
      exact hemits.safe
    · rw [hdepth]
      exact Nat.add_le_add_left hk _

/-- **The thresholds that a compilation teaches are backed.** -/
theorem backed (h : Pursues r session c p b safe cached queue) (hc : Compiles r session c)
    (ht : c.session.cache.get? state k = some t) :
    session.cache.get? state k = some t ∨ Backs p b safe queue state k t := by
  obtain ⟨mid, hevolves, hcache, he⟩ := hc
  have hsize : session.cache.layers.size ≠ 0 := by
    intro hzero
    rw [← hcache, ← he.taught.size] at hzero
    rw [Cache.get?_of_size_eq_zero hzero] at ht
    cases ht
  obtain ⟨hcached, hloose⟩ := h.mode hsize
  have hclean := h.clean_evaluated he
  rcases he.taught.entries state k t ht with
    hold | ⟨_, i, layer, hl, n, hn, hlas, hlesson, rfl, rfl⟩
  · rw [hcache] at hold
    exact .inl hold
  · refine .inr fun hreach => ?_
    have hsurvey := he.surveyed h.fine
    have hgraded := he.graded h.fine
    have hbeat := c.diagram.le_sweepBest r.toBeat
    obtain ⟨halive, hthr, hexplored⟩ := Node.lesson?_eq_some hlesson
    obtain ⟨j, hj⟩ := Array.mem_iff_getElem?.1 hn
    rw [(hsurvey.woven.placed i layer hl n hn).depth] at hreach ⊢
    rw [← h.optimumAt_eq] at hreach ⊢
    -- It is enough to be carried deeper than the threshold.
    have hstrict : Carried p b safe queue (r.residual.depth + i + 1) →
        Carried p b safe queue (r.residual.depth + i) ∧
          (t.explored = true ∨ p.total b < t.value + r.optimumAt i n.state →
            Carried p b safe queue (r.residual.depth + i + 1)) :=
      fun hcar => ⟨hcar.mono (fun _ hN => hN) (Nat.le_succ _), fun _ => hcar⟩
    rcases hsurvey.learns h.regular (fun _ => h.entered) hgraded hbeat h.sweepBest_lt hl hj halive
      hlas hthr hreach with hesc | hout | hlost | ⟨m, j', z, hemits, him, hcut, hle⟩
    · rw [hcache] at hesc
      exact hstrict (h.carried_of_escapes hesc)
    · obtain ⟨_, m, s, v, w, hmem, hle⟩ := hout
      rw [h.optimumAt_eq] at hle
      exact absurd (hclean.outbid hcached s _ v w hmem) (not_lt.2 hle)
    · obtain ⟨_, m, s, v, w, u, hmem, hle, hsafe⟩ := hlost
      refine absurd (hloose _ s u ?_) (hclean.kept s _ v w hmem u hle)
      rw [← h.optimumAt_eq]
      exact Request.loose_add.1 hsafe
    · obtain ⟨N, hN, hstate, hvalue, hdepth, hbound⟩ := h.opened hemits
      have hsafe : safe N.depth N.state N.value := by
        rw [hstate, hvalue, hdepth]
        refine hloose _ _ _ ?_
        rw [← h.optimumAt_eq]
        exact Request.loose_add.1 hemits.safe
      refine ⟨⟨N, hN, hsafe, hbound, by omega⟩, fun hex => ?_⟩
      refine ⟨N, hN, hsafe, hbound, ?_⟩
      -- Only the node itself is as deep, and it is neither explored nor exceeded.
      have hne : m ≠ i := by
        rintro rfl
        rcases hex with hex | hex
        · rw [hexplored, hcut rfl] at hex
          cases hex
        · exact absurd (hex.trans_le hle) (not_lt.2 (h.le_total_of_emits he hemits))
      omega

end Pursues
end Compile
end DiagramSearch
