/-
# Following the optimum down a diagram

Suppose that a target can still be reached from a node: its value and the optimum
of its state add up to it.  A decision that keeps this up leads to a child which
the layer below holds in some form, and so on, until the deepest layer or a node
that was set aside.

* `Request.Thread`: which pairs of a state and a value one follows;
* `Surveyed.descend`: one step down, to the node of the state that is reached or
  to a merged node;
* `Surveyed.descend_tail`: **a walk down from any node** ends in a node that was
  set aside, or the tail of the node leaves room for the target;
* `Surveyed.descend_lasting`: **a walk down from a lasting node** ends in a node
  that was set aside, in the cut-set, or in the deepest layer.

What is carried down is a value that fits in the room of each node on the way:
its longest path, or its threshold (`Passes`).
-/

import DiagramSearch.Proofs.Sweeping

namespace DiagramSearch

open Extended Diagram

variable {σ κ : Type}

/-! ### What is followed -/

/-- Pairs of a state and a value, by their depth in the problem, from which a
target can be reached through pairs of the same kind. -/
structure Request.Thread (r : Request σ κ Extended) (target : Extended)
    (safe : Nat → σ → Extended → Prop) : Prop where
  target_ne : target ≠ negInf
  reach : ∀ i s v, safe (r.residual.depth + i) s v → target ≤ v + r.optimumAt i s
  step : ∀ i s v, safe (r.residual.depth + i) s v → r.branching (r.freeAt i) [] ≠ none →
    ∃ d, r.Branches i s d ∧ safe (r.residual.depth + (i + 1))
      (r.model.problem.transition 0 s d) (v + r.model.problem.cost s d)
  /-- A trail that does even better is of the same kind. -/
  raise : ∀ i s v ds v', safe (r.residual.depth + i) s v → v ≤ v' → r.Traced i ds s v' →
    safe (r.residual.depth + i) s v'

/-- All pairs from which the target can be reached at all. -/
def Request.loose (r : Request σ κ Extended) (target : Extended) (k : Nat) (s : σ)
    (v : Extended) : Prop :=
  target ≤ v + r.optimumAt (k - r.residual.depth) s

/-- The target can be reached from a node by a value; if the node is exact, so
that its state is really reached, through the pairs that are followed. -/
structure Request.Carries (r : Request σ κ Extended) (target : Extended)
    (safe : Nat → σ → Extended → Prop) (i : Nat) (n : Node σ Extended) (h : Extended) : Prop where
  reach : target ≤ h + r.optimumAt i n.state
  safe : n.exact = true → safe (r.residual.depth + i) n.state h

namespace Request

variable {r : Request σ κ Extended} {target : Extended} {safe : Nat → σ → Extended → Prop}

theorem loose_add {i : Nat} {s : σ} {v : Extended} :
    r.loose target (r.residual.depth + i) s v ↔ target ≤ v + r.optimumAt i s := by
  rw [loose, Nat.add_sub_cancel_left]

theorem optimumAt_ne_negInf {i : Nat} {s : σ} {h : Extended} (htarget : target ≠ negInf)
    (hreach : target ≤ h + r.optimumAt i s) : r.optimumAt i s ≠ negInf := by
  intro hneg
  rw [hneg, add_negInf, le_negInf_iff] at hreach
  exact htarget hreach

/-- Some decision leaves the target within reach. -/
theorem exists_branches_reach {i : Nat} {s : σ} {h : Extended} (htarget : target ≠ negInf)
    (hreach : target ≤ h + r.optimumAt i s) (hi : r.branching (r.freeAt i) [] ≠ none) :
    ∃ d, r.Branches i s d ∧ target ≤ h + r.model.problem.cost s d +
      r.optimumAt (i + 1) (r.model.problem.transition 0 s d) := by
  obtain ⟨d, hd, heq⟩ := exists_branches hi (optimumAt_ne_negInf htarget hreach)
  refine ⟨d, hd, ?_⟩
  rw [add_assoc, heq]
  exact hreach

theorem thread_loose (htarget : target ≠ negInf) : r.Thread target (r.loose target) where
  target_ne := htarget
  reach _ _ _ := loose_add.1
  step _ _ _ h hi := by
    obtain ⟨d, hd, hreach⟩ := exists_branches_reach htarget (loose_add.1 h) hi
    exact ⟨d, hd, loose_add.2 hreach⟩
  raise _ _ _ _ _ h hle _ := loose_add.2 ((loose_add.1 h).trans (add_le_add_left hle _))

theorem Carries.of_reach {i : Nat} {n : Node σ Extended} {h : Extended}
    (hreach : target ≤ h + r.optimumAt i n.state) : r.Carries target (r.loose target) i n h :=
  ⟨hreach, fun _ => loose_add.2 hreach⟩

end Request

/-! ### Diagrams that can be descended -/

/-- What is known of the nodes of a diagram once it is unrolled. -/
structure Sketched [BEq σ] (r : Request σ κ Extended) (cache : Cache σ Extended)
    (events : List (Event σ Extended)) (layers : List (Layer σ Extended)) : Prop where
  woven : Woven r cache events layers
  bounded : Bounded r layers
  /-- The nodes of the deepest layer are not bounded yet, a lone root apart. -/
  rough : ∀ i layer, level layers i = some layer → i + 1 = layers.length → ∀ n ∈ layer,
    n.roughBound = if i = 0 then r.residual.bound else posInf
  branches : ∀ i, i + 1 < layers.length → r.branching (r.freeAt i) [] ≠ none
  ended : ∀ i layer, level layers i = some layer → i + 1 = layers.length →
    r.branching (r.freeAt i) [] = none ∨ ∀ n ∈ layer, n.isAlive = false

/-- **No bound is below the optimum**, if that of a lone root is not. -/
theorem Sketched.admissible [BEq σ] {r : Request σ κ Extended} {cache : Cache σ Extended}
    {events : List (Event σ Extended)} {layers : List (Layer σ Extended)}
    (h : Sketched r cache events layers) (hr : r.Regular) (hroot : layers.length = 1 → r.Entered)
    {i : Nat} {layer : Layer σ Extended} (hl : level layers i = some layer) {n : Node σ Extended}
    (hn : n ∈ layer) (halive : n.isAlive = true) : r.optimumAt i n.state ≤ n.roughBound := by
  have hlt := lt_of_level hl
  rcases Nat.lt_or_ge (i + 1) layers.length with hi | hi
  · rw [h.bounded i layer hl hi n hn halive]
    exact hr.sound.admissible n.state (r.freeAt i)
  · have hi : i + 1 = layers.length := by omega
    rw [h.rough i layer hl hi n hn]
    split
    · rename_i h0
      subst h0
      rcases h.ended 0 layer hl hi with hnone | hdead
      · rw [hroot hi.symm hnone]
        exact le_posInf _
      · rw [hdead n hn] at halive
        cases halive
    · exact le_posInf _

/-- A diagram with its cut-set and, if it has one, its tails. -/
structure Surveyed [BEq σ] (r : Request σ κ Extended) (cache : Cache σ Extended)
    (events : List (Event σ Extended)) (d : Diagram σ Extended) : Prop
    extends Sketched r cache events d.layers where
  whole : ∀ i layer, level d.layers i = some layer → r.kind ≠ .relaxed ∨ i = 0 →
    ∀ n ∈ layer, n.fate ≠ .deleted
  cut : Cut r d
  tailed : d.cutset ≠ [] → Tailed d.layers

/-- A value that fits in the room of a node fits in that of its children, unless
the node halts it. -/
def Passes (r : Request σ κ Extended) (layers : List (Layer σ Extended)) (target : Extended)
    (room : Node σ Extended → Extended) (halts : Node σ Extended → Prop) : Prop :=
  ∀ i parents layer (j : Nat) p, level layers i = some parents →
    level layers (i + 1) = some layer → parents[j]? = some p → p.isAlive = true → ¬halts p →
      ∀ h ≤ room p, target ≤ h + r.optimumAt i p.state →
        r.Expands i p ∧ ∀ y ∈ layer, y.fate ≠ .deleted → ∀ e ∈ y.inbound, e.source = j →
          h + e.cost ≤ room y

/-- A node of a layer at which a value that is carried down arrives. -/
structure Arrives (r : Request σ κ Extended) (layers : List (Layer σ Extended))
    (target : Extended) (safe : Nat → σ → Extended → Prop) (room : Node σ Extended → Extended)
    (k : Nat) (layer : Layer σ Extended) (j : Nat) (n : Node σ Extended) (h : Extended) :
    Prop where
  level : level layers k = some layer
  node : layer[j]? = some n
  room : h ≤ room n
  carries : r.Carries target safe k n h

theorem Passes.mono {r : Request σ κ Extended} {layers : List (Layer σ Extended)}
    {target : Extended} {room : Node σ Extended → Extended} {halts halts' : Node σ Extended → Prop}
    (hp : Passes r layers target room halts) (himp : ∀ n, halts n → halts' n) :
    Passes r layers target room halts' :=
  fun i ps l j p hl hl' hj halive hhalt => hp i ps l j p hl hl' hj halive (mt (himp p) hhalt)

namespace Surveyed

variable [BEq σ] {r : Request σ κ Extended} {cache : Cache σ Extended}
  {events : List (Event σ Extended)} {d : Diagram σ Extended} {target h : Extended}
  {safe : Nat → σ → Extended → Prop} {i j : Nat} {parents layer : Layer σ Extended}
  {p x : Node σ Extended} {room : Node σ Extended → Extended} {halts : Node σ Extended → Prop}

/-- **One step down.** -/
theorem descend (hs : Surveyed r cache events d) (hr : r.Regular) (ht : r.Thread target safe)
    (hl : level d.layers i = some parents) (hl' : level d.layers (i + 1) = some layer)
    (hp : parents[j]? = some p) (halive : p.isAlive = true) (hexp : r.Expands i p)
    (hc : r.Carries target safe i p h) :
    ∃ y ∈ layer, ∃ e ∈ y.inbound, e.source = j ∧ y.fate ≠ .deleted ∧
      r.Carries target safe (i + 1) y (h + e.cost) := by
  have hlinked := hs.woven.linked i parents layer hl hl'
  have hi := hs.branches i (lt_of_level hl')
  -- A decision that keeps the target within reach.
  obtain ⟨dec, hdec, hreach, hsafe⟩ : ∃ dec, r.Branches i p.state dec ∧
      target ≤ h + r.model.problem.cost p.state dec +
        r.optimumAt (i + 1) (r.model.problem.transition 0 p.state dec) ∧
      (p.exact = true → safe (r.residual.depth + (i + 1))
        (r.model.problem.transition 0 p.state dec) (h + r.model.problem.cost p.state dec)) := by
    cases hex : p.exact with
    | true =>
      obtain ⟨dec, hdec, hsafe⟩ := ht.step i p.state h (hc.safe hex) hi
      exact ⟨dec, hdec, ht.reach _ _ _ hsafe, fun _ => hsafe⟩
    | false =>
      obtain ⟨dec, hdec, hreach⟩ := Request.exists_branches_reach ht.target_ne hc.reach hi
      exact ⟨dec, hdec, hreach, nofun⟩
  obtain ⟨y, hy, e, he, hej, _, hcases⟩ := hlinked.receives j p hp halive hexp dec hdec
  obtain ⟨q, hq, hfrom⟩ := (hlinked.joined y hy).edge e he
  rw [hej] at hq
  obtain rfl := Option.some.inj (hp.symm.trans hq)
  refine ⟨y, hy, e, he, hej, ?_⟩
  rcases hcases with ⟨hstate, hcost, hdeleted⟩ | ⟨hfate, hex, xs, hmem, hstate, hcost⟩
  · refine ⟨fun hdel => hs.whole (i + 1) layer hl' (.inl ?_) y hy hdel, ?_, fun hex => ?_⟩
    · rw [hdeleted hdel]
      exact Kind.noConfusion
    · rw [hstate, hcost]
      exact hreach
    · rw [hstate, hcost]
      exact hsafe (hfrom.exact hex)
  · refine ⟨by rw [hfate]; exact Fate.noConfusion, ?_, fun hexact => ?_⟩
    · obtain ⟨v, _, hd⟩ := hdec
      have hcover := hr.sound.covering xs (r.freeAt (i + 1)) p.state v dec hd hmem
      rw [← hstate, ← hcost] at hcover
      rw [add_assoc] at hreach ⊢
      exact hreach.trans (add_le_add_right hcover h)
    · rw [hex] at hexact
      cases hexact

/-- One step down, with what fits in the room of the node. -/
theorem arrives_below (hs : Surveyed r cache events d) (hr : r.Regular) (ht : r.Thread target safe)
    (hpass : Passes r d.layers target room halts) (hlt : i + 1 < d.layers.length)
    (hx : Arrives r d.layers target safe room i parents j x h) (halive : x.isAlive = true)
    (hhalt : ¬halts x) :
    ∃ layer k y, ∃ e ∈ y.inbound, e.source = j ∧ y.fate ≠ .deleted ∧
      Arrives r d.layers target safe room (i + 1) layer k y (h + e.cost) := by
  obtain ⟨layer, hl'⟩ := exists_level d.layers hlt
  obtain ⟨hexp, hroom⟩ := hpass i parents layer j x hx.level hl' hx.node halive hhalt h hx.room
    hx.carries.reach
  obtain ⟨y, hy, e, he, hej, hfate, hc⟩ := hs.descend hr ht hx.level hl' hx.node halive hexp
    hx.carries
  obtain ⟨k, hk⟩ := Array.mem_iff_getElem?.1 hy
  exact ⟨layer, k, y, e, he, hej, hfate, hl', hk, hroom y hy hfate e he hej, hc⟩

/-- Nothing is left to decide in a node of the deepest layer. -/
theorem reach_last (hs : Surveyed r cache events d) (hi : i + 1 = d.layers.length)
    (hx : Arrives r d.layers target safe room i layer j x h) (halive : x.isAlive = true) :
    target ≤ h := by
  have hreach := hx.carries.reach
  rcases hs.ended i layer hx.level hi with hnone | hdead
  · rwa [Request.optimumAt_of_none hnone, add_zero] at hreach
  · rw [hdead x (Array.mem_of_getElem? hx.node)] at halive
    cases halive

/-- **A walk down from any node**: it meets a node that was set aside or that
halts it, or the tail of the node leaves room for the target. -/
theorem descend_tail (hs : Surveyed r cache events d) (hr : r.Regular) (ht : r.Thread target safe)
    (htailed : Tailed d.layers) (hpass : Passes r d.layers target room halts)
    (hx : Arrives r d.layers target safe room i layer j x h) (halive : x.isAlive = true)
    (hhalt : ¬halts x) :
    (∃ k l m y h', i < k ∧ Arrives r d.layers target safe room k l m y h' ∧
      (y.fate = .cached ∨ y.fate = .dominated ∨ y.isAlive = true ∧ halts y)) ∨
    ∃ w, x.tail = some w ∧ target ≤ h + w ∧
      ∃ l z, level d.layers (d.layers.length - 1) = some l ∧ z ∈ l ∧ z.isAlive = true ∧
        target ≤ room z := by
  induction hm : d.layers.length - (i + 1) generalizing i j layer x h with
  | zero =>
    have hlt := lt_of_level hx.level
    have hi : i + 1 = d.layers.length := by omega
    have hreach := hs.reach_last hi hx halive
    have hmem := Array.mem_of_getElem? hx.node
    refine .inr ⟨0, htailed.last i layer hx.level hi x hmem halive, ?_, layer, x, ?_, hmem, halive,
      hreach.trans hx.room⟩
    · rw [add_zero]
      exact hreach
    · rw [← hi, Nat.add_sub_cancel]
      exact hx.level
  | succ m ih =>
    have hlt : i + 1 < d.layers.length := by omega
    obtain ⟨layer', k, y, e, he, hej, hfate, hy⟩ := hs.arrives_below hr ht hpass hlt hx halive hhalt
    by_cases hstuck : y.fate = .cached ∨ y.fate = .dominated ∨ y.isAlive = true ∧ halts y
    · exact .inl ⟨i + 1, layer', k, y, _, Nat.lt_succ_self i, hy, hstuck⟩
    · push Not at hstuck
      have hyalive : y.isAlive = true := by
        cases hf : y.fate with
        | alive => simp [Node.isAlive, hf]
        | cached => exact absurd hf hstuck.1
        | dominated => exact absurd hf hstuck.2.1
        | deleted => exact absurd hf hfate
      rcases ih hy hyalive (hstuck.2.2 hyalive) (by omega) with
        ⟨k', l, m, y', h', hk, hy', hend⟩ | ⟨w, hw, hreach, hlast⟩
      · exact .inl ⟨k', l, m, y', h', by omega, hy', hend⟩
      · subst hej
        obtain ⟨w', hw', hle⟩ := htailed.lift i layer layer' hx.level hy.level y
          (Array.mem_of_getElem? hy.node) w hw e he x hx.node
        refine .inr ⟨w', hw', ?_, hlast⟩
        calc target ≤ h + e.cost + w := hreach
          _ = h + (w + e.cost) := by rw [add_assoc, add_comm e.cost]
          _ ≤ h + w' := add_le_add_right hle h

/-- **A walk down from a lasting node**: it ends in a node that was set aside, in
the cut-set, or in the deepest layer. -/
theorem descend_lasting (hs : Surveyed r cache events d) (hr : r.Regular)
    (ht : r.Thread target safe) (hpass : Passes r d.layers target room fun n => n.cutset = true)
    (hx : Arrives r d.layers target safe room i layer j x h) (halive : x.isAlive = true)
    (hlas : d.lasting r.kind r.cutset i x = true) :
    ∃ k l m y h', i ≤ k ∧ (k = i → y = x) ∧ Arrives r d.layers target safe room k l m y h' ∧
      ((i < k ∧ (y.fate = .cached ∨ y.fate = .dominated)) ∨
        (y.isAlive = true ∧ d.lasting r.kind r.cutset k y = true ∧
          (y.cutset = true ∨ (y.cutset = false ∧ k + 1 = d.layers.length)))) := by
  induction hm : d.layers.length - (i + 1) generalizing i j layer x h with
  | zero =>
    have hlt := lt_of_level hx.level
    refine ⟨i, layer, j, x, h, le_rfl, fun _ => rfl, hx, .inr ⟨halive, hlas, ?_⟩⟩
    cases hcut : x.cutset with
    | true => exact .inl rfl
    | false => exact .inr ⟨rfl, by omega⟩
  | succ m ih =>
    cases hcut : x.cutset with
    | true => exact ⟨i, layer, j, x, h, le_rfl, fun _ => rfl, hx, .inr ⟨halive, hlas, .inl hcut⟩⟩
    | false =>
      have hlt : i + 1 < d.layers.length := by omega
      obtain ⟨layer', k, y, e, he, hej, hfate, hy⟩ := hs.arrives_below hr ht hpass hlt hx halive
        (by rw [hcut]; exact Bool.false_ne_true)
      have hset : (y.fate = .cached ∨ y.fate = .dominated) ∨ y.isAlive = true := by
        cases hf : y.fate with
        | alive => exact .inr (by simp [Node.isAlive, hf])
        | cached => exact .inl (.inl rfl)
        | dominated => exact .inl (.inr rfl)
        | deleted => exact absurd hf hfate
      rcases hset with hset | hyalive
      · exact ⟨i + 1, layer', k, y, _, Nat.le_succ i, fun h => by omega, hy,
          .inl ⟨Nat.lt_succ_self i, hset⟩⟩
      · subst hej
        have hylas := hs.cut.covers i layer layer' x hx.level hy.level y
          (Array.mem_of_getElem? hy.node) hyalive e he hx.node halive hlas hcut
        obtain ⟨k', l, m, z, h', hk, _, hz, hend⟩ := ih hy hyalive hylas (by omega)
        refine ⟨k', l, m, z, h', by omega, fun h => by omega, hz, ?_⟩
        exact hend.imp_left fun hset => ⟨by omega, hset.2⟩

end Surveyed
end DiagramSearch
