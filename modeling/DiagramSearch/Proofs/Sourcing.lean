/-
# Where thresholds come from

The sweep never makes a threshold up: what a node is told before it settles is the best
value, in the deepest layer, or what one of its children leaves it.  In the same way a
threshold is borrowed only if that of a child is, or if the child is dominated.  And
what the cache is told it does not forget while the sweep goes on.

* `foldl_inform_heard`: what informing a layer may tell its nodes;
* `Diagram.sweep_sourced`: **every threshold of a swept diagram has such a source**;
* `Diagram.sweep_recalled`: **after the sweep the cache holds a threshold for the state
  of every lasting node**, if it has room for its depth.
-/

import DiagramSearch.Proofs.Sweeping

namespace DiagramSearch

open Extended Diagram

variable {σ κ : Type}

/-! ### What nodes are told -/

/-- A child leaves a value to the node at a position. -/
def Heard (layer : Layer σ Extended) (j : Nat) (t : Extended) : Prop :=
  ∃ y ∈ layer, ∃ u, y.threshold = some u ∧ ∃ e ∈ y.inbound, e.source = j ∧ t = u - e.cost

/-- A node of a layer has a threshold that is not its own. -/
def Lends (layer : Layer σ Extended) : Prop :=
  ∃ y ∈ layer, y.fate = .dominated ∨ y.borrowed = true

/-- A node that was told nothing yet. -/
structure Node.Untold (n : Node σ Extended) : Prop where
  borrowed : n.borrowed = false
  threshold : n.isAlive = true → n.threshold = none

/-- **What a node was told it was told by a child.** -/
theorem foldl_inform_heard (parents layer : Layer σ Extended) {j : Nat} {p : Node σ Extended}
    (hp : (layer.foldl Node.inform parents)[j]? = some p) :
    ∃ p₀, parents[j]? = some p₀ ∧ p.isAlive = p₀.isAlive ∧
      (∀ t, p.threshold = some t → p₀.threshold = some t ∨ Heard layer j t) ∧
      (p.borrowed = true → p₀.borrowed = true ∨ Lends layer) := by
  rw [inform_eq_spread] at hp
  refine Layer.spread_invariant (I := fun j p => ∃ p₀, parents[j]? = some p₀ ∧
    p.isAlive = p₀.isAlive ∧
    (∀ t, p.threshold = some t → p₀.threshold = some t ∨ Heard layer j t) ∧
    (p.borrowed = true → p₀.borrowed = true ∨ Lends layer)) ?_
    (fun j p hp => ⟨p, hp, rfl, fun _ => .inl, .inl⟩) j p hp
  rintro n hn act hact e he p ⟨p₀, hp₀, halive, hthr, hborrow⟩
  obtain ⟨u, hu, rfl⟩ := leaveMessage_eq_some hact
  refine ⟨p₀, hp₀, halive, fun t ht => ?_, fun hb => ?_⟩
  · -- Of two values the lesser one is one of the two.
    have hheard : Heard layer e.source (u - e.cost) := ⟨n, hn, u, hu, e, he, rfl, rfl⟩
    have hmin : min (p.threshold.getD posInf) (u - e.cost) = t := Option.some.inj ht
    rcases min_choice (p.threshold.getD posInf) (u - e.cost) with heq | heq
    · cases hpt : p.threshold with
      | some t' =>
        rw [hpt] at heq hmin
        obtain rfl : t' = t := heq.symm.trans hmin
        exact hthr t' hpt
      | none =>
        rw [hpt] at heq hmin
        have htop : u - e.cost = posInf := posInf_le_iff.1 (min_eq_left_iff.1 heq)
        rw [← hmin, htop]
        rw [htop] at hheard
        exact .inr hheard
    · rw [← hmin, heq]
      exact .inr hheard
  · simp only [Bool.or_eq_true] at hb
    rcases hb with hb | hb | hb
    · exact hborrow hb
    · exact .inr ⟨n, hn, .inl (by simpa using hb)⟩
    · exact .inr ⟨n, hn, .inr hb⟩

/-! ### Layer after layer -/

/-- Thresholds that have a source: for a node of the deepest layer the best value, for
any other node a child. -/
structure Sourced (best : Extended) (layers : List (Layer σ Extended)) : Prop where
  inner : ∀ i parents layer (j : Nat) p, level layers i = some parents →
    level layers (i + 1) = some layer → parents[j]? = some p → p.isAlive = true →
    ∃ p₀ : Node σ Extended, p = p₀.settle best ∧
      (∀ t, p₀.threshold = some t → Heard layer j t) ∧ (p.borrowed = true → Lends layer)
  last : ∀ i layer, level layers i = some layer → i + 1 = layers.length → ∀ n ∈ layer,
    n.isAlive = true → ∃ n₀ : Node σ Extended, n = n₀.settle best ∧
      (∀ t, n₀.threshold = some t → t = best) ∧ n.borrowed = false

theorem Node.borrowed_settle (best : Extended) (n : Node σ Extended) :
    (n.settle best).borrowed = n.borrowed := by
  unfold settle
  dsimp only
  split_ifs <;> rfl

variable [BEq σ]

/-- The source of a threshold, in a layer above the one that the sweep starts from. -/
theorem sweepLayers_sourced (best : Extended) (lasting : Nat → Node σ Extended → Bool)
    (session : Session σ κ Extended) (layer : Layer σ Extended) (above : List (Layer σ Extended))
    (huntold : ∀ i parents, level above i = some parents → ∀ n ∈ parents, n.Untold) :
    ∃ rest, (sweepLayers best lasting session layer above).2 =
        layer.map (Node.settle best) :: rest ∧ rest.length = above.length ∧
      ∀ i parents below (j : Nat) p, level (layer.map (Node.settle best) :: rest) i = some parents →
        level (layer.map (Node.settle best) :: rest) (i + 1) = some below →
        parents[j]? = some p → p.isAlive = true → ∃ p₀ : Node σ Extended, p = p₀.settle best ∧
          (∀ t, p₀.threshold = some t → Heard below j t) ∧ (p.borrowed = true → Lends below) := by
  induction above generalizing session layer with
  | nil =>
    refine ⟨[], rfl, rfl, fun i parents below j p hl hbelow => ?_⟩
    have := lt_of_level hbelow
    simp at this
  | cons parents above ih =>
    obtain ⟨rest, hrest, hlen, hsourced⟩ := ih
      (Layer.teach (layer.map (Node.settle best)) (lasting (above.length + 1)) session)
      ((layer.map (Node.settle best)).foldl Node.inform parents)
      fun i ps hps => huntold i ps (level_cons_of_some hps)
    refine ⟨((layer.map (Node.settle best)).foldl Node.inform parents).map (Node.settle best)
      :: rest, ?_, by rw [List.length_cons, List.length_cons, hlen], ?_⟩
    · rw [sweepLayers]
      dsimp only
      rw [hrest]
    · intro i ps below j p hl hbelow hp halive
      have hlt := lt_of_level hbelow
      rw [List.length_cons, List.length_cons] at hlt
      rw [level_cons, List.length_cons, if_neg (by omega)] at hl
      by_cases hi : i = rest.length
      · -- The layer right above was informed by the one the sweep starts from.
        subst hi
        rw [level_length] at hl
        obtain rfl := Option.some.inj hl
        rw [level_cons, List.length_cons, if_pos rfl] at hbelow
        obtain rfl := Option.some.inj hbelow
        rw [Array.getElem?_map] at hp
        obtain ⟨q, hq, rfl⟩ := Option.map_eq_some_iff.1 hp
        obtain ⟨q₀, hq₀, hsame, hthr, hborrow⟩ := foldl_inform_heard _ _ hq
        have hfresh := huntold _ parents (level_length _ _) q₀ (Array.mem_of_getElem? hq₀)
        rw [Node.isAlive_of_unswept (q.unswept_settle best), hsame] at halive
        refine ⟨q, rfl, fun t ht => (hthr t ht).resolve_left ?_, fun hb => ?_⟩
        · rw [hfresh.threshold halive]
          intro h
          cases h
        · rw [Node.borrowed_settle] at hb
          refine (hborrow hb).resolve_left ?_
          rw [hfresh.borrowed]
          exact Bool.false_ne_true
      · rw [level_cons, List.length_cons, if_neg (by omega)] at hbelow
        exact hsourced i ps below j p hl hbelow hp halive

/-- **Every threshold of a swept diagram has a source.** -/
theorem Diagram.sweep_sourced (d : Diagram σ Extended) (r : Request σ κ Extended)
    (session : Session σ κ Extended) (hd : d.layers ≠ [])
    (huntold : ∀ i layer, level d.layers i = some layer → ∀ n ∈ layer, n.Untold) :
    Sourced (d.sweepBest r.toBeat) (d.sweep r session).2.layers := by
  obtain ⟨last, above, hlayers⟩ := List.exists_cons_of_ne_nil hd
  rw [hlayers] at huntold
  obtain ⟨rest, hrest, _, hinner⟩ := sweepLayers_sourced (d.sweepBest r.toBeat)
    (d.lasting r.kind r.cutset) session (d.closing r.toBeat last) above
    fun i ps hps => huntold i ps (level_cons_of_some hps)
  rw [d.sweep_eq r session hlayers]
  dsimp only
  rw [hrest]
  refine ⟨hinner, fun i layer hl hi n hn halive => ?_⟩
  rw [level_cons, if_pos (by simpa using hi)] at hl
  obtain rfl := Option.some.inj hl
  obtain ⟨m, hm, rfl⟩ := Array.mem_map.1 hn
  rw [Node.isAlive_of_unswept (m.unswept_settle _)] at halive
  rw [Node.borrowed_settle]
  refine ⟨m, rfl, ?_⟩
  have hfresh := huntold _ last (level_length _ _)
  unfold closing at hm
  split at hm
  · obtain ⟨n, hmem, rfl⟩ := Array.mem_map.1 hm
    have hn := hfresh n hmem
    split
    · exact ⟨fun t ht => (Option.some.inj ht).symm, hn.borrowed⟩
    · rename_i hnot
      rw [if_neg hnot] at halive
      rw [hn.threshold halive]
      exact ⟨nofun, hn.borrowed⟩
  · rw [(hfresh m hm).threshold halive]
    exact ⟨nofun, (hfresh m hm).borrowed⟩

/-! ### What the cache recalls -/

section Recall

variable [LawfulBEq σ] {c : Cache σ Extended} {state other : σ} {depth k : Nat}
  {t : Threshold Extended} {s s' s'' : Session σ κ Extended}

/-- A cache recalls what it is told, at a depth that it has room for. -/
theorem Cache.isSome_get?_update (h : depth < c.layers.size) :
    ((c.update state depth t).get? state depth).isSome = true := by
  simp [update, get?, Array.getElem?_modify, Array.getElem?_eq_getElem h, Register.get?_put]

/-- A cache still recalls what it recalled before it was told something else. -/
theorem Cache.isSome_get?_update_of_isSome (h : (c.get? other k).isSome = true) :
    ((c.update state depth t).get? other k).isSome = true := by
  by_cases hk : k = depth
  · subst hk
    obtain ⟨u, hu⟩ := Option.isSome_iff_exists.1 h
    obtain ⟨layer, hlayer, hget⟩ := Option.bind_eq_some_iff.1 hu
    simp only [update, get?, Array.getElem?_modify, if_true, hlayer, Option.map_some,
      Option.bind_some, Register.get?_put]
    split
    · rfl
    · rw [hget]
      rfl
  · rw [get?_update_of_ne hk]
    exact h

/-- A session whose cache has the same room and forgot nothing. -/
structure Session.Retains (s s' : Session σ κ Extended) : Prop where
  size : s'.cache.layers.size = s.cache.layers.size
  recalls : ∀ state depth, (s.cache.get? state depth).isSome = true →
    (s'.cache.get? state depth).isSome = true

omit [LawfulBEq σ] in
theorem Session.Retains.refl (s : Session σ κ Extended) : s.Retains s := ⟨rfl, fun _ _ h => h⟩

omit [LawfulBEq σ] in
theorem Session.Retains.trans (h : s.Retains s') (h' : s'.Retains s'') : s.Retains s'' :=
  ⟨h'.size.trans h.size, fun state depth hs => h'.recalls state depth (h.recalls state depth hs)⟩

theorem Session.retains_remember : s.Retains (s.remember state depth t) :=
  ⟨Cache.size_layers_update, fun _ _ h => Cache.isSome_get?_update_of_isSome h⟩

/-- What one node tells the cache. -/
def Session.learn (s : Session σ κ Extended) (lasting : Node σ Extended → Bool)
    (n : Node σ Extended) : Session σ κ Extended :=
  match n.lesson? with
  | some t => if lasting n then s.remember n.state n.depth t else s
  | none => s

omit [LawfulBEq σ] in
theorem teach_eq_foldl (layer : Layer σ Extended) (lasting : Node σ Extended → Bool)
    (s : Session σ κ Extended) :
    layer.teach lasting s = layer.toList.foldl (fun s n => s.learn lasting n) s := by
  rw [Array.foldl_toList]
  unfold Layer.teach
  congr 1
  funext s n
  unfold Session.learn
  cases n.lesson? with
  | none => rfl
  | some t => rfl

omit [LawfulBEq σ] in
theorem Session.learn_of_lesson {lasting : Node σ Extended → Bool} {n : Node σ Extended}
    (ht : n.lesson? = some t) (hlas : lasting n = true) :
    s.learn lasting n = s.remember n.state n.depth t := by
  simp only [learn, ht, hlas, if_true]

theorem Session.retains_learn (s : Session σ κ Extended) (lasting : Node σ Extended → Bool)
    (n : Node σ Extended) : s.Retains (s.learn lasting n) := by
  unfold learn
  split
  · split
    · exact Session.retains_remember
    · exact .refl s
  · exact .refl s

/-- One node after the other, the cache is told lessons and forgets none. -/
theorem foldl_learn_retains (lasting : Node σ Extended → Bool) (ns : List (Node σ Extended))
    (s : Session σ κ Extended) : s.Retains (ns.foldl (fun s n => s.learn lasting n) s) := by
  induction ns generalizing s with
  | nil => exact .refl s
  | cons n ns ih => exact (s.retains_learn lasting n).trans (ih _)

theorem teach_retains (layer : Layer σ Extended) (lasting : Node σ Extended → Bool)
    (s : Session σ κ Extended) : s.Retains (layer.teach lasting s) := by
  rw [teach_eq_foldl]
  exact foldl_learn_retains lasting layer.toList s

/-- **The cache recalls the state of every lasting node of a layer.** -/
theorem teach_recalls {layer : Layer σ Extended} {lasting : Node σ Extended → Bool}
    {n : Node σ Extended} (hn : n ∈ layer) (hlas : lasting n = true) (ht : n.lesson? = some t)
    (hdepth : n.depth < s.cache.layers.size) :
    ((layer.teach lasting s).cache.get? n.state n.depth).isSome = true := by
  obtain ⟨before, after, hsplit⟩ := List.append_of_mem (Array.mem_toList_iff.2 hn)
  rw [teach_eq_foldl, hsplit, List.foldl_append, List.foldl_cons]
  refine (foldl_learn_retains lasting after _).recalls _ _ ?_
  rw [Session.learn_of_lesson ht hlas]
  refine Cache.isSome_get?_update ?_
  rw [(foldl_learn_retains lasting before s).size]
  exact hdepth

/-- Sweeping a layer and those above it, the cache is told the lessons of their lasting
nodes and forgets none. -/
theorem sweepLayers_recalls (best : Extended) (lasting : Nat → Node σ Extended → Bool)
    (s : Session σ κ Extended) (layer : Layer σ Extended) (above : List (Layer σ Extended)) :
    s.Retains (sweepLayers best lasting s layer above).1 ∧
    (sweepLayers best lasting s layer above).2.length = above.length + 1 ∧
    ∀ i l, level (sweepLayers best lasting s layer above).2 i = some l → ∀ n ∈ l,
      lasting i n = true → n.lesson?.isSome = true → n.depth < s.cache.layers.size →
        ((sweepLayers best lasting s layer above).1.cache.get? n.state n.depth).isSome = true := by
  induction above generalizing s layer with
  | nil =>
    refine ⟨teach_retains _ _ s, rfl, fun i l hl n hn hlas ht hdepth => ?_⟩
    have hi : i = 0 := by simpa [sweepLayers] using lt_of_level hl
    subst hi
    obtain rfl := Option.some.inj hl
    obtain ⟨t, ht⟩ := Option.isSome_iff_exists.1 ht
    exact teach_recalls hn hlas ht hdepth
  | cons parents above ih =>
    rw [sweepLayers]
    dsimp only
    have hteach := teach_retains (layer.map (Node.settle best)) (lasting (above.length + 1)) s
    obtain ⟨hretains, hlen, hrecalls⟩ := ih
      (Layer.teach (layer.map (Node.settle best)) (lasting (above.length + 1)) s)
      ((layer.map (Node.settle best)).foldl Node.inform parents)
    refine ⟨hteach.trans hretains, by rw [List.length_cons, hlen, List.length_cons], ?_⟩
    intro i l hl n hn hlas ht hdepth
    rw [level_cons, hlen] at hl
    split at hl
    · rename_i hi
      subst hi
      obtain rfl := Option.some.inj hl
      obtain ⟨t, ht⟩ := Option.isSome_iff_exists.1 ht
      exact hretains.recalls _ _ (teach_recalls hn hlas ht hdepth)
    · exact hrecalls i l hl n hn hlas ht (by rw [hteach.size]; exact hdepth)

/-- **After the sweep the cache recalls the state of every lasting node.** -/
theorem Diagram.sweep_recalled (d : Diagram σ Extended) (r : Request σ κ Extended)
    (session : Session σ κ Extended) (hd : d.layers ≠ []) :
    ∀ i layer, level (d.sweep r session).2.layers i = some layer → ∀ n ∈ layer,
      d.lasting r.kind r.cutset i n = true → n.lesson?.isSome = true →
        n.depth < session.cache.layers.size →
          ((d.sweep r session).1.cache.get? n.state n.depth).isSome = true := by
  obtain ⟨last, above, hlayers⟩ := List.exists_cons_of_ne_nil hd
  rw [d.sweep_eq r session hlayers]
  exact (sweepLayers_recalls _ _ session _ above).2.2

end Recall
end DiagramSearch
