/-
# Merging the nodes in excess

A relaxed layer that is too wide leads the edges of the nodes in excess to one
merged node, at relaxed costs.

* `Node.Gathers` is what holds of the merged node while edge after edge is led
  to it, `Absorbing` what holds of the layer while node after node is absorbed;
* `Absorbing.linked`, `Absorbing.settled`: the layer that results is linked and
  settled, so a relaxed layer loses no decision.
-/

import DiagramSearch.Proofs.Fusing
import DiagramSearch.Proofs.Settling

namespace DiagramSearch

open Extended

variable {σ κ : Type} {r : Request σ κ Extended} {i : Nat} {parents : Layer σ Extended}

/-! ### The merged node, edge by edge -/

/-- Leads one edge of an absorbed node, of a given state, to the merged one. -/
def Request.lead (r : Request σ κ Extended) (parents : Layer σ Extended) (absorbed merged : σ)
    (m : Node σ Extended) (e : Edge Extended) : Node σ Extended :=
  match parents[e.source]? with
  | none => m
  | some p => m.attach p
      { e with cost := r.model.relaxation.relax p.state absorbed merged e.decision e.cost }

/-- A merged node in the making: it hangs from the layer above, and is joined to
it from its first edge on. -/
structure Node.Gathers (r : Request σ κ Extended) (i : Nat) (parents : Layer σ Extended)
    (merged : σ) (m : Node σ Extended) : Prop where
  hung : m.Hung r i parents
  joined : m.longest = negInf ∨ m.Joined r i parents
  state : m.state = merged
  isMerged : m.merged = true
  alive : m.fate = .alive
  blank : m.Blank
  roughBound : m.roughBound = posInf

namespace Node.Gathers

variable {merged : σ} {m p : Node σ Extended} {e : Edge Extended}

/-- The first edge, and every other one, joins the node to the layer above. -/
theorem attach_joined (h : m.Gathers r i parents merged) (hp : parents[e.source]? = some p)
    (halive : p.isAlive = true) (hbranch : r.Branches i p.state e.decision)
    (hexp : r.Expands i p) : (m.attach p e).Joined r i parents := by
  have horig : m.merged = false → m.state = r.model.problem.transition 0 p.state e.decision ∧
      e.cost = r.model.problem.cost p.state e.decision := by
    rw [h.isMerged]
    exact fun hm => by cases hm
  rcases h.joined with hneg | hjoined
  · have hle : m.longest ≤ p.longest + e.cost := by
      rw [hneg]
      exact negInf_le _
    refine ⟨h.hung.attach hp halive hbranch hexp horig, e, p, ?_, hp, ?_⟩
    · exact Node.bestEdge?_attach_of_le m p e hle
    · rw [Node.attach_longest]
      exact max_eq_right hle
  · exact hjoined.attach hp halive hbranch hexp horig

theorem attach (h : m.Gathers r i parents merged) (hp : parents[e.source]? = some p)
    (halive : p.isAlive = true) (hbranch : r.Branches i p.state e.decision)
    (hexp : r.Expands i p) : (m.attach p e).Gathers r i parents merged := by
  have hjoined := h.attach_joined hp halive hbranch hexp
  refine ⟨hjoined.toHung, .inr hjoined, ?_, ?_, ?_, ⟨?_, ?_, ?_, ?_⟩, ?_⟩
  · rw [Node.attach_state]; exact h.state
  · rw [Node.attach_merged]; exact h.isMerged
  · rw [Node.attach_fate]; exact h.alive
  · rw [Node.attach_tail]; exact h.blank.tail
  · rw [Node.attach_cutset]; exact h.blank.cutset
  · rw [Node.attach_borrowed]; exact h.blank.borrowed
  · rw [Node.isAlive, Node.attach_fate, Node.attach_threshold]; exact h.blank.threshold
  · rw [Node.attach_roughBound]; exact h.roughBound

/-- **A merged node takes over every edge of a node that it absorbs.** -/
theorem foldl_lead (absorbed : σ) (es : List (Edge Extended)) (h : m.Gathers r i parents merged)
    (hes : ∀ e ∈ es, ∃ p, parents[e.source]? = some p ∧ p.isAlive = true ∧
      r.Branches i p.state e.decision ∧ r.Expands i p) :
    (es.foldl (r.lead parents absorbed merged) m).Gathers r i parents merged ∧
      (es ≠ [] → (es.foldl (r.lead parents absorbed merged) m).Joined r i parents) ∧
      (∀ e ∈ m.inbound, e ∈ (es.foldl (r.lead parents absorbed merged) m).inbound) ∧
      ∀ e ∈ es, ∀ p, parents[e.source]? = some p →
        { e with cost := r.model.relaxation.relax p.state absorbed merged e.decision e.cost } ∈
          (es.foldl (r.lead parents absorbed merged) m).inbound := by
  induction es generalizing m with
  | nil => exact ⟨h, fun hne => absurd rfl hne, fun _ he => he, fun _ he => by cases he⟩
  | cons e es ih =>
    obtain ⟨p, hp, halive, hbranch, hexp⟩ := hes e List.mem_cons_self
    have hlead : r.lead parents absorbed merged m e = m.attach p
        { e with cost := r.model.relaxation.relax p.state absorbed merged e.decision e.cost } := by
      rw [Request.lead, hp]
    have hjoined := h.attach_joined (e := { e with
      cost := r.model.relaxation.relax p.state absorbed merged e.decision e.cost })
      hp halive hbranch hexp
    have hgathers := h.attach (e := { e with
      cost := r.model.relaxation.relax p.state absorbed merged e.decision e.cost })
      hp halive hbranch hexp
    obtain ⟨ihg, ihj, ihold, ihnew⟩ := ih hgathers fun f hf => hes f (List.mem_cons_of_mem e hf)
    rw [List.foldl_cons, hlead]
    refine ⟨ihg, fun _ => ?_, fun f hf => ?_, fun f hf q hq => ?_⟩
    · cases es with
      | nil => exact hjoined
      | cons f fs => exact ihj (List.cons_ne_nil f fs)
    · exact ihold f (by rw [Node.attach_inbound]; exact List.mem_cons_of_mem _ hf)
    · rcases List.mem_cons.1 hf with rfl | hf
      · obtain rfl := Option.some.inj (hp.symm.trans hq)
        exact ihold _ (by rw [Node.attach_inbound]; exact List.mem_cons_self)
      · exact ihnew f hf q hq

end Node.Gathers

/-- Nothing else leads to the merged node but its own edges and those that it took over. -/
theorem mem_inbound_foldl_lead {absorbed merged : σ} {es : List (Edge Extended)}
    {m : Node σ Extended} {e : Edge Extended}
    (he : e ∈ (es.foldl (r.lead parents absorbed merged) m).inbound) :
    e ∈ m.inbound ∨ ∃ f ∈ es, ∃ p, parents[f.source]? = some p ∧
      e = { f with cost := r.model.relaxation.relax p.state absorbed merged f.decision f.cost } := by
  induction es generalizing m with
  | nil => exact .inl he
  | cons f es ih =>
    rcases ih he with he | ⟨g, hg, hlead⟩
    · unfold Request.lead at he
      split at he
      · exact .inl he
      · rename_i p hp
        rw [Node.attach_inbound, List.mem_cons] at he
        exact he.symm.imp_right fun heq => ⟨f, List.mem_cons_self, p, hp, heq⟩
    · exact .inr ⟨g, List.mem_cons_of_mem f hg, hlead⟩

/-! ### The layer, node by node -/

/-- Leading the edges of a node to the merged one attaches all that the node hands over. -/
theorem foldl_lead_eq (n m : Node σ Extended) (merged : σ) :
    n.inbound.foldl (r.lead parents n.state merged) m =
      m.attachAll (r.handOver parents merged n) := by
  unfold Request.handOver
  induction n.inbound generalizing m with
  | nil => rfl
  | cons e es ih =>
    rw [List.foldl_cons, ih, List.filterMap_cons]
    cases hp : parents[e.source]? with
    | none => simp [Request.lead, hp]
    | some p =>
      rw [Request.lead, hp]
      rfl

/-- Absorbing a node marks it as deleted and changes the merged one. -/
theorem getElem?_redirect (r : Request σ κ Extended) (parents : Layer σ Extended) (merged : σ)
    {target : Nat} {layer : Layer σ Extended} {c : Candidate σ Extended} {n : Node σ Extended}
    (hn : layer[c.position]? = some n) (hne : c.position ≠ target) (j : Nat) :
    (redirect r parents merged target layer c)[j]? =
      if j = target then layer[j]?.map (n.inbound.foldl (r.lead parents n.state merged) ·)
      else if j = c.position then some { n with fate := .deleted }
      else layer[j]? := by
  rw [getElem?_redirect_eq hne, hn, Option.map_some, Option.getD_some]
  simp only [foldl_lead_eq]
  congr 1
  by_cases hj : j = c.position
  · simp [hj, hn]
  · simp [hj]

section Absorbing

/-- A layer of which some nodes were absorbed by the node at `target`. -/
structure Absorbing (r : Request σ κ Extended) (i : Nat) (parents layer : Layer σ Extended)
    (target : Nat) (merged : σ) (gone : List (Candidate σ Extended)) (now : Layer σ Extended) :
    Prop where
  other : ∀ j : Nat, j ≠ target → now[j]? = layer[j]?.map fun n =>
    if j ∈ gone.map (·.position) then { n with fate := .deleted } else n
  /-- The node at `target` has no edges but its own and those that it took over. -/
  inbound : ∀ m, now[target]? = some m → ∀ e ∈ m.inbound,
    (∃ n, layer[target]? = some n ∧ e ∈ n.inbound) ∨
    ∃ c ∈ gone, ∃ n, layer[c.position]? = some n ∧ ∃ f ∈ n.inbound, ∃ p,
      parents[f.source]? = some p ∧
      e = { f with cost := r.model.relaxation.relax p.state n.state merged f.decision f.cost }
  target : ∃ m, now[target]? = some m ∧ m.Gathers r i parents merged ∧
    (gone ≠ [] → m.Joined r i parents) ∧
    (∀ n, layer[target]? = some n → ∀ e ∈ n.inbound, e ∈ m.inbound) ∧
    ∀ c ∈ gone, ∀ n, layer[c.position]? = some n → ∀ e ∈ n.inbound, ∀ p,
      parents[e.source]? = some p →
        { e with cost := r.model.relaxation.relax p.state n.state merged e.decision e.cost } ∈
          m.inbound

variable {layer now : Layer σ Extended} {target : Nat} {merged : σ}
  {gone : List (Candidate σ Extended)}

theorem Absorbing.step (h : Absorbing r i parents layer target merged gone now)
    {c : Candidate σ Extended} {n : Node σ Extended} (hn : layer[c.position]? = some n)
    (hjoined : n.Joined r i parents) (hne : c.position ≠ target)
    (hnot : c.position ∉ gone.map (·.position)) :
    Absorbing r i parents layer target merged (c :: gone)
      (redirect r parents merged target now c) := by
  have hnow : now[c.position]? = some n := by
    rw [h.other _ hne, hn, Option.map_some, if_neg hnot]
  have hget := getElem?_redirect r parents merged hnow hne
  obtain ⟨m, hm, hgathers, _, hold, hgone⟩ := h.target
  obtain ⟨hgathers', hjoined', hkeep, hnew⟩ := hgathers.foldl_lead n.state n.inbound
    fun e he => by
      obtain ⟨p, hp, hfrom⟩ := hjoined.edge e he
      exact ⟨p, hp, hfrom.alive, hfrom.branches, hfrom.expands⟩
  refine ⟨fun j hj => ?_, fun m' hm' e he => ?_, _,
    by rw [hget, if_pos rfl, hm, Option.map_some], hgathers', fun _ => ?_,
    fun n' hn' e he => hkeep e (hold n' hn' e he), fun c' hc' n' hn' e he p hp => ?_⟩
  · rw [hget, if_neg hj, h.other j hj]
    by_cases hjc : j = c.position
    · subst hjc
      simp [hn]
    · rw [if_neg hjc]
      simp only [List.map_cons, List.mem_cons, hjc, false_or]
  · rw [hget, if_pos rfl, hm, Option.map_some] at hm'
    obtain rfl := Option.some.inj hm'
    rcases mem_inbound_foldl_lead he with he | ⟨f, hf, p, hp, heq⟩
    · exact (h.inbound m hm e he).imp_right fun ⟨c', hc', htaken⟩ =>
        ⟨c', List.mem_cons_of_mem c hc', htaken⟩
    · exact .inr ⟨c, List.mem_cons_self, n, hn, f, hf, p, hp, heq⟩
  · obtain ⟨e, _, he, _⟩ := hjoined.best
    exact hjoined' (List.ne_nil_of_mem (Node.mem_inbound_of_bestEdge? he))
  · rcases List.mem_cons.1 hc' with rfl | hc'
    · obtain rfl := Option.some.inj (hn.symm.trans hn')
      exact hnew e he p hp
    · exact hkeep _ (hgone c' hc' n' hn' e he p hp)

/-- **One node after the other is absorbed.** -/
theorem Absorbing.foldl (cs : List (Candidate σ Extended))
    (h : Absorbing r i parents layer target merged gone now)
    (hcs : ∀ c ∈ cs, c.position ≠ target ∧ ∃ n, layer[c.position]? = some n ∧
      n.Joined r i parents)
    (hnodup : (cs.map (·.position)).Nodup)
    (hnot : ∀ c ∈ cs, c.position ∉ gone.map (·.position)) :
    Absorbing r i parents layer target merged (cs.reverse ++ gone)
      (cs.foldl (redirect r parents merged target) now) := by
  induction cs generalizing gone now with
  | nil => exact h
  | cons c cs ih =>
    obtain ⟨hne, n, hn, hjoined⟩ := hcs c List.mem_cons_self
    rw [List.map_cons, List.nodup_cons] at hnodup
    rw [List.reverse_cons, List.append_assoc]
    refine ih (h.step hn hjoined hne (hnot c List.mem_cons_self))
      (fun c' hc' => hcs c' (List.mem_cons_of_mem c hc')) hnodup.2 fun c' hc' hmem => ?_
    rcases List.mem_cons.1 hmem with heq | hmem
    · exact hnodup.1 (List.mem_map.2 ⟨c', hc', heq⟩)
    · exact hnot c' (List.mem_cons_of_mem c hc') hmem

/-- **Absorbing nodes loses no decision.** -/
theorem Absorbing.linked (h : Absorbing r i parents layer target merged gone now)
    (harrived : Arrived r i parents layer) (hne : gone ≠ [])
    (htarget : ∀ n, layer[target]? = some n → n.state = merged) {xs : List σ}
    (hmerged : merged = r.model.relaxation.merge xs)
    (hxs : ∀ c ∈ gone, ∀ n, layer[c.position]? = some n → n.state ∈ xs)
    (hsource : ∀ y ∈ xs, ∃ n ∈ layer, n.state = y) : Linked r i parents now := by
  obtain ⟨m, hm, hgathers, hjoined, hold, hgone⟩ := h.target
  refine ⟨fun n' hn' => ?_, fun n' hn' e he p hp => ?_, fun j p hp halive hexp d hd => ?_⟩
  · obtain ⟨k, hk⟩ := Array.mem_iff_getElem?.1 hn'
    by_cases hkt : k = target
    · subst hkt
      obtain rfl := Option.some.inj (hm.symm.trans hk)
      exact hjoined hne
    · rw [h.other k hkt] at hk
      obtain ⟨n, hn, rfl⟩ := Option.map_eq_some_iff.1 hk
      refine (harrived.joined n (Array.mem_of_getElem? hn)).congr ?_ rfl
      split <;> rfl
  · obtain ⟨k, hk⟩ := Array.mem_iff_getElem?.1 hn'
    by_cases hkt : k = target
    · subst hkt
      obtain rfl := Option.some.inj (hm.symm.trans hk)
      rcases h.inbound m hm e he with ⟨n, hn, he⟩ | ⟨c, hc, n, hn, f, hf, q, hq, rfl⟩
      · obtain ⟨hstate, hcost⟩ := harrived.original (Array.mem_of_getElem? hn) he hp
        exact .inl ⟨hgathers.state.trans ((htarget n hn).symm.trans hstate), hcost⟩
      · obtain rfl := Option.some.inj (hp.symm.trans hq)
        obtain ⟨hstate, hcost⟩ := harrived.original (Array.mem_of_getElem? hn) hf hp
        refine .inr ⟨xs, ?_, hgathers.state.trans hmerged, ?_, fun y hy => ?_⟩
        · exact hstate ▸ hxs c hc n hn
        · rw [hgathers.state, ← hstate, ← hcost]
        · obtain ⟨z, hz, rfl⟩ := hsource y hy
          exact harrived.exists_branches hz
    · rw [h.other k hkt] at hk
      obtain ⟨n, hn, rfl⟩ := Option.map_eq_some_iff.1 hk
      by_cases hgk : k ∈ gone.map (·.position)
      · rw [if_pos hgk] at he ⊢
        exact .inl (harrived.original (Array.mem_of_getElem? hn) he hp)
      · rw [if_neg hgk] at he ⊢
        exact .inl (harrived.original (Array.mem_of_getElem? hn) he hp)
  · obtain ⟨n, hn, hstate, hedge⟩ := harrived.arrives j p hp halive hexp d hd
    obtain ⟨k, hk⟩ := Array.mem_iff_getElem?.1 hn
    by_cases hkt : k = target
    · subst hkt
      refine ⟨m, Array.mem_of_getElem? hm, _, hold n hk _ hedge, rfl, rfl, .inl ⟨?_, rfl, ?_⟩⟩
      · rw [hgathers.state, ← htarget n hk, hstate]
      · rw [hgathers.alive]
        exact Fate.noConfusion
    · have hnow := h.other k hkt
      rw [hk, Option.map_some] at hnow
      by_cases hgk : k ∈ gone.map (·.position)
      · obtain ⟨c, hc, rfl⟩ := List.mem_map.1 hgk
        refine ⟨m, Array.mem_of_getElem? hm, _, hgone c hc n hk _ hedge p hp, rfl, rfl,
          .inr ⟨hgathers.alive, hgathers.hung.merged hgathers.isMerged, xs, ?_, ?_, ?_⟩⟩
        · rw [← hstate]
          exact hxs c hc n hk
        · rw [hgathers.state, hmerged]
        · rw [hgathers.state, ← hstate]
      · rw [if_neg hgk] at hnow
        refine ⟨n, Array.mem_of_getElem? hnow, _, hedge, rfl, rfl, .inl ⟨hstate, rfl, fun hf => ?_⟩⟩
        exact absurd hf (harrived.intact n hn).2

/-- A layer that has absorbed nodes is settled. -/
theorem Absorbing.settled [BEq σ] {cache : Cache σ Extended} {events : List (Event σ Extended)}
    {kept positions : List Nat} (h : Absorbing r i parents layer target merged gone now)
    (hkind : r.kind = .relaxed)
    (hset : Settled r cache events (i + 1) posInf layer kept false)
    (hpositions : ∀ j, j ∈ positions ↔
      j = target ∨ (j ∈ kept ∧ j ∉ gone.map (·.position))) :
    Settled r cache events (i + 1) posInf now positions true := by
  obtain ⟨m, hm, hgathers, _⟩ := h.target
  have hold : ∀ n' ∈ now, n' = m ∨ ∃ n ∈ layer, n' = { n with fate := .deleted } ∨ n' = n := by
    intro n' hn'
    obtain ⟨k, hk⟩ := Array.mem_iff_getElem?.1 hn'
    by_cases hkt : k = target
    · subst hkt
      exact .inl (Option.some.inj (hk.symm.trans hm))
    · rw [h.other k hkt] at hk
      obtain ⟨n, hn, rfl⟩ := Option.map_eq_some_iff.1 hk
      refine .inr ⟨n, Array.mem_of_getElem? hn, ?_⟩
      split
      · exact .inl rfl
      · exact .inr rfl
  refine ⟨fun n' hn' => ?_, fun n' hn' => ?_, fun n' hn' => ?_, fun j => ?_, fun h => by cases h⟩
  · rcases hold n' hn' with rfl | ⟨n, hn, rfl | rfl⟩
    · refine ⟨hgathers.hung.depth, fun hf => ?_, fun hf => ?_, fun _ => hkind⟩
      · rw [hgathers.alive] at hf; cases hf
      · rw [hgathers.alive] at hf; cases hf
    · exact ⟨(hset.placed n hn).depth, Fate.noConfusion, Fate.noConfusion,
        (hset.placed n hn).merged⟩
    · exact hset.placed n' hn
  · rcases hold n' hn' with rfl | ⟨n, hn, rfl | rfl⟩
    · exact hgathers.blank
    · exact ⟨(hset.blank n hn).tail, (hset.blank n hn).cutset, (hset.blank n hn).borrowed, nofun⟩
    · exact hset.blank n' hn
  · rcases hold n' hn' with rfl | ⟨n, hn, rfl | rfl⟩
    · exact hgathers.roughBound
    · exact hset.rough n hn
    · exact hset.rough n' hn
  · rw [hpositions]
    by_cases hjt : j = target
    · subst hjt
      exact ⟨fun _ => ⟨m, hm, hgathers.alive⟩, fun _ => .inl rfl⟩
    · rw [h.other j hjt, hset.kept]
      constructor
      · rintro (hj | ⟨⟨n, hn, hfate⟩, hnot⟩)
        · exact absurd hj hjt
        · exact ⟨n, by rw [hn, Option.map_some, if_neg hnot], hfate⟩
      · rintro ⟨n', hn', hfate⟩
        obtain ⟨n, hn, rfl⟩ := Option.map_eq_some_iff.1 hn'
        split at hfate
        · cases hfate
        · rename_i hnot
          exact .inr ⟨⟨n, hn, hfate⟩, hnot⟩

end Absorbing
end DiagramSearch
