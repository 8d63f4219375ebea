/-
# A relaxation redirects transitions and loses none

Each transition of a layer has a node in the layer below.  If the node is absorbed by a
merge, its edges are led to the merged node at relaxed costs, one for each of them, whether
the merged node is new or one that is kept and has edges of its own.  So what enters the
nodes of a layer is known edge by edge, and none is lost, repeated or left at its old cost.

* `Redirects`: the edges of a layer below another one, list by list;
* `Conveys`, `Redirects.conveys`: what follows for a single transition and for a single edge;
* `Collects.redirects`: **completing a layer** whose nodes were just reached;
* `Rounds.relayed`: **every pair of layers**, in every round;
* `Request.compile_redirects`: **what holds of a compiled relaxed diagram.**
-/

import DiagramSearch.Proofs.Transitions

namespace DiagramSearch

open Diagram

variable {σ κ V : Type}

/-! ### The edges of a layer -/

section Redirects

/-- What an absorbed node hands over to the node of a merged state: its edges, each at its
relaxed cost. -/
def Request.handedOver (r : Request σ κ V) (parents : Array (Berth σ V)) (merged : σ)
    (n : Station σ V) : List (Edge V) :=
  n.inbound.filterMap fun e => parents[e.source]?.map fun p =>
    { e with cost := r.model.relaxation.relax p.state n.state merged e.decision e.cost }

/-- What the nodes at some places hand over. -/
def Request.handedOverAll (r : Request σ κ V) (parents : Array (Berth σ V))
    (layer : Array (Station σ V)) (merged : σ) (places : List Nat) : List (Edge V) :=
  places.flatMap fun j => (layer[j]?.map (r.handedOver parents merged)).getD []

/-- The state that the nodes at some places are merged to. -/
def Request.mergedState (r : Request σ κ V) (layer : Array (Station σ V)) (places : List Nat) : σ :=
  r.model.relaxation.merge (places.filterMap fun j => layer[j]?.map (·.state))

variable [BEq σ] [Value V]

/-- The edges of a layer below one that was expanded on a variable.  `kept` are the nodes of
the upper layer that take part, and `absorbed` those of the lower one that were merged. -/
structure Redirects (r : Request σ κ V) (x : Nat) (parents : Array (Berth σ V))
    (layer : Array (Station σ V)) (kept absorbed : List Nat) : Prop where
  mem_kept : kept.Nodup ∧ ∀ j : Nat, j ∈ kept ↔ ∃ p, parents[j]? = some p ∧ p.fate = .alive
  mem_absorbed : absorbed.Nodup ∧
    ∀ j : Nat, j ∈ absorbed ↔ ∃ n, layer[j]? = some n ∧ n.fate = .deleted
  /-- A node that is not merged has the edges of the transitions to its state. -/
  own : ∀ n ∈ layer, n.merged = false →
    n.inbound = (Transition.edgesTo (r.transitions x parents kept) n.state).reverse
  /-- The merged node has those too, unless it is new, and then what was handed over. -/
  merged : ∀ n ∈ layer, n.merged = true → n.fate = .alive ∧
    (n.state == r.mergedState layer absorbed) = true ∧ ∃ own,
      (own = [] ∨ own = Transition.edgesTo (r.transitions x parents kept) n.state) ∧
      n.inbound = (own ++ r.handedOverAll parents layer (r.mergedState layer absorbed)
        absorbed).reverse
  sole : ∀ (i j : Nat) m n, layer[i]? = some m → layer[j]? = some n → m.merged = true →
    n.merged = true → i = j
  /-- There is a merged node if nodes were absorbed. -/
  host : absorbed ≠ [] → ∃ m ∈ layer, m.merged = true
  /-- Each transition has its node. -/
  reached : ∀ t ∈ r.transitions x parents kept, ∃ n ∈ layer, (n.state == t.state) = true ∧
    t.edge ∈ n.inbound

/-- What becomes of the transitions that are taken in a layer on a variable.  `merged` is the
state that nodes of the layer below were merged to. -/
structure Conveys (r : Request σ κ V) (x : Nat) (parents : Array (Berth σ V))
    (layer : Array (Station σ V)) (merged : σ) : Prop where
  /-- The edge of a transition enters a node of the state that it leads to.  If that one was
  absorbed, the edge enters the merged node as well, at its relaxed cost. -/
  none_lost : ∀ (j : Nat) p, parents[j]? = some p → p.fate = .alive →
    ¬p.longest + p.roughBound ≤ r.toBeat → ∀ d ∈ r.model.problem.domain x p.state,
      ∃ n ∈ layer, (n.state == r.model.problem.transition 0 p.state d) = true ∧
        ⟨j, d, r.model.problem.cost p.state d⟩ ∈ n.inbound ∧
        (n.fate = .alive ∨ n.fate = .cached ∨ n.fate = .dominated ∨
          n.fate = .deleted ∧ ∃ m ∈ layer, m.merged = true ∧ m.fate = .alive ∧
            ⟨j, d, r.model.relaxation.relax p.state n.state merged d
              (r.model.problem.cost p.state d)⟩ ∈ m.inbound)
  /-- An edge of a node that is alive is that of a transition to its state or, if the node is
  merged, to the state of one that was absorbed. -/
  none_added : ∀ n ∈ layer, n.fate = .alive → ∀ e ∈ n.inbound, ∃ p,
    parents[e.source]? = some p ∧ p.fate = .alive ∧ ¬p.longest + p.roughBound ≤ r.toBeat ∧
      e.decision ∈ r.model.problem.domain x p.state ∧
      ((n.state == r.model.problem.transition 0 p.state e.decision) = true ∧
          e.cost = r.model.problem.cost p.state e.decision ∨
        n.merged = true ∧ ∃ m ∈ layer, m.fate = .deleted ∧
          (m.state == r.model.problem.transition 0 p.state e.decision) = true ∧
          e.cost = r.model.relaxation.relax p.state m.state merged e.decision
            (r.model.problem.cost p.state e.decision))
  sole : ∀ (i j : Nat) m n, layer[i]? = some m → layer[j]? = some n → m.merged = true →
    n.merged = true → i = j
  state : ∀ m ∈ layer, m.merged = true → (m.state == merged) = true

variable {r : Request σ κ V} {x : Nat} {parents : Array (Berth σ V)}
  {layer : Array (Station σ V)} {kept absorbed : List Nat}

omit [BEq σ] [Value V] in
theorem Request.mem_handedOverAll {merged : σ} {places : List Nat} {e : Edge V} :
    e ∈ r.handedOverAll parents layer merged places ↔ ∃ j ∈ places, ∃ n, layer[j]? = some n ∧
      ∃ f ∈ n.inbound, ∃ p, parents[f.source]? = some p ∧ e = { f with
        cost := r.model.relaxation.relax p.state n.state merged f.decision f.cost } := by
  unfold handedOverAll
  rw [List.mem_flatMap]
  refine exists_congr fun j => and_congr_right fun _ => ?_
  cases layer[j]? with
  | none => simp
  | some n =>
    simp only [Option.map_some, Option.getD_some, handedOver, List.mem_filterMap,
      Option.map_eq_some_iff, Option.some.injEq, exists_eq_left']
    exact exists_congr fun f => and_congr_right fun _ => exists_congr fun p =>
      and_congr_right fun _ => eq_comm

theorem Redirects.none_lost (h : Redirects r x parents layer kept absorbed) {j : Nat}
    {p : Berth σ V} (hp : parents[j]? = some p) (halive : p.fate = .alive)
    (hgain : ¬p.longest + p.roughBound ≤ r.toBeat) {d : Decision}
    (hd : d ∈ r.model.problem.domain x p.state) :
    ∃ n ∈ layer, (n.state == r.model.problem.transition 0 p.state d) = true ∧
      ⟨j, d, r.model.problem.cost p.state d⟩ ∈ n.inbound ∧
      (n.fate = .alive ∨ n.fate = .cached ∨ n.fate = .dominated ∨
        n.fate = .deleted ∧ ∃ m ∈ layer, m.merged = true ∧ m.fate = .alive ∧
          ⟨j, d, r.model.relaxation.relax p.state n.state (r.mergedState layer absorbed) d
            (r.model.problem.cost p.state d)⟩ ∈ m.inbound) := by
  have hmem := Request.mem_transitions.2
    ⟨j, (h.mem_kept.2 j).2 ⟨p, hp, halive⟩, p, hp, hgain, d, hd, rfl⟩
  obtain ⟨n, hn, hstate, hedge⟩ := h.reached _ hmem
  refine ⟨n, hn, hstate, hedge, ?_⟩
  cases hfate : n.fate with
  | alive => exact .inl rfl
  | cached => exact .inr (.inl rfl)
  | dominated => exact .inr (.inr (.inl rfl))
  | deleted =>
    obtain ⟨k, hk⟩ := Array.mem_iff_getElem?.1 hn
    have habsorbed := (h.mem_absorbed.2 k).2 ⟨n, hk, hfate⟩
    obtain ⟨m, hm, hmerged⟩ := h.host (List.ne_nil_of_mem habsorbed)
    obtain ⟨hmalive, _, own, _, hinbound⟩ := h.merged m hm hmerged
    refine .inr (.inr (.inr ⟨rfl, m, hm, hmerged, hmalive, ?_⟩))
    rw [hinbound, List.mem_reverse]
    exact List.mem_append_right own
      (Request.mem_handedOverAll.2 ⟨k, habsorbed, n, hk, _, hedge, p, hp, rfl⟩)

variable [EquivBEq σ]

/-- An edge to a state is a decision that was taken in a node. -/
theorem Redirects.of_mem_edgesTo (h : Redirects r x parents layer kept absorbed) {state : σ}
    {e : Edge V} (he : e ∈ Transition.edgesTo (r.transitions x parents kept) state) :
    ∃ p, parents[e.source]? = some p ∧ p.fate = .alive ∧ ¬p.longest + p.roughBound ≤ r.toBeat ∧
      e.decision ∈ r.model.problem.domain x p.state ∧
      (state == r.model.problem.transition 0 p.state e.decision) = true ∧
      e.cost = r.model.problem.cost p.state e.decision := by
  obtain ⟨t, ht, hstate, rfl⟩ := Transition.mem_edgesTo.1 he
  obtain ⟨j, hj, p, hp, hgain, d, hd, rfl⟩ := Request.mem_transitions.1 ht
  obtain ⟨q, hq, halive⟩ := (h.mem_kept.2 j).1 hj
  obtain rfl := Option.some.inj (hp.symm.trans hq)
  exact ⟨p, hp, halive, hgain, hd, BEq.symm hstate, rfl⟩

theorem Redirects.none_added (h : Redirects r x parents layer kept absorbed) {n : Station σ V}
    (hn : n ∈ layer) {e : Edge V} (he : e ∈ n.inbound) :
    ∃ p, parents[e.source]? = some p ∧ p.fate = .alive ∧ ¬p.longest + p.roughBound ≤ r.toBeat ∧
      e.decision ∈ r.model.problem.domain x p.state ∧
      ((n.state == r.model.problem.transition 0 p.state e.decision) = true ∧
          e.cost = r.model.problem.cost p.state e.decision ∨
        n.merged = true ∧ ∃ m ∈ layer, m.fate = .deleted ∧
          (m.state == r.model.problem.transition 0 p.state e.decision) = true ∧
          e.cost = r.model.relaxation.relax p.state m.state (r.mergedState layer absorbed)
            e.decision (r.model.problem.cost p.state e.decision)) := by
  have hown : e ∈ Transition.edgesTo (r.transitions x parents kept) n.state ∨
      n.merged = true ∧ e ∈ r.handedOverAll parents layer (r.mergedState layer absorbed)
        absorbed := by
    cases hmerged : n.merged with
    | false =>
      rw [h.own n hn hmerged, List.mem_reverse] at he
      exact .inl he
    | true =>
      obtain ⟨_, _, own, hsame, hinbound⟩ := h.merged n hn hmerged
      rw [hinbound, List.mem_reverse, List.mem_append] at he
      refine he.imp (fun he => ?_) fun he => ⟨rfl, he⟩
      rcases hsame with rfl | rfl
      · cases he
      · exact he
  rcases hown with he | ⟨hmerged, he⟩
  · obtain ⟨p, hp, hpalive, hgain, hd, hstate, hcost⟩ := h.of_mem_edgesTo he
    exact ⟨p, hp, hpalive, hgain, hd, .inl ⟨hstate, hcost⟩⟩
  · -- The edge was handed over by a node that was absorbed, which is not merged itself.
    obtain ⟨k, hk, m, hm, f, hf, p, hp, rfl⟩ := Request.mem_handedOverAll.1 he
    obtain ⟨m', hm', hdeleted⟩ := (h.mem_absorbed.2 k).1 hk
    obtain rfl := Option.some.inj (hm.symm.trans hm')
    have hmem := Array.mem_of_getElem? hm
    have hplain : m.merged = false := by
      refine Bool.eq_false_iff.2 fun hmmerged => ?_
      have hmalive := (h.merged m hmem hmmerged).1
      rw [hdeleted] at hmalive
      cases hmalive
    rw [h.own m hmem hplain, List.mem_reverse] at hf
    obtain ⟨q, hq, hqalive, hgain, hd, hstate, hcost⟩ := h.of_mem_edgesTo hf
    obtain rfl := Option.some.inj (hp.symm.trans hq)
    exact ⟨p, hp, hqalive, hgain, hd, .inr ⟨hmerged, m, hmem, hdeleted, hstate, by rw [hcost]⟩⟩

/-- **No transition is lost, and none is added.** -/
theorem Redirects.conveys (h : Redirects r x parents layer kept absorbed) :
    Conveys r x parents layer (r.mergedState layer absorbed) where
  none_lost _ _ hp halive hgain _ hd := h.none_lost hp halive hgain hd
  none_added _ hn _ _ he := h.none_added hn he
  sole := h.sole
  state m hm hmerged := (h.merged m hm hmerged).2.1

end Redirects

/-! ### Completing a layer -/

section Completing

variable [BEq σ] {ts : List (Transition σ V)} {pending layer : Layer σ V}

/-- Nodes of the same descent, none of them deleted, collect the same transitions. -/
theorem Collects.congr (h : Collects ts pending)
    (hsame : layer.map Node.lineage = pending.map Node.lineage)
    (hfate : ∀ n ∈ layer, n.fate ≠ .deleted) : Collects ts layer := by
  have hstate : ∀ {m n : Node σ V}, m.lineage = n.lineage → m.state = n.state :=
    fun heq => congrArg Lineage.state heq
  refine ⟨fun i j a b ha hb heq => ?_, fun t ht => ?_, fun n hn => ⟨hfate n hn, ?_⟩,
    fun n hn => ?_⟩
  · obtain ⟨a', ha', hasame⟩ := Layer.getElem?_of_map_eq hsame ha
    obtain ⟨b', hb', hbsame⟩ := Layer.getElem?_of_map_eq hsame hb
    exact h.distinct i j a' b' ha' hb' (hstate hasame ▸ hstate hbsame ▸ heq)
  · obtain ⟨m, hm, heq⟩ := h.reached t ht
    obtain ⟨n, hn, hlineage⟩ := Layer.exists_lineage_eq hsame.symm hm
    exact ⟨n, hn, hstate hlineage ▸ heq⟩
  · obtain ⟨m, hm, hlineage⟩ := Layer.exists_lineage_eq hsame hn
    have hmerged : n.merged = m.merged := congrArg Lineage.merged hlineage
    rw [hmerged]
    exact (h.present m hm).2
  · obtain ⟨m, hm, hlineage⟩ := Layer.exists_lineage_eq hsame hn
    have hinbound : n.inbound = m.inbound := congrArg Lineage.inbound hlineage
    rw [hinbound, hstate hlineage]
    exact h.edges m hm

variable [BEq κ] [Value V] {r : Request σ κ V} {parents : Layer σ V} {above : List (Layer σ V)}
  {s : Selection σ κ V} {f : Fitted σ κ V} {x : Nat} {places : List Nat}

/-- Selection deletes nothing. -/
theorem Collects.select (h : Collects ts pending) (r : Request σ κ V) (session : Session σ κ V)
    (isRoot : Bool) : Collects ts (select r session isRoot pending).layer := by
  refine h.congr (select_lineage r session isRoot pending) fun n hn => ?_
  obtain ⟨m, hm, hsifts⟩ := (selected r session isRoot pending).of_mem hn
  cases hsifts with
  | kept => exact (h.present n hm).1
  | cached => exact nofun
  | dominated => exact nofun

omit [BEq κ]

omit [BEq σ] [Value V] in
/-- The nodes of a layer that take part in an expansion. -/
theorem Musters.berths (h : Musters layer places) : places.Nodup ∧
    ∀ j : Nat, j ∈ places ↔ ∃ p, (layer.map Node.berth)[j]? = some p ∧ p.fate = .alive := by
  refine ⟨h.nodup, fun j => ?_⟩
  rw [h.mem_iff, Array.getElem?_map]
  simp only [Option.map_eq_some_iff, exists_exists_and_eq_and]
  rfl

section Fused

variable {kept absorbed : List (Candidate σ V)} {merged : σ} {target : Nat} {start : Node σ V}

omit [BEq σ] [Value V] in
/-- What an absorbed node hands over, edge by edge. -/
theorem Request.map_handOver (r : Request σ κ V) (parents : Layer σ V) (merged : σ)
    (n : Node σ V) : (r.handOver parents merged n).map (·.2) =
      r.handedOver (parents.map Node.berth) merged n.station := by
  unfold handOver handedOver
  rw [List.map_filterMap]
  refine List.filterMap_congr fun e _ => ?_
  rw [Array.getElem?_map]
  cases parents[e.source]? <;> rfl

variable (hlists : Lists s.layer s.kept)
  (hfuses : Fuses r parents s kept absorbed merged target start f)
include hlists hfuses

/-- The absorbed nodes still tell what they handed over. -/
theorem Fuses.map_handOverAll : (r.handOverAll parents s.layer merged absorbed).map (·.2) =
    r.handedOverAll (parents.map Node.berth) (f.layer.map Node.station) merged
      (absorbed.map (·.position)) := by
  unfold Request.handOverAll Request.handedOverAll
  rw [List.map_flatMap, List.flatMap_map]
  refine List.flatMap_congr fun c hc => ?_
  obtain ⟨_, m, hm, hdeleted⟩ := hfuses.of_mem_absorbed hlists hc
  rw [hm, Array.getElem?_map, hdeleted]
  exact r.map_handOver parents merged m

/-- And what they were merged to. -/
theorem Fuses.mergedState_eq :
    r.mergedState (f.layer.map Node.station) (absorbed.map (·.position)) = merged := by
  rw [hfuses.merges, Request.mergedState, List.filterMap_map]
  refine congrArg r.model.relaxation.merge ?_
  rw [← List.filterMap_eq_map]
  refine List.filterMap_congr fun c hc => ?_
  obtain ⟨_, m, hm, hdeleted⟩ := hfuses.of_mem_absorbed hlists hc
  obtain ⟨n, hn, _, hstate⟩ := hlists.sound c (hfuses.perm.mem_iff.1 (List.mem_append_right _ hc))
  obtain rfl := Option.some.inj (hm.symm.trans hn)
  simp only [Function.comp_apply, Array.getElem?_map, hdeleted, Option.map_some, hstate]
  rfl

variable [EquivBEq σ]

variable {ts : List (Transition σ V)} (h : Collects ts s.layer)
include h

omit [EquivBEq σ] in
/-- A node that is not the merged one has its descent from before, when nothing was merged. -/
theorem Collects.other {j : Nat} {n : Node σ V} (hj : j ≠ target) (hn : f.layer[j]? = some n) :
    n.merged = false ∧ n.inbound = (Transition.edgesTo ts n.state).reverse := by
  obtain ⟨m, hm, hmark, _⟩ := hfuses.other hlists hj hn
  have hmem := Array.mem_of_getElem? hm
  rcases hmark with rfl | rfl
  · exact ⟨(h.present n hmem).2, h.edges n hmem⟩
  · exact ⟨(h.present m hmem).2, h.edges m hmem⟩

omit [EquivBEq σ] in
/-- What is deleted was absorbed. -/
theorem Collects.deleted_iff (j : Nat) : j ∈ absorbed.map (·.position) ↔
    ∃ n, f.layer[j]? = some n ∧ n.fate = .deleted := by
  constructor
  · intro hj
    obtain ⟨c, hc, rfl⟩ := List.mem_map.1 hj
    obtain ⟨_, m, _, hdeleted⟩ := hfuses.of_mem_absorbed hlists hc
    exact ⟨_, hdeleted, rfl⟩
  · rintro ⟨n, hn, hfate⟩
    rw [hfuses.layer] at hn
    split at hn
    · obtain rfl := Option.some.inj hn
      rw [Node.attachAll_fate, hfuses.alive] at hfate
      cases hfate
    · obtain ⟨m, hm, rfl⟩ := Option.map_eq_some_iff.1 hn
      refine Classical.byContradiction fun hnot => ?_
      rw [if_neg hnot] at hfate
      exact (h.present m (Array.mem_of_getElem? hm)).1 hfate

/-- **The merged node** has the edges of a kept node, or none, and those that were handed
over. -/
theorem Collects.host : ∃ m, f.layer[target]? = some m ∧ m.merged = true ∧ m.fate = .alive ∧
    (m.state == merged) = true ∧ ∃ own,
      (own = [] ∧ s.layer[target]? = none ∨ own = Transition.edgesTo ts m.state ∧
        ∃ n, s.layer[target]? = some n ∧ m.state = n.state) ∧
      m.inbound = (own ++ r.handedOverAll (parents.map Node.berth) (f.layer.map Node.station)
        merged (absorbed.map (·.position))).reverse := by
  have hlayer := hfuses.layer target
  rw [if_pos rfl] at hlayer
  have hinbound : ∀ own, start.inbound = own.reverse →
      (start.attachAll (r.handOverAll parents s.layer merged absorbed)).inbound =
        (own ++ r.handedOverAll (parents.map Node.berth) (f.layer.map Node.station) merged
          (absorbed.map (·.position))).reverse := by
    intro own hown
    rw [Node.attachAll_inbound, hown, hfuses.map_handOverAll hlists, List.reverse_append]
  refine ⟨_, hlayer, (Node.attachAll_merged start _).trans hfuses.marked,
    (Node.attachAll_fate start _).trans hfuses.alive, ?_⟩
  rw [Node.attachAll_state]
  rcases hfuses.place with ⟨c, hc, n, rfl, hsame, hn, rfl, _⟩ | ⟨_, hsize, hstate, hnil, _⟩
  · obtain ⟨n', hn', _, hstate⟩ :=
      hlists.sound c (hfuses.perm.mem_iff.1 (List.mem_append_left _ hc))
    obtain rfl := Option.some.inj (hn.symm.trans hn')
    exact ⟨hstate ▸ hsame, _, .inr ⟨rfl, n, hn, rfl⟩,
      hinbound _ (h.edges n (Array.mem_of_getElem? hn))⟩
  · exact ⟨hstate ▸ BEq.rfl, [], .inl ⟨rfl, Array.getElem?_eq_none hsize.ge⟩, hinbound [] hnil⟩

omit [EquivBEq σ] in
/-- No other node is marked as merged. -/
theorem Collects.eq_target {j : Nat} {n : Node σ V} (hn : f.layer[j]? = some n)
    (hmerged : n.merged = true) : j = target :=
  Classical.byContradiction fun hj =>
    Bool.false_ne_true ((h.other hlists hfuses hj hn).1.symm.trans hmerged)

/-- The edge of each transition is still there. -/
theorem Collects.reached_fused {t : Transition σ V} (ht : t ∈ ts) :
    ∃ n ∈ f.layer, (n.state == t.state) = true ∧ t.edge ∈ n.inbound := by
  obtain ⟨n, hn, hsame⟩ := h.reached t ht
  obtain ⟨j, hj⟩ := Array.mem_iff_getElem?.1 hn
  have hedge := Transition.mem_edgesTo.2 ⟨t, ht, BEq.symm hsame, rfl⟩
  by_cases hjt : j = target
  · -- The node became the merged one, with its own edges.
    subst hjt
    obtain ⟨m, hm, _, _, _, own, hown, hinbound⟩ := h.host hlists hfuses
    rcases hown with ⟨_, hnone⟩ | ⟨rfl, n', hn', heq⟩
    · cases hnone.symm.trans hj
    · obtain rfl := Option.some.inj (hn'.symm.trans hj)
      refine ⟨m, Array.mem_of_getElem? hm, by rwa [heq], ?_⟩
      rw [hinbound, List.mem_reverse, heq]
      exact List.mem_append_left _ hedge
  · have hnow := hfuses.layer j
    rw [if_neg hjt, hj, Option.map_some] at hnow
    rw [← List.mem_reverse, ← h.edges n hn] at hedge
    refine ⟨_, Array.mem_of_getElem? hnow, ?_⟩
    split
    · exact ⟨hsame, hedge⟩
    · exact ⟨hsame, hedge⟩

omit h

/-- **A merge** redirects the edges of the nodes that it absorbs. -/
theorem Collects.redirects_fused (hplaces : Musters parents places)
    (h : Collects (r.transitions x (parents.map Node.berth) places) s.layer) :
    Redirects r x (parents.map Node.berth) (f.layer.map Node.station) places
      (absorbed.map (·.position)) := by
  obtain ⟨m, hm, hmerged, halive, hstate, own, hown, hinbound⟩ := h.host hlists hfuses
  refine ⟨hplaces.berths, ⟨?_, fun j => ?_⟩, ?_, ?_, ?_, fun _ => ?_, fun t ht => ?_⟩
  · have hnodup := (hlists.perm hfuses.perm).nodup
    rw [List.map_append] at hnodup
    exact (List.nodup_append.1 hnodup).2.1
  · rw [h.deleted_iff hlists hfuses, Array.getElem?_map]
    simp only [Option.map_eq_some_iff, exists_exists_and_eq_and]
    rfl
  · rintro n hn hnmerged
    obtain ⟨m', hm', rfl⟩ := Array.mem_map.1 hn
    obtain ⟨j, hj⟩ := Array.mem_iff_getElem?.1 hm'
    refine (h.other hlists hfuses ?_ hj).2
    rintro rfl
    obtain rfl := Option.some.inj (hm.symm.trans hj)
    exact Bool.false_ne_true (hnmerged.symm.trans hmerged)
  · rintro n hn hnmerged
    obtain ⟨m', hm', rfl⟩ := Array.mem_map.1 hn
    obtain ⟨j, hj⟩ := Array.mem_iff_getElem?.1 hm'
    obtain rfl := h.eq_target hlists hfuses hj hnmerged
    obtain rfl := Option.some.inj (hm.symm.trans hj)
    rw [hfuses.mergedState_eq hlists]
    exact ⟨halive, hstate, own, hown.imp (·.1) (·.1), hinbound⟩
  · rintro i j a b hi hj ha hb
    rw [Array.getElem?_map, Option.map_eq_some_iff] at hi hj
    obtain ⟨a, hi, rfl⟩ := hi
    obtain ⟨b, hj, rfl⟩ := hj
    exact (h.eq_target hlists hfuses hi ha).trans (h.eq_target hlists hfuses hj hb).symm
  · exact ⟨_, Array.mem_map_of_mem (Array.mem_of_getElem? hm), hmerged⟩
  · obtain ⟨n, hn, hreached⟩ := h.reached_fused hlists hfuses ht
    exact ⟨n.station, Array.mem_map_of_mem hn, hreached⟩

end Fused

/-- A layer in which nothing was merged. -/
theorem Collects.redirects_whole [EquivBEq σ] (hplaces : Musters parents places)
    (h : Collects (r.transitions x (parents.map Node.berth) places) layer) :
    Redirects r x (parents.map Node.berth) (layer.map Node.station) places [] := by
  have hplain : ∀ n ∈ layer.map Node.station, n.fate ≠ .deleted ∧ n.merged = false := by
    rintro n hn
    obtain ⟨m, hm, rfl⟩ := Array.mem_map.1 hn
    exact h.present m hm
  refine ⟨hplaces.berths, ⟨.nil, fun j => ?_⟩, ?_, ?_, ?_, fun hne => absurd rfl hne,
    fun t ht => ?_⟩
  · refine iff_of_false List.not_mem_nil ?_
    rintro ⟨n, hn, hdeleted⟩
    exact (hplain n (Array.mem_of_getElem? hn)).1 hdeleted
  · rintro n hn _
    obtain ⟨m, hm, rfl⟩ := Array.mem_map.1 hn
    exact h.edges m hm
  · intro n hn hmerged
    exact absurd ((hplain n hn).2.symm.trans hmerged) Bool.false_ne_true
  · intro i _ m _ hi _ hmerged _
    exact absurd ((hplain m (Array.mem_of_getElem? hi)).2.symm.trans hmerged) Bool.false_ne_true
  · obtain ⟨n, hn, hsame⟩ := h.reached t ht
    refine ⟨_, Array.mem_map_of_mem hn, hsame, ?_⟩
    show t.edge ∈ n.inbound
    rw [h.edges n hn, List.mem_reverse]
    exact Transition.mem_edgesTo.2 ⟨t, ht, BEq.symm hsame, rfl⟩

/-- **Completing a layer of a relaxed diagram** whose nodes were just reached. -/
theorem Collects.redirects [EquivBEq σ] (hkind : r.kind = .relaxed)
    (hplaces : Musters parents places)
    (h : Collects (r.transitions x (parents.map Node.berth) places) s.layer)
    (hlists : Lists s.layer s.kept) (hfits : Fits r (parents :: above) s f) :
    ∃ absorbed, Redirects r x (parents.map Node.berth) (f.layer.map Node.station) places
      absorbed := by
  cases hfits with
  | whole _ hlayer _ => exact ⟨[], by rw [hlayer]; exact h.redirects_whole hplaces⟩
  | dropped hrestricted _ _ _ _ => cases hkind.symm.trans hrestricted
  | fused _ _ _ hfuses => exact ⟨_, h.redirects_fused hlists hfuses hplaces⟩

end Completing

/-! ### Rounds -/

section Rounds

variable [BEq σ] [Hashable σ] [BEq κ] [Value V] {audit : Audit σ κ V} {r : Request σ κ V}
  {start session : Session σ κ V} {free : Variables} {d : Diagram σ V}

/-- A layer that was completed in a round and expanded on the variable that was picked in it,
and the layer below. -/
structure Relays (audit : Audit σ κ V) (r : Request σ κ V) (start session : Session σ κ V)
    (free : Variables) (d : Diagram σ V) (x : Nat) (parents : Array (Berth σ V))
    (layer : Array (Station σ V)) : Prop where
  rounds : Rounds audit r start session free d
  same : parents.map Berth.toStation = (settleLayer audit r session d).layer.map Node.station
  picked : (r.branching free (d.pending.toList.map (·.state))).map (·.val) = some x
  bounded : ∀ p ∈ parents, p.fate = .alive →
    p.roughBound = r.model.relaxation.upperBound p.state free
  redirects : ∃ kept absorbed, Redirects r x parents layer kept absorbed

/-- Layers, deepest first, each of which was completed below the next one. -/
def Relayed (audit : Audit σ κ V) (r : Request σ κ V) (start : Session σ κ V)
    (layers : List (Array (Berth σ V))) : Prop :=
  ∀ (i : Nat) parents layer, layers.reverse[i]? = some parents →
    layers.reverse[i + 1]? = some layer → ∃ session free d x, d.layers.length = i ∧
      Relays audit r start session free d x parents (layer.map Berth.toStation)

/-- One more layer. -/
theorem Relayed.cons {layer parents : Array (Berth σ V)} {above : List (Array (Berth σ V))}
    {x : Nat}
    (h : Relayed audit r start (parents :: above)) (hlength : d.layers.length = above.length)
    (hrelays : Relays audit r start session free d x parents (layer.map Berth.toStation)) :
    Relayed audit r start (layer :: parents :: above) := by
  intro i p l hp hl
  rw [List.reverse_cons, List.getElem?_append] at hp hl
  have hlong : (parents :: above).reverse.length = above.length + 1 := by simp
  by_cases hi : i + 1 < (parents :: above).reverse.length
  · rw [if_pos hi] at hl
    rw [if_pos (by omega)] at hp
    exact h i p l hp hl
  · -- The last layer but one is the one that the new layer is below.
    rw [if_neg hi, List.getElem?_singleton] at hl
    split at hl
    · obtain rfl := Option.some.inj hl
      obtain rfl : i = above.length := by omega
      have hlast : (parents :: above).reverse[above.length]? = some parents := by simp
      rw [if_pos (by omega), hlast] at hp
      obtain rfl := Option.some.inj hp
      exact ⟨session, free, d, x, hlength, hrelays⟩
    · cases hl

variable [EquivBEq σ] [LawfulHashable σ]

/-- **The layer that a round completes** is the one below the layer that was expanded before
it. -/
theorem Rounds.relays (hpure : r.model.problem.Pure) (hkind : r.kind = .relaxed)
    (h : Rounds audit r start session free d) {parents : Layer σ V} {above : List (Layer σ V)}
    (hlayers : d.layers = parents :: above) :
    ∃ session' free' d' x, d'.layers.length = above.length ∧
      Relays audit r start session' free' d' x (parents.map Node.berth)
        ((settleLayer audit r session d).layer.map Node.station) := by
  cases h with
  | root => cases hlayers
  | @next session' free' d' f v x h hf hfault hkept hv hx hxfault =>
    obtain ⟨rfl, rfl⟩ := List.cons.inj hlayers
    have hmusters : Musters f.layer f.kept := hf ▸ settleLayer_musters audit r session' d'
    have hstations : x.layer.map Node.station = f.layer.map Node.station :=
      hx ▸ f.station_expansion r free' d'.layers.length v
    have hunfolded : Unfolded r v free' f.layer f.kept x :=
      hx ▸ f.expansion_unfolded hpure hmusters.nodup
        (fun j hj => ((hmusters.mem_iff j).1 hj).imp fun _ hn => hn.1) free' _
    have hplaces : Musters x.layer f.kept := hmusters.congr hstations
    have hcollects : Collects (r.transitions v (x.layer.map Node.berth) f.kept) x.pending := by
      rw [hunfolded.pending]
      refine collects_foldl _ fun t ht => ?_
      obtain ⟨j, hj, p, hp, _, d, _, rfl⟩ := Request.mem_transitions.1 ht
      exact ((hplaces.mem_iff j).1 hj).imp fun _ hn => hn.1
    have hselected := selected r x.session false x.pending
    refine ⟨session', free', d', v, rfl, h, ?_, by rw [hv]; rfl, ?_, ?_⟩
    · rw [Array.map_map, hf]
      exact hstations
    · intro p hp halive
      obtain ⟨j, hj⟩ := Array.mem_iff_getElem?.1 hp
      rw [Array.getElem?_map, Option.map_eq_some_iff] at hj
      obtain ⟨n, hn, rfl⟩ := hj
      have hbounded := hunfolded.bounded j
      simp only [hn, if_pos ((hplaces.mem_iff j).2 ⟨n, hn, halive⟩)] at hbounded
      obtain ⟨m, _, rfl⟩ := Option.map_eq_some_iff.1 hbounded.symm
      rfl
    · exact ⟨f.kept, (hcollects.select r x.session false).redirects hkind hplaces hselected.lists
        (fit_fits audit r _ _ hselected.lists)⟩

/-- **Every layer redirects what was taken in the one above**, in every round. -/
theorem Rounds.relayed (hpure : r.model.problem.Pure) (hkind : r.kind = .relaxed)
    (h : Rounds audit r start session free d) {layer : Layer σ V}
    (hlayer : layer.map Node.station = (settleLayer audit r session d).layer.map Node.station) :
    Relayed audit r start ((layer :: d.layers).map (·.map Node.berth)) := by
  induction h generalizing layer with
  | root =>
    intro i _ _ _ hl
    have hlt := (List.getElem?_eq_some_iff.1 hl).1
    simp [Diagram.rooted, Diagram.empty] at hlt
  | @next session free d f v x h hf hfault hkept hv hx hxfault ih =>
    have hstations : x.layer.map Node.station =
        (settleLayer audit r session d).layer.map Node.station := by
      rw [hf, ← hx]
      exact f.station_expansion r free d.layers.length v
    have hnext := h.next hf hfault hkept hv hx hxfault
    obtain ⟨session', free', d', x', hlength, hrelays⟩ := hnext.relays hpure hkind rfl
    have hmap : layer.map Node.station = (layer.map Node.berth).map Berth.toStation := by
      rw [Array.map_map]
      rfl
    rw [← hlayer, hmap] at hrelays
    exact (ih hstations).cons (hlength.trans (List.length_map _).symm) hrelays

end Rounds

/-! ### Compiling -/

section Compile

variable [BEq σ] [Hashable σ] [BEq κ] [Value V] [EquivBEq σ] [LawfulHashable σ]

/-- **A relaxed diagram redirects transitions and loses none**, whatever the model.  Each layer
was completed in a round.  It is the deepest one, and then none of its nodes is alive or no
variable was picked; or it was expanded on the variable that was picked.  Then what is taken
in those of its nodes that are alive, and whose bounds leave something to gain, is conveyed to
the layer below: no transition is lost, and none is added. -/
theorem Request.compile_redirects (r : Request σ κ V) (hkind : r.kind = .relaxed)
    (hpure : r.model.problem.Pure) (session : Session σ κ V) {report : Report V}
    (hok : (r.compile session).outcome = .ok report) {i : Nat} {parents : Layer σ V}
    (hparents : (r.compile session).diagram.layers.reverse[i]? = some parents) :
    ∃ mid free d, Rounds r.audit r session mid free d ∧ d.layers.length = i ∧
      parents.map Node.station = (settleLayer r.audit r mid d).layer.map Node.station ∧
      ((r.compile session).diagram.layers.reverse[i + 1]? = none ∧
          ((∀ p ∈ parents, p.fate ≠ .alive) ∨
            r.branching free (d.pending.toList.map (·.state)) = none) ∨
        ∃ x layer, r.branching free (d.pending.toList.map (·.state)) = some x ∧
          (∀ p ∈ parents, p.fate = .alive →
            p.roughBound = r.model.relaxation.upperBound p.state free) ∧
          (r.compile session).diagram.layers.reverse[i + 1]? = some layer ∧ ∃ kept absorbed,
            Redirects r x (parents.map Node.berth) (layer.map Node.station) kept absorbed ∧
            Conveys r x (parents.map Node.berth) (layer.map Node.station)
              (r.mergedState (layer.map Node.station) absorbed)) := by
  obtain ⟨hfault, heq⟩ := Request.compileWith_of_ok hok
  obtain ⟨last, free, d, hrounds, hlast⟩ := r.unroll_lastRound hfault
  have hsame : (r.compile session).diagram.layers.map (·.map Node.berth) =
      ((settleLayer r.audit r last d).layer :: d.layers).map (·.map Node.berth) := by
    unfold compile
    rw [heq, hlast.eq]
    exact berth_outlasts.evaluate r _ _
  have hrelayed : Relayed r.audit r session ((r.compile session).diagram.layers.map
      (·.map Node.berth)) := hsame ▸ hrounds.relayed hpure hkind rfl
  cases hnext : (r.compile session).diagram.layers.reverse[i + 1]? with
  | some layer =>
    obtain ⟨mid, free, d, x, hi, hrelays⟩ := hrelayed i (parents.map Node.berth)
      (layer.map Node.berth) (by rw [← List.map_reverse, List.getElem?_map, hparents]; rfl)
      (by rw [← List.map_reverse, List.getElem?_map, hnext]; rfl)
    obtain ⟨y, hy, rfl⟩ := Option.map_eq_some_iff.1 hrelays.picked
    obtain ⟨kept, absorbed, hredirects⟩ := hrelays.redirects
    rw [Array.map_map] at hredirects
    refine ⟨mid, free, d, hrelays.rounds, hi, ?_, .inr ⟨y, layer, hy, fun p hp halive => ?_, rfl,
      kept, absorbed, hredirects, hredirects.conveys⟩⟩
    · rw [← hrelays.same, Array.map_map]
      rfl
    · exact hrelays.bounded p.berth (Array.mem_map_of_mem hp) halive
  | none =>
    have hlength := congrArg List.length hsame
    have hlt := (List.getElem?_eq_some_iff.1 hparents).1
    rw [List.getElem?_eq_none_iff] at hnext
    simp only [List.length_map, List.length_cons, List.length_reverse] at hlength hlt hnext
    obtain rfl : i = d.layers.length := by omega
    have htop : ((settleLayer r.audit r last d).layer :: d.layers).reverse[d.layers.length]? =
        some (settleLayer r.audit r last d).layer := by simp
    have hget := congrArg (fun l => l.reverse[d.layers.length]?) hsame
    simp only [← List.map_reverse, List.getElem?_map, hparents, htop, Option.map_some,
      Option.some.injEq] at hget
    have hstations := station_of_berth hget
    refine ⟨last, free, d, hrounds, rfl, hstations, .inl ⟨rfl, hlast.done.imp (fun hkept => ?_) id⟩⟩
    intro p hp halive
    obtain ⟨j, hj⟩ := Array.mem_iff_getElem?.1 hp
    have hmem := (((settleLayer_musters r.audit r last d).congr hstations).mem_iff j).2
      ⟨p, hj, halive⟩
    rw [hkept] at hmem
    cases hmem

/-- All that two picks reach is redirected to one node. -/
theorem Request.compile_redirects_twoPicks : ∃ parents layer x kept absorbed,
    ((twoPicksRequest .relaxed none).compile .fresh).diagram.layers.reverse[1]? = some parents ∧
    ((twoPicksRequest .relaxed none).compile .fresh).diagram.layers.reverse[2]? = some layer ∧
    absorbed ≠ [] ∧
    Redirects (twoPicksRequest .relaxed none) x (parents.map Node.berth)
      (layer.map Node.station) kept absorbed ∧
    Conveys (twoPicksRequest .relaxed none) x (parents.map Node.berth) (layer.map Node.station)
      ((twoPicksRequest .relaxed none).mergedState (layer.map Node.station) absorbed) := by
  obtain ⟨report, hok⟩ := Request.exists_compile_ok (twoPicksRequest_regular .relaxed none)
    (fun _ _ => (twoPicks_lawful .maximize false none).focused) (fun _ h => absurd rfl h) .fresh
  have hupper : (((twoPicksRequest .relaxed none).compile .fresh).diagram.layers.reverse[1]?).map
      Array.size = some 2 := by
    decide +kernel
  have hlower : (((twoPicksRequest .relaxed none).compile .fresh).diagram.layers.reverse[2]?).map
      (fun layer => layer[0]?.map (·.fate)) = some (some .deleted) := by
    decide +kernel
  obtain ⟨parents, hparents, _⟩ := Option.map_eq_some_iff.1 hupper
  obtain ⟨layer, hlayer, hfate⟩ := Option.map_eq_some_iff.1 hlower
  obtain ⟨n, hn, hdeleted⟩ := Option.map_eq_some_iff.1 hfate
  obtain ⟨mid, free, d, _, _, _, ⟨hnone, _⟩ | ⟨x, layer', _, _, hlayer', kept, absorbed,
    hredirects, hconveys⟩⟩ := (twoPicksRequest .relaxed none).compile_redirects rfl
      (twoPicksRequest_regular .relaxed none).isPure .fresh hok hparents
  · cases hnone.symm.trans hlayer
  · obtain rfl := Option.some.inj (hlayer.symm.trans hlayer')
    refine ⟨parents, layer, x, kept, absorbed, hparents, hlayer, ?_, hredirects, hconveys⟩
    refine List.ne_nil_of_mem ((hredirects.mem_absorbed.2 0).2 ⟨n.station, ?_, hdeleted⟩)
    rw [Array.getElem?_map, hn, Option.map_some]

end Compile
end DiagramSearch
