/-
# How a compiled diagram is arranged

A node is fed by the layer above: all of its edges start there, its value is the greatest
that they lead to, and it is exact if all that feeds it is.  Reaching a state, sharing its
node, merging nodes into a new one or into one that is kept, and marking nodes as dropped
keep that together, so it holds of all layers of a diagram, whatever the model.

* `Lineage.Fed.attach`, `Lineage.Fed.attachAll`: one more edge, and many;
* `Hanging.fits`, `Fitted.hanging`: completing and expanding a layer, as far as what feeds
  its nodes is concerned, also where transitions are not pure;
* `Sprouts.tier`: **completing a layer** of nodes that were just reached;
* `Fitted.sprouts`: **expanding it**;
* `Request.compile_arranged`: **what holds of a compiled diagram.**
-/

import DiagramSearch.Proofs.Complying
import DiagramSearch.Proofs.Queueing
import DiagramSearch.Proofs.Rebounding
import DiagramSearch.Proofs.Stacking
import DiagramSearch.Diagram.Drawing

namespace DiagramSearch

open Diagram

variable {σ κ V : Type}

/-! ### Nodes and the layer above them -/

section Fed

variable [Value V] {parents : Array (Station σ V)} {n parent : Node σ V} {e : Edge V}

/-- The values that the edges of a node lead to are all defined. -/
def Lineage.Summed (parents : Array (Station σ V)) (n : Lineage σ V) : Prop :=
  ∀ e ∈ n.inbound, ∀ p, parents[e.source]? = some p → p.longest + e.cost ≤ p.longest + e.cost

/-- The value of a node is the greatest that its edges lead to, and its best edge leads to
it. -/
structure Lineage.Tops (parents : Array (Station σ V)) (n : Lineage σ V) : Prop where
  le : ∀ e ∈ n.inbound, ∀ p, parents[e.source]? = some p → p.longest + e.cost ≤ n.longest
  attained : ∃ e ∈ n.inbound, ∃ p, parents[e.source]? = some p ∧ n.edge = some e ∧
    n.longest = p.longest + e.cost

/-- A node whose edges start from nodes of a layer that are alive. -/
structure Lineage.Fed (parents : Array (Station σ V)) (n : Lineage σ V) : Prop where
  alive : ∀ e ∈ n.inbound, ∃ p, parents[e.source]? = some p ∧ p.fate = .alive
  exact : n.exact = true ↔ n.merged = false ∧
    ∀ e ∈ n.inbound, ∀ p, parents[e.source]? = some p → p.exact = true
  tops : n.inbound ≠ [] → n.Summed parents → n.Tops parents

/-- A node that is marked as merged has its edges as before. -/
theorem Lineage.Fed.mark (h : n.lineage.Fed parents) :
    ({ n with merged := true, exact := false } : Node σ V).lineage.Fed parents where
  alive := h.alive
  exact := ⟨nofun, fun hmerged => nomatch hmerged.1⟩
  tops hne hsummed :=
    have htops := h.tops hne hsummed
    ⟨htops.le, htops.attained⟩

variable [Value.Floored V]

section Attach

variable {p : Station σ V} (hp : parents[e.source]? = some p)
  (hlongest : parent.longest = p.longest)

include hp hlongest

/-- An edge that does not fall short of the value of a node becomes its best one. -/
theorem Lineage.Tops.of_le (h : n.inbound ≠ [] → n.lineage.Tops parents)
    (hdef : p.longest + e.cost ≤ p.longest + e.cost) (hle : n.longest ≤ parent.longest + e.cost) :
    (n.attach parent e).lineage.Tops parents := by
  have hinbound : (n.attach parent e).lineage.inbound = e :: n.lineage.inbound :=
    n.attach_inbound parent e
  have hvalue : (n.attach parent e).lineage.longest = p.longest + e.cost := by
    show (n.attach parent e).longest = _
    rw [← hlongest]
    simp only [Node.attach, if_pos hle]
  constructor
  · rw [hinbound, hvalue]
    intro f hf q hq
    rcases List.mem_cons.1 hf with rfl | hf
    · obtain rfl := Option.some.inj (hp.symm.trans hq)
      exact hdef
    · exact Value.Ranked.le_trans ((h (List.ne_nil_of_mem hf)).le f hf q hq) (hlongest ▸ hle)
  · refine ⟨e, by rw [hinbound]; exact List.mem_cons_self, p, hp, ?_, hvalue⟩
    exact Node.bestEdge?_attach_of_le n parent e hle

/-- An edge that falls short of it leaves the best one what it is. -/
theorem Lineage.Tops.of_not_le (h : n.lineage.Tops parents) (hsummed : n.lineage.Summed parents)
    (hdef : p.longest + e.cost ≤ p.longest + e.cost)
    (hle : ¬n.longest ≤ parent.longest + e.cost) : (n.attach parent e).lineage.Tops parents := by
  obtain ⟨hbelow, f, hf, q, hq, hedge, hattained⟩ := h
  have hinbound : (n.attach parent e).lineage.inbound = e :: n.lineage.inbound :=
    n.attach_inbound parent e
  have hvalue : (n.attach parent e).lineage.longest = n.lineage.longest := by
    show (n.attach parent e).longest = n.longest
    simp only [Node.attach, if_neg hle]
  have hndef : n.lineage.longest ≤ n.lineage.longest := by
    rw [hattained]
    exact hsummed f hf q hq
  constructor
  · rw [hinbound, hvalue]
    intro g hg q' hq'
    rcases List.mem_cons.1 hg with rfl | hg
    · obtain rfl := Option.some.inj (hp.symm.trans hq')
      rw [← hlongest] at hdef ⊢
      exact Value.Floored.le_of_not_le hndef hdef hle
    · exact hbelow g hg q' hq'
  · refine ⟨f, by rw [hinbound]; exact List.mem_cons_of_mem e hf, q, hq, ?_,
      hvalue.trans hattained⟩
    exact Node.bestEdge?_attach_of_not_le n parent e hedge hle

end Attach

omit [Value.Floored V] in
/-- A node is as exact as its edges, the new one among them. -/
theorem Lineage.Fed.exact_attach {p : Station σ V} (h : n.lineage.Fed parents)
    (hp : parents[e.source]? = some p) (hexact : parent.exact = p.exact) :
    (n.attach parent e).exact = true ↔ (n.attach parent e).merged = false ∧
      ∀ f ∈ e :: n.lineage.inbound, ∀ q, parents[f.source]? = some q → q.exact = true := by
  rw [Node.attach_exact, Node.attach_merged, Bool.and_eq_true, hexact, List.forall_mem_cons, hp]
  change p.exact = true ∧ n.lineage.exact = true ↔ n.lineage.merged = false ∧ _
  rw [h.exact]
  constructor
  · rintro ⟨hpexact, hmerged, hothers⟩
    refine ⟨hmerged, fun q hq => ?_, hothers⟩
    obtain rfl := Option.some.inj hq
    exact hpexact
  · rintro ⟨hmerged, hfirst, hothers⟩
    exact ⟨hfirst p rfl, hmerged, hothers⟩

/-- **One more edge**: it leads to the value of the node, or falls short of it. -/
theorem Lineage.Fed.attach {p : Station σ V} (h : n.lineage.Fed parents)
    (hstart : n.inbound = [] → p.longest + e.cost ≤ p.longest + e.cost →
      n.longest ≤ p.longest + e.cost)
    (hp : parents[e.source]? = some p) (halive : p.fate = .alive)
    (hsame : parent.lineage = p.toLineage) : (n.attach parent e).lineage.Fed parents := by
  have hlongest : parent.longest = p.longest := congrArg Lineage.longest hsame
  have hinbound : (n.attach parent e).lineage.inbound = e :: n.lineage.inbound :=
    n.attach_inbound parent e
  refine ⟨?_, ?_, fun _ hsummed => ?_⟩
  · rw [hinbound]
    rintro f hf
    rcases List.mem_cons.1 hf with rfl | hf
    · exact ⟨p, hp, halive⟩
    · exact h.alive f hf
  · rw [hinbound]
    exact h.exact_attach hp (congrArg Lineage.exact hsame)
  · have hdef : p.longest + e.cost ≤ p.longest + e.cost :=
      hsummed e (by rw [hinbound]; exact List.mem_cons_self) p hp
    have hothers : n.lineage.Summed parents := fun f hf =>
      hsummed f (by rw [hinbound]; exact List.mem_cons_of_mem e hf)
    by_cases hle : n.longest ≤ parent.longest + e.cost
    · exact .of_le hp hlongest (fun hne => h.tops hne hothers) hdef hle
    · -- The edge falls short, so it is not the first one.
      have hne : n.lineage.inbound ≠ [] := fun hnil => hle (hlongest ▸ hstart hnil hdef)
      exact .of_not_le hp hlongest (h.tops hne hothers) hothers hdef hle

/-- **Many more edges**, of which the first one finds a value that it does not fall short
of. -/
theorem Lineage.Fed.attachAll {es : List (Node σ V × Edge V)} (h : n.lineage.Fed parents)
    (hstart : n.inbound = [] → ∀ v : V, v ≤ v → n.longest ≤ v)
    (hes : ∀ pe ∈ es, parents[pe.2.source]? = some pe.1.station ∧ pe.1.fate = .alive) :
    (n.attachAll es).lineage.Fed parents := by
  induction es generalizing n with
  | nil => exact h
  | cons pe es ih =>
    obtain ⟨⟨hp, halive⟩, hes⟩ := List.forall_mem_cons.1 hes
    refine ih (h.attach (fun hnil => hstart hnil _) hp halive rfl) (fun hnil => ?_) hes
    rw [Node.attach_inbound] at hnil
    cases hnil

/-- **A first edge.** -/
theorem Lineage.Fed.created {p : Station σ V} (state : σ) (depth : Nat) (bound : V)
    (hp : parents[e.source]? = some p) (halive : p.fate = .alive)
    (hsame : parent.lineage = p.toLineage) :
    ((Node.bare state depth (parent.longest + e.cost) bound parent.exact).attach parent
      e).lineage.Fed parents := by
  -- A node no edge leads to yet counts as exact.
  have hexact : (Node.bare state depth (parent.longest + e.cost) bound parent.exact).attach parent
      e = (Node.bare state depth (parent.longest + e.cost) bound true).attach parent e := by
    simp only [Node.attach, Node.bare, Bool.and_self, Bool.and_true]
  have hfed : (Node.bare state depth (parent.longest + e.cost) bound true).lineage.Fed parents :=
    ⟨fun _ hf => absurd hf List.not_mem_nil,
      ⟨fun _ => ⟨rfl, fun _ hf => absurd hf List.not_mem_nil⟩, fun _ => rfl⟩,
      fun hne => absurd rfl hne⟩
  rw [hexact]
  refine hfed.attach (fun _ hdef => ?_) hp halive hsame
  have hlongest : parent.longest = p.longest := congrArg Lineage.longest hsame
  show parent.longest + e.cost ≤ p.longest + e.cost
  rw [hlongest]
  exact hdef

end Fed

/-! ### Nodes that hang below a layer -/

section Hanging

variable [Value V]

/-- A node that is reached from a layer, and from nothing else. -/
structure Lineage.Hangs (parents : Array (Station σ V)) (n : Lineage σ V) : Prop where
  reached : n.inbound ≠ []
  fed : n.Fed parents

/-- Nodes that hang below a layer. -/
def Hanging (parents : Array (Station σ V)) (layer : Array (Lineage σ V)) : Prop :=
  ∀ n ∈ layer, n.Hangs parents

variable {r : Request σ κ V} {parents : Layer σ V} {above : List (Layer σ V)}
  {s : Selection σ κ V} {f : Fitted σ κ V}

omit [Value V] in
/-- Marking nodes leaves their descent alone. -/
theorem lineage_of_marked {before after : Layer σ V} {p : Nat → Prop} [DecidablePred p]
    (hafter : ∀ j : Nat, after[j]? = before[j]?.map fun n =>
      if p j then { n with fate := .deleted } else n) :
    after.map Node.lineage = before.map Node.lineage := by
  refine Array.ext_getElem? fun j => ?_
  rw [Array.getElem?_map, Array.getElem?_map, hafter, Option.map_map]
  refine congrArg (Option.map · _) (funext fun n => ?_)
  show (if _ then _ else _ : Node σ V).lineage = _
  split <;> rfl

section Fused

variable {kept absorbed : List (Candidate σ V)} {merged : σ} {target : Nat} {start : Node σ V}

theorem Hanging.of_getElem? {layer : Layer σ V}
    (h : Hanging (parents.map Node.station) (layer.map Node.lineage)) {j : Nat} {n : Node σ V}
    (hn : layer[j]? = some n) : n.lineage.Hangs (parents.map Node.station) :=
  h _ (Array.mem_map_of_mem (Array.mem_of_getElem? hn))

/-- The edges that are handed over start from nodes that are alive. -/
theorem Hanging.handOver_alive
    (h : Hanging (parents.map Node.station) (s.layer.map Node.lineage))
    {pe : Node σ V × Edge V} (hpe : pe ∈ r.handOverAll parents s.layer merged absorbed) :
    (parents.map Node.station)[pe.2.source]? = some pe.1.station ∧ pe.1.fate = .alive := by
  obtain ⟨c, _, n, hn, hpe⟩ := Request.mem_handOverAll.1 hpe
  obtain ⟨e, he, hp, hcost⟩ := Request.mem_handOver.1 hpe
  obtain ⟨q, hq, halive⟩ := (h.of_getElem? hn).fed.alive e he
  have hstart : (parents.map Node.station)[e.source]? = some pe.1.station := by
    rw [Array.getElem?_map, hp, Option.map_some]
  obtain rfl := Option.some.inj (hstart.symm.trans hq)
  rw [hcost]
  exact ⟨hstart, halive⟩

variable [BEq σ] (h : Hanging (parents.map Node.station) (s.layer.map Node.lineage))
  (hlists : Lists s.layer s.kept) (hfuses : Fuses r parents s kept absorbed merged target start f)
include h hlists hfuses

/-- A merge brings edges together. -/
theorem Hanging.handOver_ne_nil : r.handOverAll parents s.layer merged absorbed ≠ [] := by
  obtain ⟨c, rest, hcons⟩ := List.exists_cons_of_ne_nil hfuses.absorbs
  have hc : c ∈ absorbed := hcons ▸ List.mem_cons_self
  obtain ⟨_, m, hm, _⟩ := hfuses.of_mem_absorbed hlists hc
  obtain ⟨hreached, hfed⟩ := h.of_getElem? hm
  obtain ⟨e, he⟩ := List.exists_mem_of_ne_nil _ hreached
  obtain ⟨q, hq, _⟩ := hfed.alive e he
  rw [Array.getElem?_map] at hq
  obtain ⟨p, hp, _⟩ := Option.map_eq_some_iff.1 hq
  exact List.ne_nil_of_mem (Request.mem_handOverAll.2
    ⟨c, hc, m, hm, Request.mem_handOver.2 ⟨e, he, hp, rfl⟩⟩)

/-- **The merged node is reached from the layer above**, by its own edges and by those that
it took over. -/
theorem Hanging.merged_hangs [Value.Floored V] :
    (start.attachAll (r.handOverAll parents s.layer merged absorbed)).lineage.Hangs
      (parents.map Node.station) := by
  have hne := h.handOver_ne_nil hlists hfuses
  have hstart : start.lineage.Fed (parents.map Node.station) ∧
      (start.inbound = [] → ∀ v : V, v ≤ v → start.longest ≤ v) := by
    rcases hfuses.place with ⟨_, _, n, _, _, hn, rfl, _⟩ |
      ⟨_, _, _, hinbound, _, hlongest, _, _⟩
    · obtain ⟨hreached, hfed⟩ := h.of_getElem? hn
      exact ⟨hfed.mark, fun hnil => absurd hnil hreached⟩
    · refine ⟨⟨fun e he => ?_, ?_, fun hreached => absurd hinbound hreached⟩, fun _ v hv => ?_⟩
      · have hmem : e ∈ start.inbound := he
        rw [hinbound] at hmem
        cases hmem
      · constructor
        · intro hexact
          exact absurd (hfuses.inexact.symm.trans hexact) Bool.false_ne_true
        · rintro ⟨hmerged, _⟩
          exact absurd (hmerged.symm.trans hfuses.marked) Bool.false_ne_true
      · rw [hlongest]
        exact Value.Floored.negInf_le hv
  obtain ⟨hfed, hlow⟩ := hstart
  refine ⟨?_, hfed.attachAll hlow fun _ => h.handOver_alive⟩
  show (start.attachAll _).inbound ≠ []
  rw [Node.attachAll_inbound]
  simp [hne]

omit h

/-- A node that is not the merged one descends as it did. -/
theorem Fuses.lineage_other {j : Nat} {n : Node σ V} (hj : j ≠ target)
    (hn : f.layer[j]? = some n) : (s.layer.map Node.lineage)[j]? = some n.lineage := by
  obtain ⟨m, hm, hmark, _⟩ := hfuses.other hlists hj hn
  rw [Array.getElem?_map, hm, Option.map_some]
  rcases hmark with rfl | rfl <;> rfl

theorem Fuses.mem_cases {n : Node σ V} (hn : n ∈ f.layer) :
    n = start.attachAll (r.handOverAll parents s.layer merged absorbed) ∨
      n.lineage ∈ s.layer.map Node.lineage := by
  obtain ⟨j, hj⟩ := Array.mem_iff_getElem?.1 hn
  by_cases hjt : j = target
  · rw [hfuses.layer, if_pos hjt] at hj
    exact .inl (Option.some.inj hj).symm
  · exact .inr (Array.mem_of_getElem? (hfuses.lineage_other hlists hjt hj))

end Fused

/-- **Completing a layer** leaves it hanging where it hung. -/
theorem Hanging.fits [BEq σ] [Value.Floored V]
    (h : Hanging ((above.headD #[]).map Node.station) (s.layer.map Node.lineage))
    (hlists : Lists s.layer s.kept) (hfits : Fits r above s f) :
    Hanging ((above.headD #[]).map Node.station) (f.layer.map Node.lineage) := by
  cases hfits with
  | whole _ hlayer _ => rwa [hlayer]
  | dropped _ _ _ hlayer _ => rwa [lineage_of_marked hlayer]
  | fused _ _ _ hfuses =>
    intro n hn
    obtain ⟨m, hm, rfl⟩ := Array.mem_map.1 hn
    rcases hfuses.mem_cases hlists hm with rfl | hsame
    · exact h.merged_hangs hlists hfuses
    · exact h _ hsame

/-- **Expanding a layer** reaches nodes that hang below it. -/
theorem Fitted.hanging [BEq σ] [Hashable σ] [BEq κ] [Value.Floored V] (f : Fitted σ κ V)
    (hkept : ∀ j ∈ f.kept, ∃ n, f.layer[j]? = some n ∧ n.fate = .alive) (free : Variables)
    (index x : Nat) :
    Hanging (f.layer.map Node.station)
      ((f.expansion r free index x).pending.map Node.lineage) := by
  have heach : ∀ n ∈ (f.expansion r free index x).pending,
      n.lineage.Hangs (f.layer.map Node.station) := by
    refine f.expansion_induction (P := fun pending => ∀ n ∈ pending,
      n.lineage.Hangs (f.layer.map Node.station)) free index
      (fun n hn => absurd hn (Array.not_mem_empty n)) ?_
    intro j hj q hq parent hsame d _ k pending hpending n hn
    obtain ⟨q', hq', halive⟩ := hkept j hj
    obtain rfl := Option.some.inj (hq.symm.trans hq')
    have hp : (f.layer.map Node.station)[j]? = some q.station := by
      rw [Array.getElem?_map, hq, Option.map_some]
    have hreached : ∀ (m : Node σ V) (e : Edge V), (m.attach parent e).lineage.inbound ≠ [] := by
      intro m e
      show (m.attach parent e).inbound ≠ []
      rw [Node.attach_inbound]
      exact List.cons_ne_nil _ _
    rcases Layer.mem_connect hn with hn | ⟨m, hm, _, rfl⟩ | rfl
    · exact hpending n hn
    · obtain ⟨hne, hfed⟩ := hpending m hm
      exact ⟨hreached _ _, hfed.attach (fun hnil => absurd hnil hne) hp halive hsame⟩
    · exact ⟨hreached _ _, Lineage.Fed.created _ _ _ hp halive hsame⟩
  intro n hn
  obtain ⟨m, hm, rfl⟩ := Array.mem_map.1 hn
  exact heach m hm

end Hanging

/-! ### Layers -/

section Tiers

variable [Value V] [BEq σ]

/-- An edge that leads to the state of a node, at the cost of its decision. -/
def Lineage.Owns (p : Problem σ V) (parents : Array (Station σ V)) (n : Lineage σ V)
    (e : Edge V) : Prop :=
  ∀ q, parents[e.source]? = some q →
    (n.state == p.transition 0 q.state e.decision) = true ∧ e.cost = p.cost q.state e.decision

/-- An edge that a merged node took over from one that it absorbed, at a relaxed cost.  The
absorbed one keeps its own. -/
def Lineage.Takes (r : Request σ κ V) (parents : Array (Station σ V)) (n : Lineage σ V)
    (m : Station σ V) (e : Edge V) : Prop :=
  m.fate = .deleted ∧ m.merged = false ∧ ∃ f ∈ m.inbound,
    e.source = f.source ∧ e.decision = f.decision ∧
      ∀ q, parents[f.source]? = some q → ∃ s, (n.state == s) = true ∧
        e.cost = r.model.relaxation.relax q.state m.state s f.decision f.cost

/-- A node of a given depth that is reached from a layer. -/
structure Lineage.Placed (r : Request σ κ V) (depth : Nat) (parents : Array (Station σ V))
    (n : Lineage σ V) : Prop where
  depth : n.depth = depth
  reached : n.inbound ≠ []
  fed : n.Fed parents
  owns : n.merged = false → ∀ e ∈ n.inbound, n.Owns r.model.problem parents e

/-- What was just reached from a layer: nodes with states of their own, none of them
merged. -/
structure Sprouts (r : Request σ κ V) (depth : Nat) (parents : Array (Station σ V))
    (layer : Array (Lineage σ V)) : Prop where
  placed : ∀ n ∈ layer, n.Placed r depth parents
  unmerged : ∀ n ∈ layer, n.merged = false
  distinct : ∀ (i j : Nat) m n, layer[i]? = some m → layer[j]? = some n →
    (m.state == n.state) = true → i = j

/-- A layer that was completed, below another one: each edge of a merged node is its own or
was taken over, and the nodes that are alive have states of their own. -/
structure Tier (r : Request σ κ V) (depth : Nat) (parents layer : Array (Station σ V)) : Prop where
  placed : ∀ n ∈ layer, n.Placed r depth parents
  takes : ∀ n ∈ layer, n.merged = true → ∀ e ∈ n.inbound,
    n.Owns r.model.problem parents e ∨ ∃ m ∈ layer, n.Takes r parents m e
  distinct : ∀ (i j : Nat) m n, layer[i]? = some m → layer[j]? = some n → m.fate = .alive →
    n.fate = .alive → (m.state == n.state) = true → i = j

variable {r : Request σ κ V} {depth : Nat} {parents : Layer σ V} {above : List (Layer σ V)}
  {s : Selection σ κ V} {f : Fitted σ κ V}

theorem Sprouts.hanging {parents : Array (Station σ V)} {layer : Array (Lineage σ V)}
    (h : Sprouts r depth parents layer) : Hanging parents layer :=
  fun n hn => ⟨(h.placed n hn).reached, (h.placed n hn).fed⟩

/-- What a node of a layer is to the others when only fates are told anew. -/
theorem Sprouts.tier_of_marked {before after : Layer σ V} {p : Nat → Prop} [DecidablePred p]
    (h : Sprouts r depth (parents.map Node.station) (before.map Node.lineage))
    (hafter : ∀ j : Nat, after[j]? = before[j]?.map fun n =>
      if p j then { n with fate := .deleted } else n) :
    Tier r depth (parents.map Node.station) (after.map Node.station) := by
  have hsame : ∀ (j : Nat) n, (after.map Node.station)[j]? = some n →
      (before.map Node.lineage)[j]? = some n.toLineage := by
    intro j n hn
    rw [← lineage_of_marked hafter, Array.getElem?_map]
    rw [Array.getElem?_map] at hn
    obtain ⟨m, hm, rfl⟩ := Option.map_eq_some_iff.1 hn
    rw [hm]
    rfl
  have hmem : ∀ n ∈ after.map Node.station, n.toLineage ∈ before.map Node.lineage := by
    intro n hn
    obtain ⟨j, hj⟩ := Array.mem_iff_getElem?.1 hn
    exact Array.mem_of_getElem? (hsame j n hj)
  refine ⟨fun n hn => h.placed _ (hmem n hn), fun n hn hmerged => ?_, ?_⟩
  · have hunmerged := h.unmerged _ (hmem n hn)
    rw [hmerged] at hunmerged
    cases hunmerged
  · intro i j m n hi hj _ _ hstate
    exact h.distinct i j _ _ (hsame i m hi) (hsame j n hj) hstate

/-! ### Merged nodes -/

section Fused

variable {kept absorbed : List (Candidate σ V)} {merged : σ} {target : Nat} {start : Node σ V}

variable (h : Sprouts r depth (parents.map Node.station) (s.layer.map Node.lineage))
  (hlists : Lists s.layer s.kept) (hfuses : Fuses r parents s kept absorbed merged target start f)
include h hlists hfuses

/-- **The merged node is placed where those that it absorbed are.** -/
theorem Sprouts.merged_placed [Value.Floored V] :
    (start.attachAll (r.handOverAll parents s.layer merged absorbed)).lineage.Placed r depth
      (parents.map Node.station) := by
  have hdepth : start.depth = depth := by
    rcases hfuses.place with ⟨_, _, n, _, _, hn, rfl, _⟩ |
      ⟨_, _, _, _, _, _, ⟨c, _, n, hn, hsame⟩, _⟩
    · exact (h.placed n.lineage (Array.mem_map_of_mem (Array.mem_of_getElem? hn))).depth
    · have hplaced := h.placed n.lineage (Array.mem_map_of_mem (Array.mem_of_getElem? hn))
      exact hsame.trans hplaced.depth
  obtain ⟨hreached, hfed⟩ := h.hanging.merged_hangs hlists hfuses
  refine ⟨(Node.attachAll_depth _ _).trans hdepth, hreached, hfed, fun hmerged => ?_⟩
  have hmarked := (Node.attachAll_merged start
    (r.handOverAll parents s.layer merged absorbed)).trans hfuses.marked
  exact absurd (hmerged.symm.trans hmarked) Bool.false_ne_true

/-- **Each edge of the merged node is its own or was taken over.** -/
theorem Sprouts.merged_takes [ReflBEq σ] :
    ∀ e ∈ (start.attachAll (r.handOverAll parents s.layer merged absorbed)).inbound,
      (start.attachAll (r.handOverAll parents s.layer merged absorbed)).lineage.Owns
        r.model.problem (parents.map Node.station) e ∨
      ∃ m ∈ f.layer.map Node.station,
        (start.attachAll (r.handOverAll parents s.layer merged absorbed)).lineage.Takes r
          (parents.map Node.station) m e := by
  intro e he
  have hstate := Node.attachAll_state start (r.handOverAll parents s.layer merged absorbed)
  rw [Node.attachAll_inbound, List.mem_append, List.mem_reverse, List.mem_map] at he
  rcases he with ⟨⟨p, _⟩, hpe, rfl⟩ | he
  · -- The edge was handed over by a node that was absorbed.
    obtain ⟨c, hc, n, hn, hpe⟩ := Request.mem_handOverAll.1 hpe
    obtain ⟨g, hg, hp, heq⟩ := Request.mem_handOver.1 hpe
    obtain ⟨_, m, hm, hdeleted⟩ := hfuses.of_mem_absorbed hlists hc
    obtain rfl := Option.some.inj (hn.symm.trans hm)
    refine .inr ⟨_, Array.mem_map_of_mem (Array.mem_of_getElem? hdeleted), rfl, ?_, g, hg, ?_⟩
    · exact h.unmerged n.lineage (Array.mem_map_of_mem (Array.mem_of_getElem? hn))
    · rw [heq]
      refine ⟨rfl, rfl, fun q hq => ⟨merged, ?_, ?_⟩⟩
      · show ((start.attachAll _).state == merged) = true
        rw [hstate]
        rcases hfuses.place with ⟨k, hk, z, hz, hsame, hat, rfl, _⟩ | ⟨_, _, hnew, _⟩
        · obtain ⟨w, hw, _, hkstate⟩ :=
            hlists.sound k (hfuses.perm.mem_iff.1 (List.mem_append_left absorbed hk))
          obtain rfl := Option.some.inj (hat.symm.trans (hz ▸ hw))
          exact hkstate ▸ hsame
        · rw [hnew]
          exact BEq.rfl
      · rw [Array.getElem?_map, hp, Option.map_some] at hq
        obtain rfl := Option.some.inj hq
        rfl
  · -- The edge is one of those that the node had.
    rcases hfuses.place with ⟨_, _, n, _, _, hn, rfl, _⟩ | ⟨_, _, _, hnil, _⟩
    · have hmem := Array.mem_map_of_mem (f := Node.lineage) (Array.mem_of_getElem? hn)
      have howns := (h.placed n.lineage hmem).owns (h.unmerged n.lineage hmem) e he
      refine .inl fun q hq => ?_
      obtain ⟨hto, hcost⟩ := howns q hq
      refine ⟨?_, hcost⟩
      show ((Node.attachAll _ _).state == _) = true
      rw [hstate]
      exact hto
    · rw [hnil] at he
      cases he

/-- **No other node that is alive has the state of the merged one.** -/
theorem Sprouts.merged_distinct [EquivBEq σ] {j : Nat} {n : Node σ V} (hj : j ≠ target)
    (hn : f.layer[j]? = some n) (halive : n.fate = .alive) : (n.state == start.state) = false := by
  obtain ⟨m, hm, hmark, hkept⟩ := hfuses.other hlists hj hn
  have hstate : n.state = m.state := by rcases hmark with rfl | rfl <;> rfl
  rw [hstate]
  rcases hfuses.place with ⟨_, _, z, _, _, hz, rfl, _⟩ | ⟨hnew, _, hsame, _⟩
  · refine Bool.eq_false_iff.2 fun heq => hj ?_
    refine h.distinct j target m.lineage z.lineage ?_ ?_ heq
    · rw [Array.getElem?_map, hm, Option.map_some]
    · rw [Array.getElem?_map, hz, Option.map_some]
  · obtain ⟨k, hk, rfl⟩ := List.mem_map.1 (hkept halive)
    obtain ⟨w, hw, _, hkstate⟩ :=
      hlists.sound k (hfuses.perm.mem_iff.1 (List.mem_append_left absorbed hk))
    obtain rfl := Option.some.inj (hm.symm.trans hw)
    rw [hsame, ← hkstate]
    exact hnew k hk

/-- **Merging nodes completes a layer.** -/
theorem Sprouts.tier_of_fuses [EquivBEq σ] [Value.Floored V] :
    Tier r depth (parents.map Node.station) (f.layer.map Node.station) := by
  have htarget := hfuses.layer target
  rw [if_pos rfl] at htarget
  refine ⟨fun t ht => ?_, fun t ht hmerged => ?_, fun i j a b hi hj ha hb hsame => ?_⟩
  · obtain ⟨n, hn, rfl⟩ := Array.mem_map.1 ht
    rcases hfuses.mem_cases hlists hn with rfl | hmem
    · exact h.merged_placed hlists hfuses
    · exact h.placed _ hmem
  · obtain ⟨n, hn, rfl⟩ := Array.mem_map.1 ht
    rcases hfuses.mem_cases hlists hn with rfl | hmem
    · exact h.merged_takes hlists hfuses
    · exact absurd ((h.unmerged _ hmem).symm.trans hmerged) Bool.false_ne_true
  · rw [Array.getElem?_map] at hi hj
    obtain ⟨m, hm, rfl⟩ := Option.map_eq_some_iff.1 hi
    obtain ⟨n, hn, rfl⟩ := Option.map_eq_some_iff.1 hj
    have hfused : ∀ z, f.layer[target]? = some z → z.state = start.state := by
      intro z hz
      obtain rfl := Option.some.inj (hz.symm.trans htarget)
      exact Node.attachAll_state start _
    by_cases hit : i = target
    · by_cases hjt : j = target
      · exact hit.trans hjt.symm
      · have hdiffer := h.merged_distinct hlists hfuses hjt hn hb
        rw [← hfused m (hit ▸ hm)] at hdiffer
        exact absurd (hdiffer.symm.trans (BEq.symm hsame)) Bool.false_ne_true
    · by_cases hjt : j = target
      · have hdiffer := h.merged_distinct hlists hfuses hit hm ha
        rw [← hfused n (hjt ▸ hn)] at hdiffer
        exact absurd (hdiffer.symm.trans hsame) Bool.false_ne_true
      · exact h.distinct i j _ _ (hfuses.lineage_other hlists hit hm)
          (hfuses.lineage_other hlists hjt hn) hsame

end Fused

/-! ### Completing and expanding a layer -/

/-- **Completing a layer** of nodes that were just reached. -/
theorem Sprouts.tier [EquivBEq σ] [Value.Floored V]
    (h : Sprouts r depth ((above.headD #[]).map Node.station) (s.layer.map Node.lineage))
    (hlists : Lists s.layer s.kept) (hfits : Fits r above s f) :
    Tier r depth ((above.headD #[]).map Node.station) (f.layer.map Node.station) := by
  cases hfits with
  | whole _ hlayer _ =>
    refine h.tier_of_marked (p := fun _ => False) fun j => ?_
    rw [hlayer]
    simp
  | dropped _ _ _ hlayer _ => exact h.tier_of_marked hlayer
  | fused _ _ _ hfuses => exact h.tier_of_fuses hlists hfuses

variable [Hashable σ]

end Tiers

/-! ### Whole diagrams -/

section Rounds

variable [Value V] [BEq σ] [Hashable σ] [BEq κ] {audit : Audit σ κ V} {r : Request σ κ V}
  {start session : Session σ κ V} {free : Variables} {d : Diagram σ V}

/-- Layers as far as descent and fates are concerned. -/
def stations (layers : List (Layer σ V)) : List (Array (Station σ V)) :=
  layers.map (·.map Node.station)

/-- The layers of a diagram, deepest first: each of them was completed below the next one, up
to the root. -/
inductive Arranged (r : Request σ κ V) : List (Array (Station σ V)) → Prop where
  | root {n : Station σ V} (hstate : n.state = r.residual.state)
      (hdepth : n.depth = r.residual.depth) (hlongest : n.longest = r.residual.value)
      (hexact : n.exact = true) (hmerged : n.merged = false) (hinbound : n.inbound = []) :
      Arranged r [#[n]]
  | next {layer parents : Array (Station σ V)} {above : List (Array (Station σ V))}
      (h : Arranged r (parents :: above))
      (htier : Tier r (r.residual.depth + (above.length + 1)) parents layer) :
      Arranged r (layer :: parents :: above)

omit [Hashable σ] [BEq κ] in
theorem Arranged.depth {layer : Array (Station σ V)} {above : List (Array (Station σ V))}
    (h : Arranged r (layer :: above)) : ∀ n ∈ layer, n.depth = r.residual.depth + above.length := by
  cases h with
  | root _ hdepth _ _ _ _ =>
    intro n hn
    obtain rfl := Array.mem_singleton.1 hn
    exact hdepth
  | next _ htier => exact fun n hn => (htier.placed n hn).depth

/-- A diagram in the making: the root, or a layer that was just reached. -/
inductive Arising (r : Request σ κ V) (d : Diagram σ V) : Prop where
  | root (hroot : d = Diagram.rooted r.residual)
  | below {parents : Layer σ V} {above : List (Layer σ V)} (hlayers : d.layers = parents :: above)
      (h : Arranged r (stations d.layers))
      (hsprouts : Sprouts r (r.residual.depth + d.layers.length) (parents.map Node.station)
        (d.pending.map Node.lineage))

variable [EquivBEq σ] [Value.Floored V]

omit [Hashable σ] in
/-- **Completing the pending layer.** -/
theorem Arising.settle (h : Arising r d) (session : Session σ κ V) :
    Arranged r (stations ((settleLayer audit r session d).layer :: d.layers)) := by
  cases h with
  | root hroot =>
    rcases hcheck :
      session.check r.dominance r.residual.state r.residual.depth r.residual.value with
      ⟨verdict, session'⟩
    have hsole : ∀ n : Node σ V, stations [#[n]] = [#[n.station]] := fun n => by simp [stations]
    rw [hroot, settleLayer_rooted hcheck]
    show Arranged r (stations [#[r.residual.root.struck verdict]])
    rw [hsole]
    cases verdict with
    | none => exact .root rfl rfl rfl rfl rfl rfl
    | some t => exact .root rfl rfl rfl rfl rfl rfl
  | @below parents above hlayers h hsprouts =>
    have hselected := selected r session d.layers.isEmpty d.pending
    have hfits := fit_fits audit r d.path d.layers hselected.lists
    rw [← select_lineage r session d.layers.isEmpty d.pending] at hsprouts
    have hhead : d.layers.headD #[] = parents := by rw [hlayers, List.headD_cons]
    have htier := Sprouts.tier (hhead ▸ hsprouts) hselected.lists hfits
    rw [hhead] at htier
    rw [hlayers] at h htier
    unfold settleLayer
    rw [hlayers]
    refine .next h ?_
    rw [List.length_map]
    exact htier

end Rounds

/-! ### Numbers -/

variable [BEq σ] [Hashable σ] [BEq κ] [Value V]

end DiagramSearch
