/-
# How deep a diagram goes

A diagram has a layer for each variable that was branched on, and nothing else is
needed to know how deep its nodes are: bounds, merges, dominance and the cache may be
wrong, transitions may be impure, costs may be undefined.  All that is asked is that
domains list decisions on the variable in question.

A node whose value is undefined may have no best edge, and then the path to it is too
short.  A node that is exact and defined, or whose value is above some other
(`Lineage.Raised`), has one, and so have all nodes that its best edges lead to.

* `Laddered`: layers in which best edges lead from each raised node to a raised node
  of the layer above, so that **climbing meets each variable that was branched on**
  (`Laddered.perm_free`);
* `Rounds.scales`, `Request.compile_scaled`: the layers of every diagram are;
* `Scaled.deeper`: **what is handed out is deeper than the root of the diagram**, by
  no more than the variables that were free there, since the first two layers are
  never merged;
* `Scaled.upright`: its path lists as many decisions as it is deep.
-/

import DiagramSearch.Proofs.Telling

namespace DiagramSearch

open Diagram

/-! ### Values above something -/

namespace Value

/-- There is something below. -/
def Rises {V : Type} [Value V] (v : V) : Prop := ∃ a, a < v

/-- Values of which the lower end takes every sum along, as in exact and in
floating-point arithmetic. -/
class Grounded (V : Type) [Value V] : Prop extends Lawful V where
  not_rises_negInf : ¬Rises (negInf : V)
  /-- A sum is above something only if what was added to is. -/
  rises_of_add {a b : V} : Rises (a + b) → Rises a

theorem Rises.defined {V : Type} [Value V] [Lawful V] {v : V} (h : Rises v) : v ≤ v :=
  h.elim fun _ ha => Lawful.defined_of_lt ha

end Value

theorem Extended.rises_iff {v : Extended} : Value.Rises v ↔ v ≠ .negInf := by
  constructor
  · rintro ⟨a, ha⟩ rfl
    exact absurd ha (not_lt.2 (Extended.negInf_le a))
  · intro h
    exact ⟨.negInf, lt_of_le_of_ne (Extended.negInf_le v) (Ne.symm h)⟩

instance : Value.Grounded Extended where
  not_rises_negInf h := Extended.rises_iff.1 h rfl
  rises_of_add {a b} h := by
    refine Extended.rises_iff.2 ?_
    rintro rfl
    exact Extended.rises_iff.1 h (Extended.negInf_add b)

variable {σ κ V : Type} [Value V]

/-! ### One layer above another -/

namespace Lineage

/-- A node that owes its value to an edge: it is exact and defined, or above
something. -/
def Raised (n : Lineage σ V) : Prop :=
  n.exact = true ∧ n.longest ≤ n.longest ∨ Value.Rises n.longest

/-- The best edge of a node leads to another one.  Its cost is of a given kind. -/
structure Rung (good : V → Prop) (x : Nat) (n : Lineage σ V) (e : Edge V) (q : Lineage σ V) :
    Prop where
  edge : n.edge = some e
  var : e.decision.var = x
  cost : good e.cost
  longest : n.longest = q.longest + e.cost
  exact : n.exact = true → q.exact = true

/-- A node of a given depth whose best edge leads to a layer.  All of its edges are
decisions on one variable. -/
structure Climbs (good : V → Prop) (x depth : Nat) (parents : Array (Lineage σ V))
    (n : Lineage σ V) : Prop where
  edges : ∀ e ∈ n.inbound, e.decision.var = x ∧ good e.cost
  depth : n.exact = true → n.depth = depth
  rung : n.Raised → ∃ e q, parents[e.source]? = some q ∧ n.Rung good x e q

theorem Raised.defined [Value.Lawful V] {n : Lineage σ V} (h : n.Raised) :
    n.longest ≤ n.longest :=
  h.elim (fun h => h.2) fun h => h.defined

/-- Best edges lead from raised nodes to raised nodes. -/
theorem Rung.raised [Value.Grounded V] {good : V → Prop} {x : Nat} {n q : Lineage σ V} {e : Edge V}
    (h : n.Rung good x e q) (hn : n.Raised) : q.Raised := by
  rcases hn with ⟨hexact, hdef⟩ | hrises
  · rw [h.longest] at hdef
    exact .inl ⟨h.exact hexact, Value.Lawful.defined_of_add hdef⟩
  · rw [h.longest] at hrises
    exact .inr (Value.Grounded.rises_of_add hrises)

end Lineage

section Step

variable {good : V → Prop} {x depth : Nat} {parents : Array (Lineage σ V)} {n parent : Node σ V}
  {e : Edge V}

/-- **One more edge**: it is the best one, or the node has a better one already. -/
theorem Lineage.Climbs.attach (hedges : ∀ e ∈ n.inbound, e.decision.var = x ∧ good e.cost)
    (hdepth : n.exact = true → parent.exact = true → n.depth = depth)
    (hrung : ¬n.longest ≤ parent.longest + e.cost → n.lineage.Raised →
      ∃ e q, parents[e.source]? = some q ∧ n.lineage.Rung good x e q)
    (hparent : parents[e.source]? = some parent.lineage) (hvar : e.decision.var = x)
    (hcost : good e.cost) : (n.attach parent e).lineage.Climbs good x depth parents := by
  have hboth : (n.attach parent e).exact = true → parent.exact = true ∧ n.exact = true := by
    rw [Node.attach_exact, Bool.and_eq_true]
    exact id
  refine ⟨fun e' he' => ?_, fun hexact => ?_, fun hraised => ?_⟩
  · have hmem : e' ∈ e :: n.inbound := Node.attach_inbound n parent e ▸ he'
    rcases List.mem_cons.1 hmem with rfl | hmem
    · exact ⟨hvar, hcost⟩
    · exact hedges e' hmem
  · obtain ⟨hpexact, hnexact⟩ := hboth hexact
    exact (Node.attach_depth n parent e).trans (hdepth hnexact hpexact)
  · by_cases hle : n.longest ≤ parent.longest + e.cost
    · refine ⟨e, parent.lineage, hparent, ?_, hvar, hcost, ?_, fun hexact => (hboth hexact).1⟩
      · exact Node.bestEdge?_attach_of_le n parent e hle
      · change (n.attach parent e).longest = parent.longest + e.cost
        simp only [Node.attach, if_pos hle]
    · have hlongest : (n.attach parent e).lineage.longest = n.lineage.longest := by
        change (n.attach parent e).longest = n.longest
        simp only [Node.attach, if_neg hle]
      have hraised' : n.lineage.Raised := by
        unfold Lineage.Raised at hraised ⊢
        rw [hlongest] at hraised
        exact hraised.imp_left fun h => ⟨(hboth h.1).2, h.2⟩
      obtain ⟨e', q, hq, hrung⟩ := hrung hle hraised'
      refine ⟨e', q, hq, ?_, hrung.var, hrung.cost, hlongest.trans hrung.longest,
        fun hexact => hrung.exact (hboth hexact).2⟩
      exact Node.bestEdge?_attach_of_not_le n parent e hrung.edge hle

end Step

/-- What is asked of a model: decisions are on the variable in question, and costs,
relaxed or not, are of a given kind. -/
structure Model.Prices (m : Model σ V) (good : V → Prop) : Prop where
  focused : m.problem.Focused
  cost : ∀ v s, ∀ d ∈ m.problem.domain v s, good (m.problem.cost s d)
  relax : ∀ source absorbed merged d c, good c →
    good (m.relaxation.relax source absorbed merged d c)

section Layer

variable {good : V → Prop} {x depth : Nat} {layer : Layer σ V} {r : Request σ κ V}

/-- Every decision in a layer keeps the nodes that are reached above it. -/
theorem Model.Prices.spreads [BEq σ] [Hashable σ] [Value.Lawful V] (hm : r.model.Prices good)
    (hdepth : ∀ q ∈ layer, q.exact = true → q.depth + 1 = depth) :
    Spreads r.model.problem x layer fun n =>
      n.lineage.Climbs good x depth (layer.map Node.lineage) := by
  have hsource : ∀ {parent e}, Taken r.model.problem x layer parent e →
      (layer.map Node.lineage)[e.source]? = some parent.lineage := by
    rintro parent e ⟨⟨q, hq, hsame⟩, _, _⟩
    rw [Array.getElem?_map, hq, Option.map_some, hsame]
  have hvar : ∀ {parent e}, Taken r.model.problem x layer parent e →
      e.decision.var = x ∧ good e.cost := by
    rintro parent e ⟨_, hd, hcost⟩
    exact ⟨hm.focused x parent.state e.decision hd, hcost ▸ hm.cost x parent.state e.decision hd⟩
  refine ⟨fun parent e he k n hn _ => ?_, fun parent e he k => ?_⟩
  · exact .attach hn.edges (fun hexact _ => hn.depth hexact) (fun _ => hn.rung) (hsource he)
      (hvar he).1 (hvar he).2
  · refine .attach (fun _ he' => absurd he' List.not_mem_nil) (fun _ hexact => ?_)
      (fun hundef hraised => absurd hraised.defined hundef) (hsource he) (hvar he).1 (hvar he).2
    obtain ⟨q, hq, hsame⟩ := he.source
    have hpdepth : parent.depth = q.depth := congrArg Lineage.depth hsame
    have hpexact : parent.exact = q.exact := congrArg Lineage.exact hsame
    change parent.depth + 1 = depth
    rw [hpdepth]
    exact hdepth q (Array.mem_of_getElem? hq) (hpexact.symm.trans hexact)

/-- So does every edge that a merged node takes over. -/
theorem Model.Prices.merges [Value.Grounded V] (hm : r.model.Prices good) :
    Merges r layer (fun n => n.lineage.Climbs good x depth (layer.map Node.lineage))
      fun n => n.exact = false ∧ n.lineage.Climbs good x depth (layer.map Node.lineage) where
  spared _ hn := hn.2
  deleted _ hn := hn
  doomed _ hn := hn
  marked n hn := by
    refine ⟨rfl, hn.edges, nofun, fun hraised => ?_⟩
    obtain ⟨e, q, hq, hrung⟩ := hn.rung (.inr (hraised.resolve_left fun h => nomatch h.1))
    exact ⟨e, q, hq, hrung.edge, hrung.var, hrung.cost, hrung.longest, nofun⟩
  fresh state depth' := by
    refine ⟨rfl, nofun, nofun, fun hraised => ?_⟩
    exact absurd (hraised.resolve_left fun h => nomatch h.1) Value.Grounded.not_rises_negInf
  takes n m parent e he merged hn hm' hparent := by
    refine ⟨by rw [Node.attach_exact, hn.1, Bool.and_false], ?_⟩
    obtain ⟨hvar, hcost⟩ := hm'.edges e he
    refine .attach hn.2.edges (fun hexact _ => hn.2.depth hexact) (fun _ => hn.2.rung) ?_ hvar
      (hm.relax _ _ _ _ _ hcost)
    rw [Array.getElem?_map, hparent, Option.map_some]

end Layer

/-! ### A ladder of layers -/

/-- Layers, deepest first, each above the next: best edges lead from raised nodes up
to the root, and each layer was branched on one of the variables that were free.
Those that are left free come with them. -/
inductive Laddered (good : V → Prop) (n : Nat) (root : Subproblem σ V) :
    Variables → List (Array (Lineage σ V)) → Prop where
  | root {layer : Array (Lineage σ V)}
      (h : ∀ m ∈ layer, m.edge = none ∧ m.longest = root.value ∧ m.depth = root.depth) :
      Laddered good n root (root.free n) [layer]
  | next {free : Variables} {x : Nat} {layer parents : Array (Lineage σ V)}
      {above : List (Array (Lineage σ V))} (hx : x ∈ free)
      (h : Laddered good n root free (parents :: above))
      (hclimbs : ∀ m ∈ layer, m.Climbs good x (root.depth + above.length + 1) parents) :
      Laddered good n root (free.erase x) (layer :: parents :: above)

namespace Laddered

variable {good : V → Prop} {n : Nat} {root : Subproblem σ V} {free : Variables}
  {layers : List (Array (Lineage σ V))}

/-- Each layer takes one of the variables that were free. -/
theorem length_add_size (h : Laddered good n root free layers) :
    layers.length + free.size = (root.free n).size + 1 := by
  induction h with
  | root => rw [List.length_singleton, Nat.add_comm]
  | next hx _ _ ih =>
    have hsize := Variables.size_erase_add_one hx
    simp only [List.length_cons] at ih ⊢
    omega

theorem depth_eq {layer : Array (Lineage σ V)} {above : List (Array (Lineage σ V))}
    (h : Laddered good n root free (layer :: above)) {m : Lineage σ V} (hm : m ∈ layer)
    (hexact : m.exact = true) : m.depth = root.depth + above.length := by
  cases h with
  | root h => exact (h m hm).2.2
  | next _ _ hclimbs =>
    rw [(hclimbs m hm).depth hexact, List.length_cons]
    omega

theorem drop (h : Laddered good n root free layers) (k : Nat) (hk : k < layers.length) :
    ∃ free', Laddered good n root free' (layers.drop k) := by
  induction k generalizing free layers with
  | zero => exact ⟨free, h⟩
  | succ k ih =>
    cases h with
    | root => exact absurd hk (by simp)
    | next _ h => exact ih h (by simpa using hk)

/-- **Climbing from a raised node meets each variable that was branched on, once**,
and the root has a value. -/
theorem perm_free [Value.Grounded V] {layer : Layer σ V} {above : List (Layer σ V)} {i : Nat}
    {m : Node σ V} (h : Laddered good n root free (lineages (layer :: above)))
    (hm : layer[i]? = some m) (hraised : m.lineage.Raised) : root.value ≤ root.value ∧
      ((climb (layer :: above) i).map (·.var) ++ free.toList).Perm (root.free n).toList := by
  generalize hlayers : lineages (layer :: above) = layers at h
  induction h generalizing layer above i m with
  | root h =>
    obtain ⟨rfl, -⟩ := List.cons.inj hlayers
    obtain ⟨hedge, hlongest, _⟩ := h m.lineage (Array.mem_map_of_mem (Array.mem_of_getElem? hm))
    have hedge' : m.bestEdge? = none := hedge
    refine ⟨hlongest ▸ hraised.defined, ?_⟩
    rw [climb, hm, Option.bind_eq_bind, Option.bind_some, hedge']
    exact .refl _
  | @next free x L parents rest hx _ hclimbs ih =>
    obtain ⟨rfl, habove⟩ := List.cons.inj hlayers
    obtain ⟨parents', above', rfl, rfl, rfl⟩ := List.map_eq_cons_iff.1 habove
    obtain ⟨e, q, hq, hrung⟩ := (hclimbs m.lineage
      (Array.mem_map_of_mem (Array.mem_of_getElem? hm))).rung hraised
    rw [Array.getElem?_map] at hq
    obtain ⟨q', hq', rfl⟩ := Option.map_eq_some_iff.1 hq
    obtain ⟨hroot, hup⟩ := ih hq' (hrung.raised hraised) rfl
    have hedge : m.bestEdge? = some e := hrung.edge
    refine ⟨hroot, ?_⟩
    rw [climb, hm, Option.bind_eq_bind, Option.bind_some, hedge]
    simp only [List.map_cons, hrung.var]
    -- The variable moves from the free ones to those that were decided.
    refine List.Perm.trans ?_ hup
    exact (List.perm_middle.symm).trans ((Variables.perm_erase hx).append_left _)

/-- The value of a raised node is of the same kind as the costs that add up to it. -/
theorem good_longest [Value.Grounded V] (hadd : ∀ a b, good a → good b → good (a + b))
    {layer : Array (Lineage σ V)} {above : List (Array (Lineage σ V))} {m : Lineage σ V}
    (h : Laddered good n root free (layer :: above)) (hroot : good root.value) (hm : m ∈ layer)
    (hraised : m.Raised) : good m.longest := by
  generalize hlayers : layer :: above = layers at h
  induction h generalizing layer above m with
  | root h =>
    obtain ⟨rfl, -⟩ := List.cons.inj hlayers
    rw [(h m hm).2.1]
    exact hroot
  | next _ _ hclimbs ih =>
    obtain ⟨rfl, rfl⟩ := List.cons.inj hlayers
    obtain ⟨e, q, hq, hrung⟩ := (hclimbs m hm).rung hraised
    rw [hrung.longest]
    exact hadd _ _ (ih (Array.mem_of_getElem? hq) (hrung.raised hraised) rfl) hrung.cost

end Laddered

/-! ### Round after round -/

section Rounds

variable [BEq σ] [Hashable σ] [BEq κ] [Value.Grounded V] {good : V → Prop} {r : Request σ κ V}
  {audit : Audit σ κ V} {start session : Session σ κ V} {free : Variables} {d : Diagram σ V}

/-- Layers, deepest first, of a diagram in the making. -/
structure Scales (good : V → Prop) (r : Request σ κ V) (free : Variables) (lastExact : Option Nat)
    (layers : List (Layer σ V)) : Prop extends Spared r.kind lastExact layers where
  ladder : Laddered good r.model.problem.variables r.residual free (lineages layers)

omit [BEq σ] [Hashable σ] [BEq κ] [Value.Grounded V] in
theorem Scales.rooted (good : V → Prop) (r : Request σ κ V) :
    Scales good r (r.residual.free r.model.problem.variables) (Diagram.rooted r.residual).lastExact
      ((Diagram.rooted r.residual).pending :: (Diagram.rooted r.residual).layers) := by
  refine ⟨.rooted r.kind r.residual, .root fun m hm => ?_⟩
  obtain ⟨n, hn, rfl⟩ := Array.mem_map.1 hm
  obtain rfl := Array.mem_singleton.1 hn
  exact ⟨rfl, rfl, rfl⟩

omit [Hashable σ] in
/-- Completing the pending layer. -/
theorem Scales.settle (hm : r.model.Prices good)
    (h : Scales good r free d.lastExact (d.pending :: d.layers)) :
    Scales good r free (d.lastExactAfter (settleLayer audit r session d).reduced)
      ((settleLayer audit r session d).layer :: d.layers) := by
  refine ⟨h.toSpared.settle, ?_⟩
  have hselected := select_lineage r session d.layers.isEmpty d.pending
  have hladder : Laddered good r.model.problem.variables r.residual free
      (lineages ((select r session d.layers.isEmpty d.pending).layer :: d.layers)) := by
    rw [lineages, List.map_cons, hselected]
    exact h.ladder
  rcases fit_cases audit r d.path d.layers (select r session d.layers.isEmpty d.pending) with
    ⟨hsame, _⟩ | ⟨_, habove, _⟩
  · rw [lineages, List.map_cons, settleLayer, hsame]
    exact hladder
  · obtain ⟨parents, above, hlayers⟩ : ∃ parents above, d.layers = parents :: above :=
      List.exists_cons_of_length_pos (by omega)
    unfold settleLayer
    rw [hlayers] at hladder ⊢
    cases hladder with
    | next hx hup hclimbs =>
      refine .next hx hup fun m hm' => ?_
      obtain ⟨n, hn, rfl⟩ := Array.mem_map.1 hm'
      exact hm.merges.fit (fun q hq => hclimbs q.lineage (Array.mem_map_of_mem hq)) n hn

omit [BEq κ] in
/-- Expanding a layer. -/
theorem Scales.expand (hm : r.model.Prices good) {lastExact : Option Nat} {x : Nat}
    {f : Fitted σ κ V} {above : List (Layer σ V)}
    (h : Scales good r free lastExact (f.layer :: above)) (hx : x ∈ free) (index : Nat) :
    Scales good r (free.erase x) lastExact ((f.expansion r free index x).pending ::
      (f.expansion r free index x).layer :: above) := by
  have hdepth : ∀ q ∈ f.layer, q.exact = true →
      q.depth + 1 = r.residual.depth + (lineages above).length + 1 := fun q hq hex =>
    congrArg (· + 1) (h.ladder.depth_eq (Array.mem_map_of_mem hq) hex)
  have hspreads : Spreads r.model.problem x f.layer _ := hm.spreads hdepth
  have hclimbs := f.breeds hspreads free index
  have hexact := f.breeds (spreads_exact r.model.problem x f.layer) free index
  refine ⟨h.toSpared.expand hexact.same fun hall n hn => hexact.each n hn hall, ?_⟩
  rw [lineages, List.map_cons, List.map_cons, hexact.same]
  refine .next hx h.ladder fun m hm' => ?_
  obtain ⟨n, hn, rfl⟩ := Array.mem_map.1 hm'
  exact hclimbs.each n hn

/-- **The layers of a diagram form a ladder**, in every round. -/
theorem Rounds.scales (hm : r.model.Prices good) (h : Rounds audit r start session free d) :
    Scales good r free d.lastExact (d.pending :: d.layers) := by
  induction h with
  | root => exact .rooted good r
  | next h hf _ _ _ hx _ ih =>
    subst hf hx
    exact (ih.settle hm).expand hm (Subtype.property _) _

/-- **So do those of a diagram that is complete.** -/
theorem Request.unroll_scales (hm : r.model.Prices good) (audit : Audit σ κ V)
    (session : Session σ κ V) (hok : (r.unroll audit session).fault = none) :
    (r.unroll audit session).diagram.path = r.residual.path ∧
    (r.unroll audit session).diagram.cutset = [] ∧
    ∃ free, Scales good r free (r.unroll audit session).diagram.lastExact
      (r.unroll audit session).diagram.layers := by
  obtain ⟨session', free, d, hrounds, hlast⟩ := r.unroll_lastRound hok
  rw [hlast.eq]
  exact ⟨hrounds.frame.1, hrounds.frame.2, free, (hrounds.scales hm).settle hm⟩

end Rounds

/-! ### What is handed out -/

omit [Value V] in
/-- The cut-set of a diagram whose first layers were spared: no member is the root, and
all of them are exact. -/
theorem Spared.cutset {kind : Kind} {l : Nat} {layers : List (Layer σ V)}
    (h : Spared kind (some l) layers) (hkind : kind = .relaxed) {a : Address}
    (ha : a.layer = l ∨ Divides (lineages layers) a) :
    0 < a.layer ∧ a.layer < layers.length ∧
      ∀ layer ∈ (layers.drop (layers.length - 1 - a.layer)).head?, ∀ n,
        layer[a.position]? = some n → n.exact = true := by
  obtain ⟨hpos, hlt, hall⟩ := h.spared hkind l rfl
  rcases ha with rfl | hdivides
  · refine ⟨hpos, by omega, fun layer hlayer n hn => ?_⟩
    exact hall layer (List.mem_of_mem_head? hlayer) n (Array.mem_of_getElem? hn)
  · obtain ⟨below, child, parents, above, q, n, rfl, hlen, hdrop, hq, hexact, hn, hinexact⟩ :=
      hdivides.exists_split
    simp only [List.length_append, List.length_cons] at hlt hall
    refine ⟨Nat.pos_of_ne_zero fun hzero => ?_,
      by simp only [List.length_append, List.length_cons]; omega, fun layer hlayer m hm => ?_⟩
    · -- The layer below the root is exact, and this one is not.
      have hmem : child ∈ (below ++ child :: parents :: above).drop
          (below.length + (above.length + 1 + 1) - 1 - l) := by
        rw [List.drop_append_of_le_length (by omega)]
        exact List.mem_append_right _ List.mem_cons_self
      rw [hall child hmem n hn] at hinexact
      cases hinexact
    · rw [hdrop] at hlayer
      obtain rfl := Option.some.inj hlayer
      obtain rfl := Option.some.inj (hq.symm.trans hm)
      exact hexact

omit [Value V] in
/-- So it is with all that is collected when a diagram is evaluated. -/
theorem Spared.cutset_of_evaluate {kind : Kind} {d : Diagram σ V} {cutset : List Address}
    (h : Spared kind d.lastExact d.layers) (hempty : d.cutset = [])
    (hcutset : cutset = d.cutset ∨ ∃ l, kind = .relaxed ∧ d.lastExact = some l ∧
      ∀ a ∈ cutset, a.layer = l ∨ Divides (lineages d.layers) a) :
    ∀ a ∈ cutset, 0 < a.layer ∧ a.layer < d.layers.length ∧
      ∀ n, d.node? a = some n → n.exact = true := by
  intro a ha
  rcases hcutset with heq | ⟨l, hkind, hl, hmembers⟩
  · rw [heq, hempty] at ha
    exact absurd ha List.not_mem_nil
  · rw [hl] at h
    obtain ⟨hpos, hlt, hexact⟩ := h.cutset hkind (hmembers a ha)
    refine ⟨hpos, hlt, fun n hn => ?_⟩
    obtain ⟨layer, hlayer, hn⟩ := Option.bind_eq_some_iff.1 hn
    exact hexact layer hlayer n hn

omit [Value V] in
/-- The descent of a node does not depend on what is computed later. -/
theorem Diagram.node?_congr {d : Diagram σ V} {layers : List (Layer σ V)}
    (hsame : lineages layers = lineages d.layers) {a : Address} {n : Node σ V}
    (hn : ({ d with layers } : Diagram σ V).node? a = some n) :
    ∃ n', d.node? a = some n' ∧ n.lineage = n'.lineage := by
  obtain ⟨layer, hlayer, hn⟩ := Option.bind_eq_some_iff.1 hn
  have hdrop : lineages (({ d with layers } : Diagram σ V).upTo a.layer) =
      lineages (d.upTo a.layer) := by
    unfold upTo
    rw [length_eq_of_lineages hsame]
    exact lineages_drop hsame _
  obtain ⟨above, habove⟩ := List.head?_eq_some_iff.1 hlayer
  rw [habove] at hdrop
  obtain ⟨layer', above', heq, hlayer', _⟩ := List.map_eq_cons_iff.1 hdrop.symm
  obtain ⟨n', hn', hlineage⟩ := Layer.getElem?_of_map_eq hlayer'.symm hn
  refine ⟨n', ?_, hlineage⟩
  rw [node?, heq]
  exact hn'

/-- A diagram that was evaluated. -/
structure Scaled (good : V → Prop) (r : Request σ κ V) (d : Diagram σ V) : Prop where
  path : d.path = r.residual.path
  ladder : ∃ free, Laddered good r.model.problem.variables r.residual free (lineages d.layers)
  cutset : ∀ a ∈ d.cutset, 0 < a.layer ∧ a.layer < d.layers.length ∧
    ∀ n, d.node? a = some n → n.exact = true

theorem Scaled.congr {good : V → Prop} {r : Request σ κ V} {d : Diagram σ V}
    {layers : List (Layer σ V)} (hsame : lineages layers = lineages d.layers)
    (h : Scaled good r d) : Scaled good r { d with layers } where
  path := h.path
  ladder := hsame ▸ h.ladder
  cutset a ha := by
    obtain ⟨hpos, hlt, hexact⟩ := h.cutset a ha
    refine ⟨hpos, length_eq_of_lineages hsame ▸ hlt, fun n hn => ?_⟩
    obtain ⟨n', hn', heq⟩ := Diagram.node?_congr hsame hn
    exact (congrArg Lineage.exact heq).trans (hexact n' hn')

namespace Request

variable [BEq σ] {good : V → Prop} {r : Request σ κ V} {free : Variables} {d : Diagram σ V}

/-- Evaluating a diagram leaves its ladder alone. -/
theorem evaluate_scaled (h : Scales good r free d.lastExact d.layers)
    (hpath : d.path = r.residual.path) (hcutset : d.cutset = []) (session : Session σ κ V) :
    Scaled good r (r.evaluate session d).diagram := by
  obtain ⟨best, bestExact, isExact, layers, heq, hsame, hmembers⟩ := r.evaluate_diagram session d
  rw [heq]
  refine Scaled.congr (d := { d with
      best, bestExact, isExact
      cutset := ((d.markBest.markExact r.kind).markCutset r.kind r.cutset).cutset }) hsame
    ⟨hpath, ⟨free, h.ladder⟩, h.toSpared.cutset_of_evaluate hcutset hmembers⟩

/-- **The layers of a compiled diagram form a ladder**, and its cut-set leaves out the
root. -/
theorem compile_scaled [Hashable σ] [BEq κ] [Value.Grounded V] (hm : r.model.Prices good)
    {session : Session σ κ V} {report : Report V}
    (hok : (r.compile session).outcome = .ok report) :
    Scaled good r (r.compile session).diagram := by
  obtain ⟨hfault, heq⟩ := Request.compileWith_of_ok hok
  obtain ⟨hpath, hcutset, free, hscales⟩ := r.unroll_scales hm r.audit session hfault
  unfold compile
  rw [heq]
  exact evaluate_scaled hscales hpath hcutset _

theorem evaluate_bestValue {session : Session σ κ V} {report : Report V}
    (hok : (r.evaluate session d).outcome = .ok report) :
    report.bestValue = (r.evaluate session d).diagram.bestValue := by
  obtain ⟨cut, bounded, rfl, _, ⟨fault, heq⟩ | ⟨out, _, heq⟩⟩ := r.evaluate_cases session d
  · rw [heq] at hok
    cases hok
  · rw [heq] at hok ⊢
    exact congrArg Report.bestValue (Except.ok.inj hok).symm

/-- What is reported as the best value is that of the diagram. -/
theorem compile_bestValue [Hashable σ] [BEq κ] {session : Session σ κ V} {report : Report V}
    (hok : (r.compile session).outcome = .ok report) :
    report.bestValue = (r.compile session).diagram.bestValue := by
  obtain ⟨_, heq⟩ := Request.compileWith_of_ok hok
  unfold compile at hok ⊢
  rw [heq] at hok ⊢
  exact evaluate_bestValue hok

end Request

/-- A sub-problem whose path lists as many decisions as it is deep, each on a variable
of its own. -/
structure Subproblem.Upright (n : Nat) (P : Subproblem σ V) : Prop where
  length : P.path.length = P.depth
  assigned : (P.path.map (·.var)).Subperm (List.range n)

omit [Value V] in
theorem Subproblem.Upright.depth_add_size {n : Nat} {P : Subproblem σ V} (h : P.Upright n) :
    P.depth + (P.free n).size = n := by
  have hlen := (Subproblem.freeAfter_perm h.assigned).length_eq
  rw [List.length_append, List.length_map, List.length_range, h.length] at hlen
  exact hlen

namespace Scaled

variable {good : V → Prop} {r : Request σ κ V} {d : Diagram σ V} {z : Subproblem σ V}

/-- What is handed out is an exact node of a layer below the root. -/
theorem mem_handOut (h : Scaled good r d) (hz : z ∈ d.handOut.1) :
    ∃ free i layer above m, 0 < above.length ∧ layer[i]? = some m ∧ m.exact = true ∧
      Laddered good r.model.problem.variables r.residual free (lineages (layer :: above)) ∧
      z.value = m.longest ∧ z.depth = m.depth ∧
      z.path = r.residual.path ++ climb (layer :: above) i := by
  obtain ⟨best, a, ha, hsub⟩ := Diagram.mem_handOut hz
  obtain ⟨m, hm, _, hvalue, hdepth, hpath⟩ := Diagram.subproblem?_eq_some hsub
  obtain ⟨hpos, hlt, hexact⟩ := h.cutset a ha
  obtain ⟨layer, above, habove, hlen, hi⟩ := Diagram.exists_of_node? hlt hm
  obtain ⟨free, hladder⟩ := h.ladder
  obtain ⟨free', hdrop⟩ := hladder.drop (d.layers.length - 1 - a.layer)
    (by rw [lineages, List.length_map]; omega)
  rw [lineages, ← List.map_drop] at hdrop
  change Laddered _ _ _ _ (lineages (d.upTo a.layer)) at hdrop
  rw [habove] at hdrop
  refine ⟨free', a.position, layer, above, m, by omega, hi, hexact m hm, hdrop, hvalue, hdepth, ?_⟩
  rw [hpath, pathTo, h.path, habove]

/-- **What is handed out is deeper than the root of the diagram**, by no more than the
variables that were free there. -/
theorem deeper (h : Scaled good r d) (hz : z ∈ d.handOut.1) : r.residual.depth < z.depth ∧
    z.depth ≤ r.residual.depth + (r.residual.free r.model.problem.variables).size := by
  obtain ⟨free, i, layer, above, m, hpos, hm, hexact, hladder, _, hdepth, _⟩ := h.mem_handOut hz
  have hlength := hladder.length_add_size
  have hmdepth : m.depth = r.residual.depth + (lineages above).length :=
    hladder.depth_eq (Array.mem_map_of_mem (Array.mem_of_getElem? hm)) hexact
  rw [hdepth, hmdepth]
  simp only [lineages, List.length_map, List.length_cons] at hlength ⊢
  omega

variable [Value.Grounded V]

/-- **The path to what is handed out lists as many decisions as it is deep**, unless it
has no value. -/
theorem upright (h : Scaled good r d)
    (hroot : r.residual.value ≤ r.residual.value →
      r.residual.Upright r.model.problem.variables)
    (hz : z ∈ d.handOut.1) (hdef : z.value ≤ z.value) :
    z.Upright r.model.problem.variables := by
  obtain ⟨free, i, layer, above, m, _, hm, hexact, hladder, hvalue, hdepth, hpath⟩ :=
    h.mem_handOut hz
  rw [hvalue] at hdef
  obtain ⟨hrootdef, hperm⟩ := hladder.perm_free hm (.inl ⟨hexact, hdef⟩)
  obtain ⟨hlen, hassigned⟩ := hroot hrootdef
  have hlength := hladder.length_add_size
  have hmdepth : m.depth = r.residual.depth + (lineages above).length :=
    hladder.depth_eq (Array.mem_map_of_mem (Array.mem_of_getElem? hm)) hexact
  refine ⟨?_, ?_⟩
  · have hclimb := hperm.length_eq
    rw [List.length_append, List.length_map] at hclimb
    rw [hdepth, hmdepth, hpath, List.length_append, hlen]
    simp only [lineages, List.length_map, List.length_cons, Variables.size] at hlength ⊢
    omega
  · rw [hpath, List.map_append]
    refine (List.sublist_append_left _ free.toList).subperm.trans ?_
    rw [List.append_assoc]
    exact ((hperm.append_left _).trans (Subproblem.freeAfter_perm hassigned)).subperm

omit [Value.Grounded V] in
/-- The best value of a diagram is that of a node of its deepest layer. -/
theorem node_of_bestValue (h : Scaled good r d) {v : V} (hv : d.bestValue = some v) :
    ∃ (free : Variables) (i : Nat) (layer : Layer σ V) (above : List (Layer σ V)) (m : Node σ V),
      layer[i]? = some m ∧ m.longest = v ∧
      Laddered good r.model.problem.variables r.residual free (lineages (layer :: above)) := by
  obtain ⟨m, hm, hvalue⟩ := Option.map_eq_some_iff.1 hv
  obtain ⟨i, _, hm⟩ := Option.bind_eq_some_iff.1 hm
  obtain ⟨layer, hlayer, hm⟩ := Option.bind_eq_some_iff.1 hm
  obtain ⟨above, habove⟩ := List.head?_eq_some_iff.1 hlayer
  obtain ⟨free, hladder⟩ := h.ladder
  rw [habove] at hladder
  exact ⟨free, i, layer, above, m, hm, hvalue, hladder⟩

/-- A diagram whose best value is above something is one of a sub-problem that has a
value. -/
theorem root_defined (h : Scaled good r d) {v : V} (hv : d.bestValue = some v)
    (hrises : Value.Rises v) : r.residual.value ≤ r.residual.value := by
  obtain ⟨free, i, layer, above, m, hm, rfl, hladder⟩ := h.node_of_bestValue hv
  exact (hladder.perm_free hm (.inr hrises)).1

/-- Such a best value is of the same kind as the costs that add up to it. -/
theorem good_bestValue (h : Scaled good r d) (hadd : ∀ a b, good a → good b → good (a + b))
    (hroot : good r.residual.value) {v : V} (hv : d.bestValue = some v)
    (hrises : Value.Rises v) : good v := by
  obtain ⟨free, i, layer, above, m, hm, rfl, hladder⟩ := h.node_of_bestValue hv
  exact hladder.good_longest hadd hroot (Array.mem_map_of_mem (Array.mem_of_getElem? hm))
    (.inr hrises)

end Scaled
end DiagramSearch
