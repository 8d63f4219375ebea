/-
# What a diagram tells can be had

Marking the best nodes and the cut-set, lifting bounds and sweeping thresholds
leave the descent of the nodes alone.  So what a diagram tells of the problem is
read off a chain of best edges, and each chain that is relied on meets an exact
node before any merged one.

* `Request.evaluate_tells`: the best node of a diagram that is restricted, exact or
  found to be exact, the best exact node, and the nodes of the cut-set can all be
  relied on;
* `Lineal.founded`: **the path to such a node is a path of the problem**, made of
  that to the root of the diagram and one more segment;
* `Tells.delivers_best`, `Tells.delivers_bestExact`, `Tells.founded_handOut`: the
  solutions and the sub-problems of a diagram.
-/

import DiagramSearch.Proofs.Compiling
import DiagramSearch.Proofs.Inheriting
import DiagramSearch.Proofs.Outlasting

namespace DiagramSearch

open Diagram

variable {σ κ V : Type}

/-! ### Cut-sets -/

theorem climbsToExact_of_forall {layers : List (Layer σ V)}
    (h : ∀ layer ∈ layers, ∀ n ∈ layer, n.exact = true) (i : Nat) :
    climbsToExact layers i = true := by
  cases layers with
  | nil => rfl
  | cons layer above =>
    cases hn : layer[i]? with
    | none => rw [climbsToExact, hn]
    | some n =>
      exact climbsToExact_of_exact hn (h layer List.mem_cons_self n (Array.mem_of_getElem? hn))

theorem climbsToExact_upTo {d : Diagram σ V} {layers : List (Layer σ V)} {cutset : List Address}
    (h : lineages layers = lineages d.layers) (l i : Nat) :
    climbsToExact (({ d with layers, cutset } : Diagram σ V).upTo l) i =
      climbsToExact (d.upTo l) i := by
  unfold upTo
  rw [length_eq_of_lineages h]
  exact climbsToExact_congr (lineages_drop h _) i

/-- The address of an exact node right above a layer that is not exact all over. -/
def Divides (layers : List (Array (Lineage σ V))) (a : Address) : Prop :=
  ∃ below child parents above q n, layers = below ++ child :: parents :: above ∧
    above.length = a.layer ∧ parents[a.position]? = some q ∧ q.exact = true ∧ n ∈ child ∧
    n.exact = false

/-- The layers themselves, around such an address. -/
theorem Divides.exists_split {layers : List (Layer σ V)} {a : Address}
    (h : Divides (lineages layers) a) : ∃ below child parents above q n,
      layers = below ++ child :: parents :: above ∧ above.length = a.layer ∧
      layers.drop (layers.length - 1 - a.layer) = parents :: above ∧
      parents[a.position]? = some q ∧ q.exact = true ∧ n ∈ child ∧ n.exact = false := by
  obtain ⟨_, _, _, _, q, n, hlayers, hlen, hq, hexact, hn, hinexact⟩ := h
  obtain ⟨below, rest, rfl, rfl, hchild⟩ := List.map_eq_append_iff.1 hlayers
  obtain ⟨child, rest, rfl, rfl, hparents⟩ := List.map_eq_cons_iff.1 hchild
  obtain ⟨parents, above, rfl, rfl, rfl⟩ := List.map_eq_cons_iff.1 hparents
  rw [Array.getElem?_map] at hq
  obtain ⟨q', hq', rfl⟩ := Option.map_eq_some_iff.1 hq
  obtain ⟨n', hn', rfl⟩ := Array.mem_map.1 hn
  rw [List.length_map] at hlen
  refine ⟨below, child, parents, above, q', n', rfl, hlen, ?_, hq', hexact, hn', hinexact⟩
  simp only [List.length_append, List.length_cons]
  rw [show below.length + (above.length + 1 + 1) - 1 - a.layer = below.length + 1 by omega,
    ← List.drop_drop, List.drop_left]
  rfl

theorem Divides.climbsToExact {layers : List (Layer σ V)} {a : Address}
    (h : Divides (lineages layers) a) : a.layer < layers.length ∧
      Diagram.climbsToExact (layers.drop (layers.length - 1 - a.layer)) a.position = true := by
  obtain ⟨below, child, parents, above, q, n, rfl, hlen, hdrop, hq, hexact, _⟩ := h.exists_split
  refine ⟨by simp only [List.length_append, List.length_cons]; omega, ?_⟩
  rw [hdrop]
  exact climbsToExact_of_exact hq hexact

/-- Layers whose cut-set was collected: descent is left alone, and the members are
exact nodes with an inexact one below. -/
structure CutsExact (layers : List (Layer σ V)) (c : List (Layer σ V) × List Address) : Prop where
  same : lineages c.1 = lineages layers
  divides : ∀ a ∈ c.2, Divides (lineages layers) a

theorem cutAbove_cutsExact (stop : Nat) (layer : Layer σ V) (above : List (Layer σ V)) :
    CutsExact (layer :: above) (cutAbove stop layer above) := by
  induction above generalizing layer with
  | nil => exact ⟨rfl, fun a ha => absurd ha List.not_mem_nil⟩
  | cons parents above ih =>
    rw [cutAbove]
    split
    · exact ⟨rfl, fun a ha => absurd ha List.not_mem_nil⟩
    · rw [foldl_flagParents]
      have hmarked := flagged_foldl parents (inexactEdges layer)
      generalize (inexactEdges layer).foldl flagSource (parents, []) = marked at hmarked
      obtain ⟨hsame, hdivides⟩ := ih marked.1
      have hlineages : lineages (marked.1 :: above) = lineages (parents :: above) := by
        rw [lineages, lineages, List.map_cons, List.map_cons, lineage_outlasts.flagged hmarked]
      refine ⟨?_, fun a ha => ?_⟩
      · exact congrArg (layer.map Node.lineage :: ·) (hsame.trans hlineages)
      · rcases List.mem_append.1 ha with ha | ha
        · obtain ⟨j, hj, rfl⟩ := List.mem_map.1 ha
          obtain ⟨q, hq, hexact, e, he, _⟩ := hmarked.reason j hj
          obtain ⟨n, hn, _, hinexact, _⟩ := mem_inexactEdges.1 he
          refine ⟨[], _, _, _, q.lineage, n.lineage, rfl, List.length_map .., ?_, hexact,
            Array.mem_map_of_mem hn, hinexact⟩
          rw [Array.getElem?_map, hq, Option.map_some]
        · obtain ⟨below, child, parents', above', q, n, hlayers, hrest⟩ := hdivides a ha
          rw [hlineages] at hlayers
          refine ⟨layer.map Node.lineage :: below, child, parents', above', q, n, ?_, hrest⟩
          exact congrArg (layer.map Node.lineage :: ·) hlayers

/-! ### The best nodes -/

variable [Value V] [BEq σ]

omit [BEq σ] in
/-- The best node is one of those that are accepted. -/
theorem best?_mem {layer : Layer σ V} {accepts : Node σ V → Bool} {i : Nat}
    (h : layer.best? accepts = some i) : ∃ n, layer[i]? = some n ∧ accepts n = true := by
  rw [best?_eq] at h
  obtain ⟨⟨j, v⟩, hbest, rfl⟩ := Option.map_eq_some_iff.1 h
  have hscan : ∀ entry, layer.toList.zipIdx.foldl (bestStep accepts) none = some entry →
      ∃ n, layer[entry.1]? = some n ∧ accepts n = true := by
    refine List.foldlRecOn layer.toList.zipIdx _ (motive := fun best => ∀ entry : Nat × V,
      best = some entry → ∃ n, layer[entry.1]? = some n ∧ accepts n = true) ?_ ?_
    · intro entry hentry
      cases hentry
    · intro best ih x hx entry hentry
      have hfound : layer[x.2]? = some x.1 := by
        rw [← Array.getElem?_toList, ← List.mk_mem_zipIdx_iff_getElem?]
        exact hx
      unfold bestStep at hentry
      split at hentry
      · rename_i haccepts
        split at hentry
        · obtain rfl := Option.some.inj hentry
          exact ⟨x.1, hfound, haccepts⟩
        · split at hentry
          · obtain rfl := Option.some.inj hentry
            exact ⟨x.1, hfound, haccepts⟩
          · exact ih entry hentry
      · exact ih entry hentry
  exact hscan (j, v) hbest

/-- A diagram and what of it can be relied on. -/
structure Tells (r : Request σ κ V) (free : Variables) (d : Diagram σ V) : Prop where
  path : d.path = r.residual.path
  lineal : Lineal r.model.problem r.residual free d.layers
  best : ∀ i, d.best = some i → r.kind ≠ .relaxed ∨ d.isExact = true →
    climbsToExact d.layers i = true
  bestExact : ∀ i, d.bestExact = some i → climbsToExact d.layers i = true
  cutset : ∀ a ∈ d.cutset, a.layer < d.layers.length ∧
    climbsToExact (d.upTo a.layer) a.position = true
  /-- A rule that picks as long as it can leaves nothing free. -/
  ended : r.branching.Total → ∀ i, d.best = some i ∨ d.bestExact = some i → free.size = 0

omit [BEq σ] in
theorem Tells.congr {r : Request σ κ V} {free : Variables} {d : Diagram σ V}
    {layers : List (Layer σ V)} (hsame : lineages layers = lineages d.layers)
    (h : Tells r free d) : Tells r free { d with layers } where
  path := h.path
  lineal := h.lineal.congr hsame.symm
  best i hi hcase := by
    rw [climbsToExact_congr hsame]
    exact h.best i hi hcase
  bestExact i hi := by
    rw [climbsToExact_congr hsame]
    exact h.bestExact i hi
  cutset a ha := by
    rw [climbsToExact_upTo hsame, length_eq_of_lineages hsame]
    exact h.cutset a ha
  ended := h.ended

omit [Value V] [BEq σ] in
/-- The cut-set of a diagram is made of exact nodes. -/
theorem markCutset_cases (d : Diagram σ V) (kind : Kind) (cutset : CutsetKind) :
    d.markCutset kind cutset = d ∨ ∃ l layers members, kind = .relaxed ∧ d.lastExact = some l ∧
      d.markCutset kind cutset = { d with layers, cutset := members } ∧
      lineages layers = lineages d.layers ∧
      ((∀ a ∈ members, a.layer = l) ∨ CutsExact d.layers (layers, members)) := by
  unfold markCutset
  split
  · rename_i l last above hlast hlayers
    refine .inr ⟨l, ?_⟩
    cases cutset with
    | lastExactLayer =>
      refine ⟨_, _, rfl, hlast, rfl, lineage_outlasts.of_uncut (uncut_cutAtLayer d l),
        .inl fun a ha => ?_⟩
      obtain ⟨i, _, rfl⟩ := List.mem_map.1 ha
      rfl
    | frontier =>
      have hcuts := cutAbove_cutsExact l last above
      rw [← hlayers] at hcuts
      exact ⟨_, _, rfl, hlast, rfl, hcuts.same, .inr hcuts⟩
  · exact .inl rfl

section Evaluate

variable {r : Request σ κ V} {free : Variables} {d : Diagram σ V}

omit [BEq σ] in
theorem Lineal.exists_cons {p : Problem σ V} {root : Subproblem σ V} {layers : List (Layer σ V)}
    (h : Lineal p root free layers) : ∃ layer above, layers = layer :: above := by
  cases h with
  | root => exact ⟨_, _, rfl⟩
  | next => exact ⟨_, _, rfl⟩

omit [BEq σ] in
/-- The best nodes of a complete diagram can be relied on. -/
theorem Descended.tells_marked (h : Descended r free d) :
    Tells r free (d.markBest.markExact r.kind) := by
  obtain ⟨last, above, hlayers⟩ := h.ancestral.lineal.exists_cons
  have hmarked : d.markBest = { d with
      best := last.best? fun n => n.isAlive
      bestExact := last.best? fun n => n.isAlive && n.exact } := by
    rw [markBest, hlayers]
  rw [hmarked]
  refine ⟨h.path, h.ancestral.lineal, fun i hi hcase => ?_, fun i hi => ?_, fun a ha => ?_,
    fun htotal i hi => ?_⟩
  · by_cases hwhole : r.kind ≠ .relaxed ∨ d.lastExact = none
    · exact climbsToExact_of_forall (h.ancestral.whole hwhole) i
    · rw [not_or] at hwhole
      have hexact := hcase.resolve_left hwhole.1
      have hbest : last.best? (fun n => n.isAlive) = some i := hi
      have hsome : d.lastExact.isNone = false := Option.isNone_eq_false_iff.2
        (Option.isSome_iff_ne_none.2 hwhole.2)
      simpa [markExact, hsome, hbest, not_not.1 hwhole.1] using hexact
  · have hbest : last.best? (fun n => n.isAlive && n.exact) = some i := hi
    obtain ⟨n, hn, haccepts⟩ := best?_mem hbest
    change climbsToExact d.layers i = true
    rw [hlayers]
    exact climbsToExact_of_exact hn (Bool.and_eq_true_iff.1 haccepts).2
  · have hnil : a ∈ d.cutset := ha
    rw [h.cutset] at hnil
    exact absurd hnil List.not_mem_nil
  · have halive : ∃ n, last[i]? = some n ∧ n.isAlive = true := by
      rcases hi with hi | hi
      · have hbest : last.best? (fun n => n.isAlive) = some i := hi
        exact best?_mem hbest
      · have hbest : last.best? (fun n => n.isAlive && n.exact) = some i := hi
        obtain ⟨n, hn, haccepts⟩ := best?_mem hbest
        exact ⟨n, hn, (Bool.and_eq_true_iff.1 haccepts).1⟩
    obtain ⟨n, hn, halive⟩ := halive
    exact h.ended htotal last (by rw [hlayers]; rfl) n (Array.mem_of_getElem? hn) halive

omit [BEq σ] in
/-- So can the nodes of its cut-set. -/
theorem Descended.tells_cut (h : Descended r free d) :
    Tells r free ((d.markBest.markExact r.kind).markCutset r.kind r.cutset) := by
  have hmarked := h.tells_marked
  have hframe : (d.markBest.markExact r.kind).lastExact = d.lastExact ∧
      (d.markBest.markExact r.kind).layers = d.layers := by
    constructor
    · simp only [markExact, markBest]
      split <;> rfl
    · simp only [markExact, markBest]
      split <;> rfl
  obtain ⟨hlast, hlayers⟩ := hframe
  rcases markCutset_cases (d.markBest.markExact r.kind) r.kind r.cutset with
    heq | ⟨l, layers, members, hkind, hl, heq, hsame, hmembers⟩
  · rw [heq]
    exact hmarked
  · rw [heq]
    have hcongr := hmarked.congr hsame
    refine ⟨hcongr.path, hcongr.lineal, hcongr.best, hcongr.bestExact, fun a ha => ?_, hcongr.ended⟩
    rw [climbsToExact_upTo (d := d.markBest.markExact r.kind) hsame, length_eq_of_lineages hsame,
      upTo, hlayers]
    rw [hlayers] at hmembers
    rcases hmembers with hall | hcuts
    · obtain ⟨_, hlt, hexact⟩ := h.ancestral.spared hkind l (hlast.symm.trans hl)
      rw [hall a ha]
      exact ⟨Nat.lt_of_succ_lt hlt, climbsToExact_of_forall hexact _⟩
    · exact (hcuts.divides a ha).climbsToExact

/-- **What an evaluation leaves alone**: the descent of the nodes, and of the diagram all
but the best nodes and the cut-set.  A cut-set that was collected is that of a layer, or
made of exact nodes with an inexact one below. -/
theorem Request.evaluate_diagram (r : Request σ κ V) (session : Session σ κ V) (d : Diagram σ V) :
    ∃ best bestExact isExact layers, (r.evaluate session d).diagram = { d with
        best, bestExact, isExact, layers
        cutset := ((d.markBest.markExact r.kind).markCutset r.kind r.cutset).cutset } ∧
      lineages layers = lineages d.layers ∧
      (((d.markBest.markExact r.kind).markCutset r.kind r.cutset).cutset = d.cutset ∨
        ∃ l, r.kind = .relaxed ∧ d.lastExact = some l ∧
          ∀ a ∈ ((d.markBest.markExact r.kind).markCutset r.kind r.cutset).cutset,
            a.layer = l ∨ Divides (lineages d.layers) a) := by
  obtain ⟨cut, bounded, hcut, hbounded, hout⟩ := r.evaluate_cases session d
  have hsame := lineage_outlasts.evaluate r session d
  rw [← hcut]
  have hmarked : ∃ best bestExact isExact, d.markBest.markExact r.kind =
      { d with best, bestExact, isExact } := by
    unfold markExact markBest
    split
    · exact ⟨d.best, d.bestExact, _, rfl⟩
    · exact ⟨_, _, _, rfl⟩
  have hcollected : ∃ best bestExact isExact layers, cut =
      { d with best, bestExact, isExact, layers, cutset := cut.cutset } ∧
      (cut.cutset = d.cutset ∨ ∃ l, r.kind = .relaxed ∧ d.lastExact = some l ∧
        ∀ a ∈ cut.cutset, a.layer = l ∨ Divides (lineages d.layers) a) := by
    obtain ⟨best, bestExact, isExact, hmarked⟩ := hmarked
    rw [hmarked] at hcut
    rcases markCutset_cases { d with best, bestExact, isExact } r.kind r.cutset with
      heq | ⟨l, layers, members, hkind, hl, heq, _, hmembers⟩
    · rw [hcut, heq]
      exact ⟨best, bestExact, isExact, d.layers, rfl, .inl rfl⟩
    · rw [hcut, heq]
      exact ⟨best, bestExact, isExact, layers, rfl, .inr ⟨l, hkind, hl, fun a ha =>
        hmembers.imp (fun hall => hall a ha) fun hcuts => hcuts.divides a ha⟩⟩
  obtain ⟨best, bestExact, isExact, layers, heq, hmembers⟩ := hcollected
  have hlifted : ∃ layers', bounded = { cut with layers := layers' } := by
    rcases hbounded with rfl | rfl
    · exact ⟨layers, by rw [heq]⟩
    · obtain ⟨layers', hbounds, _⟩ := lineage_outlasts.markBounds cut
      exact ⟨layers', hbounds⟩
  obtain ⟨layers', rfl⟩ := hlifted
  rw [heq] at hout
  have hshape : ∃ layers, (r.evaluate session d).diagram =
      { d with best, bestExact, isExact, layers, cutset := cut.cutset } := by
    rcases hout with ⟨fault, hev⟩ | ⟨out, rfl | rfl, hev⟩
    · exact ⟨layers', by rw [hev]⟩
    · exact ⟨layers', by rw [hev]⟩
    · obtain ⟨layers'', hswept, _⟩ := lineage_outlasts.sweep
        { d with best, bestExact, isExact, layers := layers', cutset := cut.cutset } r session
      exact ⟨layers'', by rw [hev, hswept]⟩
  obtain ⟨layers'', hshape⟩ := hshape
  rw [hshape] at hsame
  exact ⟨best, bestExact, isExact, layers'', hshape, hsame, hmembers⟩

/-- **What a diagram tells once it is evaluated can be relied on.** -/
theorem Request.evaluate_tells (h : Descended r free d) {session : Session σ κ V}
    {report : Report V} (hok : (r.evaluate session d).outcome = .ok report) :
    Tells r free (r.evaluate session d).diagram ∧
      report = ⟨(r.evaluate session d).diagram.isExact,
        (r.evaluate session d).diagram.bestValue⟩ := by
  obtain ⟨cut, bounded, rfl, hbounded, ⟨fault, heq⟩ | ⟨out, hout, heq⟩⟩ :=
    r.evaluate_cases session d
  · rw [heq] at hok
    cases hok
  · have htells : Tells r free bounded := by
      rcases hbounded with rfl | rfl
      · exact h.tells_cut
      · obtain ⟨layers, hlifted, hsame⟩ :=
          lineage_outlasts.markBounds ((d.markBest.markExact r.kind).markCutset r.kind r.cutset)
        rw [hlifted]
        exact h.tells_cut.congr hsame
    rw [heq] at hok ⊢
    refine ⟨?_, (Except.ok.inj hok).symm⟩
    rcases hout with rfl | rfl
    · exact htells
    · obtain ⟨layers, hswept, hsame⟩ := lineage_outlasts.sweep bounded r session
      dsimp only
      rw [hswept]
      exact htells.congr hsame

end Evaluate

/-! ### Solutions and sub-problems -/

omit [BEq σ] in
/-- What is handed out are nodes of the cut-set. -/
theorem Diagram.mem_handOut {d : Diagram σ V} {z : Subproblem σ V} (h : z ∈ d.handOut.1) :
    ∃ best, ∃ a ∈ d.cutset, d.subproblem? best a = some z := by
  unfold handOut at h
  split at h
  · exact absurd h List.not_mem_nil
  · exact ⟨_, List.mem_filterMap.1 h⟩

omit [BEq σ] in
/-- The sub-problem of a node of the cut-set. -/
theorem Diagram.subproblem?_eq_some {d : Diagram σ V} {best : V} {a : Address}
    {z : Subproblem σ V} (h : d.subproblem? best a = some z) :
    ∃ n, d.node? a = some n ∧ z.state = n.state ∧ z.value = n.longest ∧ z.depth = n.depth ∧
      z.path = d.pathTo a := by
  unfold subproblem? at h
  split at h
  · cases h
  · rename_i n hn
    obtain ⟨tail, _, rfl⟩ := Option.map_eq_some_iff.1 h
    exact ⟨n, hn, rfl, rfl, rfl, rfl⟩

omit [Value V] [BEq σ] in
/-- The layer of an address, and those above it. -/
theorem Diagram.exists_of_node? {d : Diagram σ V} {a : Address} {n : Node σ V}
    (hlt : a.layer < d.layers.length) (hn : d.node? a = some n) : ∃ layer above,
      d.upTo a.layer = layer :: above ∧ above.length = a.layer ∧ layer[a.position]? = some n := by
  obtain ⟨layer, hlayer, hn⟩ := Option.bind_eq_some_iff.1 hn
  obtain ⟨above, habove⟩ := List.head?_eq_some_iff.1 hlayer
  have hlength := congrArg List.length habove
  rw [upTo, List.length_drop, List.length_cons] at hlength
  exact ⟨layer, above, habove, by omega, hn⟩

/-- A sub-problem that a path of the problem leads to. -/
structure Subproblem.Founded (p : Problem σ V) (ends : Path → Prop) (n : Subproblem σ V) :
    Prop where
  attests : p.Attests ends n.path n.state n.value
  /-- No variable was given two values. -/
  assigned : p.Focused → (n.path.map (·.var)).Subperm (List.range p.variables)

/-- A solution of a given value: its decisions can be taken one after the other and
add up to the value, and they give each variable one value, as long as domains are
about the variable in question and the branching rule goes on to the end. -/
structure Problem.Delivers (p : Problem σ V) (b : Branching σ) (ends : Path → Prop) (path : Path)
    (v : V) : Prop where
  attests : ∃ s, p.Attests ends path s v
  complete : p.Focused → b.Total → (path.map (·.var)).Perm (List.range p.variables)

section Founded

omit [BEq σ]

variable [Value.Lawful V] {p : Problem σ V} {root : Subproblem σ V} {free : Variables}
  {layer : Layer σ V} {above : List (Layer σ V)} {i : Nat} {n : Node σ V} {ends : Path → Prop}

theorem Lineal.attests (h : Lineal p root free (layer :: above)) (hn : layer[i]? = some n)
    (htrust : climbsToExact (layer :: above) i = true) (hdef : n.longest ≤ n.longest)
    (hroot : root.value ≤ root.value → root.Founded p ends) (hend : ends root.path) :
    p.Attests ends (root.path ++ climb (layer :: above) i) n.state n.longest := by
  have hfollows := h.follows hn htrust hdef
  exact (hroot (hfollows.defined hdef)).attests.extend hend hfollows

/-- Each variable was given a value or is free. -/
theorem Lineal.perm_range (h : Lineal p root free (layer :: above)) (hn : layer[i]? = some n)
    (htrust : climbsToExact (layer :: above) i = true) (hdef : n.longest ≤ n.longest)
    (hroot : root.value ≤ root.value → root.Founded p ends) (hfocus : p.Focused) :
    ((root.path ++ climb (layer :: above) i).map (·.var) ++ free.toList).Perm
      (List.range p.variables) := by
  have hroot' := hroot ((h.follows hn htrust hdef).defined hdef)
  rw [List.map_append, List.append_assoc]
  exact ((h.perm_free hfocus hn htrust hdef).append_left _).trans
    (Subproblem.freeAfter_perm (hroot'.assigned hfocus))

/-- **The path to a node that can be relied on is a path of the problem.** -/
theorem Lineal.founded (h : Lineal p root free (layer :: above)) (hn : layer[i]? = some n)
    (htrust : climbsToExact (layer :: above) i = true) (hdef : n.longest ≤ n.longest)
    (hroot : root.value ≤ root.value → root.Founded p ends) (hend : ends root.path)
    {m : Subproblem σ V} (hstate : m.state = n.state) (hvalue : m.value = n.longest)
    (hpath : m.path = root.path ++ climb (layer :: above) i) : m.Founded p ends where
  attests := by
    rw [hstate, hvalue, hpath]
    exact h.attests hn htrust hdef hroot hend
  assigned hfocus := by
    rw [hpath]
    exact (List.sublist_append_left _ _).subperm.trans
      (h.perm_range hn htrust hdef hroot hfocus).subperm

end Founded

namespace Tells

omit [BEq σ]

variable [Value.Lawful V] {r : Request σ κ V} {free : Variables} {d : Diagram σ V}
  {ends : Path → Prop} {v : V} {path : Path}

/-- A node of the deepest layer that can be relied on is the end of a solution. -/
theorem delivers (h : Tells r free d) {i : Nat} {n : Node σ V} (hn : d.terminal? i = some n)
    (htrust : climbsToExact d.layers i = true) (hended : r.branching.Total → free.size = 0)
    (hdef : n.longest ≤ n.longest)
    (hroot : r.residual.value ≤ r.residual.value → r.residual.Founded r.model.problem ends)
    (hend : ends r.residual.path) :
    r.model.problem.Delivers r.branching ends (d.path ++ climb d.layers i) n.longest := by
  obtain ⟨layer, above, hlayers⟩ := h.lineal.exists_cons
  have hlineal := h.lineal
  rw [terminal?, hlayers] at hn
  rw [hlayers] at hlineal htrust
  rw [hlayers, h.path]
  refine ⟨⟨n.state, hlineal.attests hn htrust hdef hroot hend⟩, fun hfocus htotal => ?_⟩
  have hperm := hlineal.perm_range hn htrust hdef hroot hfocus
  rwa [List.length_eq_zero_iff.1 (hended htotal), List.append_nil] at hperm

/-- **The best solution of a diagram that is not relaxed, or is found to be exact,
is one of the problem.** -/
theorem delivers_best (h : Tells r free d) (hcase : r.kind ≠ .relaxed ∨ d.isExact = true)
    (hroot : r.residual.value ≤ r.residual.value → r.residual.Founded r.model.problem ends)
    (hend : ends r.residual.path) (hv : d.bestValue = some v) (hpath : d.bestSolution = some path)
    (hdef : v ≤ v) : r.model.problem.Delivers r.branching ends path v := by
  obtain ⟨n, hn, rfl⟩ := Option.map_eq_some_iff.1 hv
  obtain ⟨i, hi, hn⟩ := Option.bind_eq_some_iff.1 hn
  obtain ⟨j, hj, rfl⟩ := Option.map_eq_some_iff.1 hpath
  obtain rfl := Option.some.inj (hi.symm.trans hj)
  exact h.delivers hn (h.best i hi hcase) (fun htotal => h.ended htotal i (.inl hi)) hdef hroot hend

/-- **So is the best exact solution of any diagram.** -/
theorem delivers_bestExact (h : Tells r free d)
    (hroot : r.residual.value ≤ r.residual.value → r.residual.Founded r.model.problem ends)
    (hend : ends r.residual.path) (hv : d.bestExactValue = some v)
    (hpath : d.bestExactSolution = some path) (hdef : v ≤ v) :
    r.model.problem.Delivers r.branching ends path v := by
  obtain ⟨n, hn, rfl⟩ := Option.map_eq_some_iff.1 hv
  obtain ⟨i, hi, hn⟩ := Option.bind_eq_some_iff.1 hn
  obtain ⟨j, hj, rfl⟩ := Option.map_eq_some_iff.1 hpath
  obtain rfl := Option.some.inj (hi.symm.trans hj)
  exact h.delivers hn (h.bestExact i hi) (fun htotal => h.ended htotal i (.inr hi)) hdef hroot hend

omit [Value.Lawful V] in
/-- A sub-problem that is handed out is a node of the cut-set, which can be relied on, and
its path is read off the nodes above it. -/
theorem exists_of_mem_handOut (h : Tells r free d) {z : Subproblem σ V} (hz : z ∈ d.handOut.1) :
    ∃ a ∈ d.cutset, ∃ n layer above free', d.node? a = some n ∧ above.length = a.layer ∧
      layer[a.position]? = some n ∧ climbsToExact (layer :: above) a.position = true ∧
      Lineal r.model.problem r.residual free' (layer :: above) ∧ z.state = n.state ∧
      z.value = n.longest ∧ z.depth = n.depth ∧
      z.path = r.residual.path ++ climb (layer :: above) a.position := by
  obtain ⟨best, a, ha, hsub⟩ := Diagram.mem_handOut hz
  obtain ⟨n, hn, hstate, hvalue, hdepth, hpath⟩ := Diagram.subproblem?_eq_some hsub
  obtain ⟨hlt, htrust⟩ := h.cutset a ha
  obtain ⟨layer, above, habove, hlength, hn'⟩ := Diagram.exists_of_node? hlt hn
  obtain ⟨free', hlineal⟩ := h.lineal.drop (d.layers.length - 1 - a.layer) (by omega)
  change Lineal _ _ free' (d.upTo a.layer) at hlineal
  rw [habove] at hlineal htrust
  rw [pathTo, h.path, habove] at hpath
  exact ⟨a, ha, n, layer, above, free', hn, hlength, hn', htrust, hlineal, hstate, hvalue, hdepth,
    hpath⟩

/-- **What is handed out are sub-problems of the problem.** -/
theorem founded_handOut (h : Tells r free d)
    (hroot : r.residual.value ≤ r.residual.value → r.residual.Founded r.model.problem ends)
    (hend : ends r.residual.path) {m : Subproblem σ V} (hm : m ∈ d.handOut.1)
    (hdef : m.value ≤ m.value) : m.Founded r.model.problem ends := by
  obtain ⟨a, _, n, layer, above, free', _, _, hn, htrust, hlineal, hstate, hvalue, _, hpath⟩ :=
    h.exists_of_mem_handOut hm
  exact hlineal.founded hn htrust (hvalue ▸ hdef) hroot hend hstate hvalue hpath

end Tells

/-- **A compilation without a fault tells what can be relied on.** -/
theorem Request.compile_tells [LawfulBEq σ] [Hashable σ] [BEq κ] {r : Request σ κ V}
    (hpure : r.model.problem.Pure) {session : Session σ κ V} {report : Report V}
    (hok : (r.compile session).outcome = .ok report) :
    ∃ free, Tells r free (r.compile session).diagram ∧
      report = ⟨(r.compile session).diagram.isExact, (r.compile session).diagram.bestValue⟩ := by
  obtain ⟨hfault, heq⟩ := Request.compileWith_of_ok hok
  obtain ⟨free, hdescended⟩ := r.unroll_descended hpure r.audit session hfault
  refine ⟨free, ?_⟩
  unfold compile at hok ⊢
  rw [heq] at hok ⊢
  exact r.evaluate_tells hdescended hok

end DiagramSearch
