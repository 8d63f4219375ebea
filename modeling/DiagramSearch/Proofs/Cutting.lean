/-
# Cut-sets

The cut-set separates what a relaxed diagram knows exactly from what it only
bounds.  `Cut` says in what sense: its members are exact nodes, neither the root
nor in the deepest layer, and a lasting node that is not a member has lasting
children only.  Both kinds of cut-set are of that kind (`markCutset_cut`): the
last exact layer, and the frontier of exact nodes with an inexact child, which
`cutAbove` collects layer by layer.
-/

import DiagramSearch.Proofs.Tails
import DiagramSearch.Diagram.Sweep

namespace DiagramSearch

open Extended Diagram

variable {σ κ V : Type}

/-- A node without its place in the cut-set. -/
def Node.uncut (n : Node σ V) : Node σ V := { n with cutset := false }

/-- A diagram with its cut-set. -/
structure Cut (r : Request σ κ Extended) (d : Diagram σ Extended) : Prop where
  /-- Members of the cut-set are listed. -/
  listed : ∀ i layer (j : Nat) n, level d.layers i = some layer → layer[j]? = some n →
    n.cutset = true → ⟨i, j⟩ ∈ d.cutset
  /-- What is listed is an exact node between the root and the deepest layer. -/
  sound : ∀ a ∈ d.cutset, ∃ layer n, level d.layers a.layer = some layer ∧
    layer[a.position]? = some n ∧ n.exact = true ∧ n.isAlive = true ∧ 0 < a.layer ∧
    a.layer + 1 < d.layers.length
  /-- A lasting node outside the cut-set has lasting children only. -/
  covers : ∀ i parents layer p, level d.layers i = some parents →
    level d.layers (i + 1) = some layer →
    ∀ y ∈ layer, y.isAlive = true → ∀ e ∈ y.inbound, parents[e.source]? = some p →
      p.isAlive = true → d.lasting r.kind r.cutset i p = true → p.cutset = false →
        d.lasting r.kind r.cutset (i + 1) y = true
  exact : ∀ i layer, level d.layers i = some layer → ∀ n ∈ layer,
    d.lasting r.kind r.cutset i n = true → n.exact = true
  root : ∀ layer, level d.layers 0 = some layer → ∀ n ∈ layer,
    d.lasting r.kind r.cutset 0 n = true

/-! ### The exact parents of inexact nodes -/

/-- Puts the start of one edge in the cut-set, if it is exact. -/
def flagSource (marked : Layer σ V × List Nat) (e : Edge V) :
    Layer σ V × List Nat :=
  match marked.1[e.source]? with
  | some p =>
    if p.exact && !p.cutset then
      (marked.1.modify e.source fun p => { p with cutset := true }, marked.2 ++ [e.source])
    else marked
  | none => marked

/-- The edges by which nodes that are alive and inexact are entered. -/
def inexactEdges (layer : Layer σ V) : List (Edge V) :=
  layer.toList.flatMap fun n => if n.isAlive && !n.exact then n.inbound else []

theorem foldl_flagSource_append (es : List (Edge V)) (parents : Layer σ V)
    (found : List Nat) :
    es.foldl flagSource (parents, found) =
      ((es.foldl flagSource (parents, [])).1, found ++ (es.foldl flagSource (parents, [])).2) := by
  induction es generalizing parents found with
  | nil => simp
  | cons e es ih =>
    simp only [List.foldl_cons, flagSource]
    cases parents[e.source]? with
    | none => exact ih parents found
    | some p =>
      dsimp only
      split
      · rw [ih _ (found ++ [e.source]), ih _ ([] ++ [e.source])]
        simp
      · exact ih parents found

theorem flagParents_eq (parents : Layer σ V) (n : Node σ V) :
    flagParents parents n =
      (if n.isAlive && !n.exact then n.inbound else []).foldl flagSource (parents, []) := by
  unfold flagParents
  split
  · rfl
  · rfl

/-- Flagging the parents of a layer, node after node, is flagging the starts of
its inexact edges. -/
theorem foldl_flagParents (layer parents : Layer σ V) :
    layer.foldl (fun (parents, found) n =>
      let (parents, more) := flagParents parents n
      (parents, found ++ more)) (parents, []) =
        (inexactEdges layer).foldl flagSource (parents, []) := by
  rw [← Array.foldl_toList]
  unfold inexactEdges
  generalize ([] : List Nat) = found
  induction layer.toList generalizing parents found with
  | nil => rfl
  | cons n ns ih =>
    rw [List.foldl_cons, List.flatMap_cons, List.foldl_append]
    dsimp only
    rw [ih, flagParents_eq, ← foldl_flagSource_append]

/-- Parents of which some positions were put in the cut-set, because of edges. -/
structure Flagged (parents : Layer σ V) (es : List (Edge V))
    (marked : Layer σ V × List Nat) : Prop where
  same : ∀ j : Nat, marked.1[j]? = parents[j]?.map fun p =>
    { p with cutset := p.cutset || decide (j ∈ marked.2) }
  reason : ∀ j ∈ marked.2, ∃ p, parents[j]? = some p ∧ p.exact = true ∧ ∃ e ∈ es, e.source = j
  flags : ∀ e ∈ es, ∀ p, parents[e.source]? = some p → p.exact = true →
    p.cutset = true ∨ e.source ∈ marked.2

/-- An edge whose start needs no flag, or has one, changes nothing. -/
theorem Flagged.keep {parents : Layer σ V} {es : List (Edge V)}
    {marked : Layer σ V × List Nat} (h : Flagged parents es marked) {e : Edge V}
    (he : ∀ p, parents[e.source]? = some p → p.exact = true →
      p.cutset = true ∨ e.source ∈ marked.2) : Flagged parents (es ++ [e]) marked := by
  refine ⟨h.same, fun j hj => ?_, fun f hf q hq hex => ?_⟩
  · obtain ⟨p, hp, hex, f, hf, hfj⟩ := h.reason j hj
    exact ⟨p, hp, hex, f, List.mem_append_left _ hf, hfj⟩
  · rcases List.mem_append.1 hf with hf | hf
    · exact h.flags f hf q hq hex
    · obtain rfl := List.mem_singleton.1 hf
      exact he q hq hex

theorem Flagged.step {parents : Layer σ V} {es : List (Edge V)}
    {marked : Layer σ V × List Nat} (h : Flagged parents es marked) (e : Edge V) :
    Flagged parents (es ++ [e]) (flagSource marked e) := by
  obtain ⟨l, found⟩ := marked
  have hsame := h.same
  dsimp only at hsame
  unfold flagSource
  dsimp only
  cases hp : parents[e.source]? with
  | none =>
    have hl : l[e.source]? = none := by rw [hsame, hp, Option.map_none]
    rw [hl]
    refine h.keep fun q hq _ => ?_
    rw [hp] at hq
    cases hq
  | some p =>
    have hl := hsame e.source
    rw [hp, Option.map_some] at hl
    rw [hl]
    dsimp only
    split
    · rename_i hcond
      rw [Bool.and_eq_true] at hcond
      refine ⟨fun j => ?_, fun j hj => ?_, fun f hf q hq hex => ?_⟩
      · dsimp only
        rw [Array.getElem?_modify, hsame j]
        by_cases hj : e.source = j
        · subst hj
          rw [if_pos rfl, hp]
          simp
        · rw [if_neg hj]
          simp [Ne.symm hj]
      · rcases List.mem_append.1 hj with hj | hj
        · obtain ⟨p, hp, hex, f, hf, hfj⟩ := h.reason j hj
          exact ⟨p, hp, hex, f, List.mem_append_left _ hf, hfj⟩
        · obtain rfl := List.mem_singleton.1 hj
          exact ⟨p, hp, hcond.1, e, List.mem_append_right _ List.mem_cons_self, rfl⟩
      · rcases List.mem_append.1 hf with hf | hf
        · exact (h.flags f hf q hq hex).imp_right (List.mem_append_left _)
        · obtain rfl := List.mem_singleton.1 hf
          exact .inr (List.mem_append_right _ List.mem_cons_self)
    · rename_i hcond
      refine h.keep fun q hq hex => ?_
      obtain rfl := Option.some.inj (hp.symm.trans hq)
      have hfound : p.cutset = false → e.source ∈ found := by simpa [hex] using hcond
      cases hc : p.cutset with
      | true => exact .inl rfl
      | false => exact .inr (hfound hc)

/-- **The starts of inexact edges that are exact end up in the cut-set.** -/
theorem flagged_foldl (parents : Layer σ V) (es : List (Edge V)) :
    Flagged parents es (es.foldl flagSource (parents, [])) := by
  have hgen : ∀ (fs es : List (Edge V)) marked, Flagged parents fs marked →
      Flagged parents (fs ++ es) (es.foldl flagSource marked) := by
    intro fs es
    induction es generalizing fs with
    | nil => intro marked h; simpa using h
    | cons e es ih =>
      intro marked h
      have := ih (fs ++ [e]) _ (h.step e)
      simpa using this
  refine hgen [] es (parents, []) ⟨fun j => ?_, fun j hj => ?_, fun e he => ?_⟩
  · simp
  · exact absurd hj List.not_mem_nil
  · exact absurd he List.not_mem_nil

theorem mem_inexactEdges {layer : Layer σ V} {e : Edge V} :
    e ∈ inexactEdges layer ↔
      ∃ n ∈ layer, n.isAlive = true ∧ n.exact = false ∧ e ∈ n.inbound := by
  unfold inexactEdges
  rw [List.mem_flatMap]
  constructor
  · rintro ⟨n, hn, he⟩
    split at he
    · rename_i hcond
      rw [Bool.and_eq_true, Bool.not_eq_true'] at hcond
      exact ⟨n, Array.mem_toList_iff.1 hn, hcond.1, hcond.2, he⟩
    · exact absurd he List.not_mem_nil
  · rintro ⟨n, hn, halive, hex, he⟩
    exact ⟨n, Array.mem_toList_iff.2 hn, by simpa [halive, hex] using he⟩

/-! ### The frontier, layer by layer -/

/-- What collecting the frontier above a layer yields. -/
structure CutsAbove (stop : Nat) (layer : Layer σ Extended) (above : List (Layer σ Extended))
    (c : List (Layer σ Extended) × List Address) : Prop where
  cons : ∃ rest, c.1 = layer :: rest ∧ rest.length = above.length
  same : c.1.map (·.map Node.uncut) = (layer :: above).map (·.map Node.uncut)
  listed : ∀ i l (j : Nat) n, level c.1 i = some l → i < above.length → l[j]? = some n →
    n.cutset = true → ⟨i, j⟩ ∈ c.2
  sound : ∀ a ∈ c.2, ∃ l n, level c.1 a.layer = some l ∧ l[a.position]? = some n ∧
    n.exact = true ∧ ∃ l', level c.1 (a.layer + 1) = some l' ∧ ∃ y ∈ l', y.isAlive = true ∧
      y.exact = false ∧ ∃ e ∈ y.inbound, e.source = a.position
  flags : ∀ i parents l p, level c.1 i = some parents → level c.1 (i + 1) = some l → stop ≤ i + 1 →
    ∀ y ∈ l, y.isAlive = true → y.exact = false → ∀ e ∈ y.inbound,
      parents[e.source]? = some p → p.exact = true → p.cutset = true

theorem uncut_flagSource {parents : Layer σ V} {es : List (Edge V)}
    {marked : Layer σ V × List Nat} (h : Flagged parents es marked) :
    marked.1.map Node.uncut = parents.map Node.uncut := by
  refine Array.ext_getElem? fun j => ?_
  rw [Array.getElem?_map, Array.getElem?_map, h.same, Option.map_map]
  rfl

/-- One more layer is collected from. -/
theorem CutsAbove.step {stop : Nat} {layer parents : Layer σ Extended}
    {above : List (Layer σ Extended)} {marked : Layer σ Extended × List Nat}
    {c : List (Layer σ Extended) × List Address}
    (hmarked : Flagged parents (inexactEdges layer) marked)
    (hblank : ∀ p ∈ parents, p.cutset = false) (h : CutsAbove stop marked.1 above c) :
    CutsAbove stop layer (parents :: above)
      (layer :: c.1, marked.2.map (fun i => ⟨above.length, i⟩) ++ c.2) := by
  obtain ⟨rest, hrest, hlen⟩ := h.cons
  have hclen : c.1.length = above.length + 1 := by rw [hrest, List.length_cons, hlen]
  have htop : level c.1 above.length = some marked.1 := by
    rw [hrest, ← hlen]
    exact level_length _ _
  have hlayer : level (layer :: c.1) (above.length + 1) = some layer := by
    rw [← hclen]
    exact level_length _ _
  refine ⟨⟨c.1, rfl, hclen⟩, ?_, fun i l j n hl hi hn hcut => ?_, fun a ha => ?_,
    fun i ps l p hp hl hstop y hy halive hex e he hpe hpex => ?_⟩
  · rw [List.map_cons, h.same, List.map_cons, List.map_cons, List.map_cons,
      uncut_flagSource hmarked]
  · rw [List.length_cons] at hi
    rw [level_cons, if_neg (by omega)] at hl
    rcases Nat.lt_or_ge i above.length with hlt | hge
    · exact List.mem_append_right _ (h.listed i l j n hl hlt hn hcut)
    · obtain rfl : i = above.length := by omega
      obtain rfl := Option.some.inj (htop.symm.trans hl)
      rw [hmarked.same] at hn
      obtain ⟨p, hp, rfl⟩ := Option.map_eq_some_iff.1 hn
      rw [hblank p (Array.mem_of_getElem? hp), Bool.false_or, decide_eq_true_eq] at hcut
      exact List.mem_append_left _ (List.mem_map.2 ⟨j, hcut, rfl⟩)
  · rcases List.mem_append.1 ha with ha | ha
    · obtain ⟨j, hj, rfl⟩ := List.mem_map.1 ha
      obtain ⟨p, hp, hex, e, he, hej⟩ := hmarked.reason j hj
      obtain ⟨y, hy, halive, hyex, hey⟩ := mem_inexactEdges.1 he
      refine ⟨marked.1, { p with cutset := p.cutset || decide (j ∈ marked.2) },
        level_cons_of_some htop, ?_, hex, layer, hlayer, y, hy, halive, hyex, e, hey, hej⟩
      rw [hmarked.same, hp, Option.map_some]
    · obtain ⟨l, n, hl, hn, hex, l', hl', hy⟩ := h.sound a ha
      exact ⟨l, n, level_cons_of_some hl, hn, hex, l', level_cons_of_some hl', hy⟩
  · have hlt := lt_of_level hl
    rw [List.length_cons, hclen] at hlt
    rw [level_cons, if_neg (by omega)] at hp
    rcases Nat.lt_or_ge i above.length with hi | hi
    · rw [level_cons, if_neg (by omega)] at hl
      exact h.flags i ps l p hp hl hstop y hy halive hex e he hpe hpex
    · obtain rfl : i = above.length := by omega
      obtain rfl := Option.some.inj (htop.symm.trans hp)
      obtain rfl := Option.some.inj (hlayer.symm.trans hl)
      rw [hmarked.same] at hpe
      obtain ⟨q, hq, rfl⟩ := Option.map_eq_some_iff.1 hpe
      have hedge := mem_inexactEdges.2 ⟨y, hy, halive, hex, he⟩
      rcases hmarked.flags e hedge q hq hpex with hc | hc
      · simp [hc]
      · simp [hc]

/-- **Collecting from the deepest layer upwards finds the exact nodes with an
inexact child.** -/
theorem cutAbove_cutsAbove (stop : Nat) (layer : Layer σ Extended) (above : List (Layer σ Extended))
    (hblank : ∀ k l, level above k = some l → ∀ n ∈ l, n.cutset = false) :
    CutsAbove stop layer above (cutAbove stop layer above) := by
  induction above generalizing layer with
  | nil =>
    refine ⟨⟨[], rfl, rfl⟩, rfl, fun i l j n hl hi => ?_, fun a ha => ?_, fun i ps l p hp hl => ?_⟩
    · exact absurd hi (Nat.not_lt_zero i)
    · exact absurd ha List.not_mem_nil
    · have := lt_of_level hl
      simp [cutAbove] at this
  | cons parents above ih =>
    rw [cutAbove]
    split
    · rename_i hstop
      refine ⟨⟨parents :: above, rfl, rfl⟩, rfl, fun i l j n hl hi hn hcut => ?_, fun a ha => ?_,
        fun i ps l p hp hl hle => ?_⟩
      · rw [level_cons, if_neg (Nat.ne_of_lt hi)] at hl
        rw [hblank i l hl n (Array.mem_of_getElem? hn)] at hcut
        cases hcut
      · exact absurd ha List.not_mem_nil
      · have := lt_of_level hl
        simp only [List.length_cons] at this
        omega
    · rw [foldl_flagParents]
      have hmarked := flagged_foldl parents (inexactEdges layer)
      exact (ih _ fun k l hl => hblank k l (level_cons_of_some hl)).step hmarked
        (hblank above.length parents (level_length parents above))

/-! ### The cut-set of a diagram -/

variable [BEq σ] {r : Request σ κ Extended} {cache : Cache σ Extended}
  {events : List (Event σ Extended)} {d : Diagram σ Extended}

/-- A diagram without a reduced layer needs no cut-set. -/
theorem Layered.cut_of_none (h : Layered r cache events d) (hlast : d.lastExact = none) :
    Cut r d := by
  have hall : ∀ i layer, level d.layers i = some layer → ∀ n ∈ layer, n.exact = true :=
    fun i layer hl n hn => h.exact hl (fun l hl => by rw [hlast] at hl; cases hl) hn
  have hlasting : ∀ i n, d.lasting r.kind r.cutset i n = n.exact := by
    intro i n
    unfold lasting
    rw [hlast]
  refine ⟨fun i layer j n hl hn hcut => ?_, fun a ha => ?_,
    fun i ps layer p _ hl y hy _ _ _ _ _ _ _ => ?_,
    fun i layer hl n hn _ => hall i layer hl n hn, fun layer hl n hn => ?_⟩
  · rw [(h.blank i layer hl n (Array.mem_of_getElem? hn)).cutset] at hcut
    cases hcut
  · rw [h.unlisted] at ha
    exact absurd ha List.not_mem_nil
  · rw [hlasting]
    exact hall (i + 1) layer hl y hy
  · rw [hlasting]
    exact hall 0 layer hl n hn

omit [BEq σ] in
theorem level_modify (layers : List (Layer σ Extended)) {l : Nat} (hl : l < layers.length)
    (f : Layer σ Extended → Layer σ Extended) (i : Nat) :
    level (layers.modify (layers.length - 1 - l) f) i =
      if i = l then (level layers i).map f else level layers i := by
  have hlen : (layers.modify (layers.length - 1 - l) f).length = layers.length :=
    List.length_modify ..
  rcases Nat.lt_or_ge i layers.length with hi | hi
  · rw [level_eq_getElem? (by rw [hlen]; exact hi), level_eq_getElem? hi, hlen,
      List.getElem?_modify]
    by_cases hil : i = l
    · subst hil
      simp
    · have hne : layers.length - 1 - l ≠ layers.length - 1 - i := by omega
      simp [hil, hne]
  · have hnone : ∀ ls : List (Layer σ Extended), ls.length = layers.length → level ls i = none :=
      fun ls hls => List.getElem?_eq_none (by rw [List.length_reverse, hls]; exact hi)
    rw [hnone _ hlen, hnone _ rfl, Option.map_none, ite_self]

/-- Puts a node in the cut-set if it is alive. -/
def Node.enlist (n : Node σ V) : Node σ V :=
  if n.isAlive then { n with cutset := true } else n

omit [BEq σ] in
theorem Node.uncut_enlist (n : Node σ V) : n.enlist.uncut = n.uncut := by
  unfold enlist
  split <;> rfl

omit [BEq σ] in
theorem Node.cutset_enlist {n : Node σ V} (hblank : n.cutset = false) :
    n.enlist.cutset = n.isAlive := by
  unfold enlist
  split
  · rename_i halive
    exact halive.symm
  · rename_i hdead
    rw [hblank, Bool.eq_false_iff.2 hdead]

section AtLayer

variable {l : Nat} {last : Layer σ Extended}

omit [BEq σ]

theorem level_cutAtLayer (hl : l < d.layers.length) (i : Nat) :
    level (d.cutAtLayer l).layers i =
      if i = l then (level d.layers i).map (·.map Node.enlist) else level d.layers i :=
  level_modify d.layers hl (·.map Node.enlist) i

/-- The nodes of the chosen layer that are alive are listed. -/
theorem mem_cutAtLayer (hlast : level d.layers l = some last) (a : Address) :
    a ∈ (d.cutAtLayer l).cutset ↔
      a.layer = l ∧ ∃ n, last[a.position]? = some n ∧ n.isAlive = true := by
  have hget : d.layers[d.layers.length - 1 - l]? = some last := by
    rw [← level_eq_getElem? (lt_of_level hlast)]
    exact hlast
  change a ∈ List.map _ (List.map _ (List.filter _ _)) ↔ _
  rw [hget, List.mem_map]
  constructor
  · rintro ⟨j, hj, rfl⟩
    obtain ⟨⟨n, k⟩, hk, rfl⟩ := List.mem_map.1 hj
    obtain ⟨hk, halive⟩ := List.mem_filter.1 hk
    rw [List.mk_mem_zipIdx_iff_getElem?] at hk
    exact ⟨rfl, n, by simpa using hk, halive⟩
  · rintro ⟨hal, n, hn, halive⟩
    refine ⟨a.position, List.mem_map.2 ⟨(n, a.position), List.mem_filter.2 ⟨?_, halive⟩, rfl⟩, ?_⟩
    · rw [List.mk_mem_zipIdx_iff_getElem?]
      simpa using hn
    · rw [← hal]

/-- Nothing else changes. -/
theorem uncut_cutAtLayer (d : Diagram σ V) (l : Nat) :
    (d.cutAtLayer l).layers.map (·.map Node.uncut) = d.layers.map (·.map Node.uncut) := by
  refine List.ext_getElem? fun k => ?_
  change (List.map _ (d.layers.modify _ (·.map Node.enlist)))[k]? = _
  rw [List.getElem?_map, List.getElem?_map, List.getElem?_modify]
  cases d.layers[k]? with
  | none => rfl
  | some layer =>
    simp only [Option.map_eq_map, Option.map_some]
    split
    · rw [Array.map_map]
      exact congrArg some (Array.map_congr_left fun n _ => n.uncut_enlist)
    · rfl

end AtLayer

section Relaxed

variable {l : Nat}

/-- The last exact layer lies between the root and the deepest layer. -/
theorem Layered.lastExact_lt (h : Layered r cache events d) (hkind : r.kind = .relaxed)
    (hlast : d.lastExact = some l) : 0 < l ∧ l + 1 < d.layers.length := by
  obtain ⟨hlen, hk | ⟨_, hpos⟩⟩ := h.reduced l hlast
  · rw [hkind] at hk
    cases hk
  · exact ⟨hpos, hlen⟩

/-- Down to the last exact layer all nodes are exact. -/
theorem Layered.exact_of_le (h : Layered r cache events d) (hlast : d.lastExact = some l)
    {i : Nat} (hi : i ≤ l) {layer : Layer σ Extended} (hl : level d.layers i = some layer)
    {n : Node σ Extended} (hn : n ∈ layer) : n.exact = true := by
  refine h.exact hl (fun k hk => ?_) hn
  rw [hlast] at hk
  obtain rfl := Option.some.inj hk
  exact hi

/-- **The last exact layer is a cut-set.** -/
theorem Layered.cut_lastExactLayer (h : Layered r cache events d) (hkind : r.kind = .relaxed)
    (hcutset : r.cutset = .lastExactLayer) (hlast : d.lastExact = some l) :
    Cut r (d.cutAtLayer l) := by
  obtain ⟨hpos, hlen⟩ := h.lastExact_lt hkind hlast
  have hlevel := level_cutAtLayer (d := d) (l := l) (by omega)
  obtain ⟨last, hlastl⟩ := exists_level d.layers (i := l) (by omega)
  have hlasting : ∀ i n, (d.cutAtLayer l).lasting r.kind r.cutset i n = decide (i ≤ l) := by
    intro i n
    have hlast' : (d.cutAtLayer l).lastExact = some l := hlast
    unfold lasting
    rw [hlast', hkind, hcutset]
  have hcut : ∀ n ∈ last, n.enlist.cutset = n.isAlive := fun n hn =>
    Node.cutset_enlist (h.blank l last hlastl n hn).cutset
  refine ⟨fun i layer j n hl hn hlisted => ?_, fun a ha => ?_,
    fun i ps layer p hp hl y hy _ e _ hpe halive hlas hunlisted => ?_,
    fun i layer hl n hn hlas => ?_, fun layer _ n _ => ?_⟩
  · rw [hlevel] at hl
    split at hl
    · rename_i hi
      subst hi
      rw [hlastl, Option.map_some] at hl
      obtain rfl := Option.some.inj hl
      rw [Array.getElem?_map] at hn
      obtain ⟨m, hm, rfl⟩ := Option.map_eq_some_iff.1 hn
      rw [hcut m (Array.mem_of_getElem? hm)] at hlisted
      exact (mem_cutAtLayer hlastl ⟨i, j⟩).2 ⟨rfl, m, hm, hlisted⟩
    · rw [(h.blank i layer hl n (Array.mem_of_getElem? hn)).cutset] at hlisted
      cases hlisted
  · obtain ⟨hal, n, hn, halive⟩ := (mem_cutAtLayer hlastl a).1 ha
    have hexact := h.exact_of_le hlast le_rfl hlastl (Array.mem_of_getElem? hn)
    refine ⟨last.map Node.enlist, { n with cutset := true }, ?_, ?_, hexact, halive, by omega, ?_⟩
    · rw [hlevel, if_pos hal, hal, hlastl, Option.map_some]
    · rw [Array.getElem?_map, hn, Option.map_some, Node.enlist, if_pos halive]
    · rw [cutAtLayer, List.length_modify]
      omega
  · -- All nodes of the layer that are alive are in the cut-set, so only those above it
    -- are left.
    rw [hlasting, decide_eq_true_eq] at hlas ⊢
    rcases Nat.lt_or_ge i l with hi | hi
    · exact hi
    · obtain rfl : i = l := by omega
      rw [hlevel, if_pos rfl, hlastl, Option.map_some] at hp
      obtain rfl := Option.some.inj hp
      rw [Array.getElem?_map] at hpe
      obtain ⟨m, hm, rfl⟩ := Option.map_eq_some_iff.1 hpe
      have hsame : m.enlist.isAlive = m.isAlive := (congrArg Node.isAlive m.uncut_enlist :)
      rw [hcut m (Array.mem_of_getElem? hm), ← hsame, halive] at hunlisted
      cases hunlisted
  · rw [hlasting, decide_eq_true_eq] at hlas
    rw [hlevel] at hl
    split at hl
    · obtain ⟨layer₀, hl₀, rfl⟩ := Option.map_eq_some_iff.1 hl
      obtain ⟨m, hm, rfl⟩ := Array.mem_map.1 hn
      have hsame : m.enlist.exact = m.exact := (congrArg Node.exact m.uncut_enlist :)
      rw [hsame]
      exact h.exact_of_le hlast hlas hl₀ hm
    · exact h.exact_of_le hlast hlas hl hn
  · rw [hlasting]
    exact decide_eq_true (Nat.zero_le l)

/-- **The exact nodes with an inexact child are a cut-set.** -/
theorem Layered.cut_frontier {last : Layer σ Extended} {above : List (Layer σ Extended)}
    (h : Layered r cache events d) (hkind : r.kind = .relaxed) (hcutset : r.cutset = .frontier)
    (hlast : d.lastExact = some l) (hd : d.layers = last :: above) :
    Cut r { d with layers := (cutAbove l last above).1, cutset := (cutAbove l last above).2 } ∧
      (cutAbove l last above).1.map (·.map Node.uncut) = d.layers.map (·.map Node.uncut) := by
  have hc := cutAbove_cutsAbove l last above fun k m hm n hn =>
    (h.blank k m (by rw [hd]; exact level_cons_of_some hm) n hn).cutset
  have hsame : (cutAbove l last above).1.map (·.map Node.uncut) =
      d.layers.map (·.map Node.uncut) := by rw [hd]; exact hc.same
  have hpos := (h.lastExact_lt hkind hlast).1
  have hwoven : Woven r cache events (cutAbove l last above).1 :=
    h.woven.congr (map_map_eq (f := Node.uncut) Node.core (fun _ => rfl) hsame.symm)
  generalize cutAbove l last above = c at hc hsame hwoven ⊢
  have hlasting : ∀ i n, ({ d with layers := c.1, cutset := c.2 } : Diagram σ Extended).lasting
      r.kind r.cutset i n = n.exact := by
    intro i n
    unfold lasting
    dsimp only
    rw [hlast, hkind, hcutset]
  -- An inexact node lies below the last exact layer.
  have hdeep : ∀ {i layer} {j : Nat} {n}, level c.1 i = some layer → layer[j]? = some n →
      n.exact = false → l < i := by
    intro i layer j n hl hn hex
    obtain ⟨layer', n', hl', hn', heq⟩ := node_of_map_eq hsame hl hn
    by_contra hle
    have hex' := h.exact_of_le hlast (Nat.le_of_not_lt hle) hl' (Array.mem_of_getElem? hn')
    have : n.exact = n'.exact := (congrArg Node.exact heq :)
    rw [hex, hex'] at this
    cases this
  refine ⟨⟨fun i layer j n hl hn hcut => ?_, fun a ha => ?_,
    fun i ps layer p hp hl y hy hyalive e he hpe _ hlas hcut => ?_, fun i layer _ n _ hlas => ?_,
    fun layer hl n hn => ?_⟩, hsame⟩
  · obtain ⟨rest, hrest, hlen⟩ := hc.cons
    change level c.1 i = some layer at hl
    rcases Nat.lt_or_ge i above.length with hi | hi
    · exact hc.listed i layer j n hl hi hn hcut
    · -- The deepest layer has no member.
      have hlt := lt_of_level hl
      rw [hrest, List.length_cons] at hlt
      rw [hrest, level_cons, if_pos (by omega)] at hl
      obtain rfl := Option.some.inj hl
      rw [(h.blank above.length last (by rw [hd]; exact level_length _ _) n
        (Array.mem_of_getElem? hn)).cutset] at hcut
      cases hcut
  · obtain ⟨layer, n, hl, hn, hex, layer', hl', y, hy, hyalive, hyex, e, he, hpos'⟩ := hc.sound a ha
    obtain ⟨p, hp, hfrom⟩ := ((hwoven.linked _ _ _ hl hl').joined y hy).edge e he
    rw [hpos'] at hp
    obtain rfl := Option.some.inj (hn.symm.trans hp)
    obtain ⟨k, hk⟩ := Array.mem_iff_getElem?.1 hy
    have := hdeep hl' hk hyex
    exact ⟨layer, n, hl, hn, hex, hfrom.alive, by omega, lt_of_level hl'⟩
  · rw [hlasting] at hlas ⊢
    cases hyex : y.exact with
    | true => rfl
    | false =>
      obtain ⟨k, hk⟩ := Array.mem_iff_getElem?.1 hy
      have := hdeep hl hk hyex
      rw [hc.flags i ps layer p hp hl (by omega) y hy hyalive hyex e he hpe hlas] at hcut
      cases hcut
  · rw [hlasting] at hlas
    exact hlas
  · rw [hlasting]
    obtain ⟨j, hj⟩ := Array.mem_iff_getElem?.1 hn
    exact Node.exact_eq (hwoven.eq_root hl hj).2

end Relaxed

omit [BEq σ] in
theorem markCutset_of_none (hlast : d.lastExact = none) (kind : Kind) (cutset : CutsetKind) :
    d.markCutset kind cutset = d := by
  unfold markCutset
  rw [hlast]
  cases kind <;> rfl

/-- **Collecting the cut-set of a relaxed diagram, or of one that was not
reduced, changes nothing but the cut-set.** -/
theorem markCutset_cut (h : Layered r cache events d)
    (hkind : r.kind = .relaxed ∨ d.lastExact = none) :
    Cut r (d.markCutset r.kind r.cutset) ∧
      ∃ layers cutset, d.markCutset r.kind r.cutset = { d with layers, cutset } ∧
        layers.map (·.map Node.uncut) = d.layers.map (·.map Node.uncut) := by
  rcases Option.eq_none_or_eq_some d.lastExact with hlast | ⟨l, hlast⟩
  · rw [markCutset_of_none hlast]
    exact ⟨h.cut_of_none hlast, d.layers, d.cutset, rfl, rfl⟩
  · have hk : r.kind = .relaxed := hkind.resolve_right (by simp [hlast])
    obtain ⟨last, above, hd⟩ := List.exists_cons_of_ne_nil h.woven.ne_nil
    cases hc : r.cutset with
    | lastExactLayer =>
      have heq : d.markCutset r.kind .lastExactLayer = d.cutAtLayer l := by
        unfold markCutset
        rw [hk, hlast, hd]
      rw [heq]
      exact ⟨h.cut_lastExactLayer hk hc hlast, _, _, rfl, uncut_cutAtLayer d l⟩
    | frontier =>
      obtain ⟨hcut, hsame⟩ := h.cut_frontier hk hc hlast hd
      have heq : d.markCutset r.kind .frontier =
          { d with layers := (cutAbove l last above).1, cutset := (cutAbove l last above).2 } := by
        unfold markCutset
        rw [hk, hlast, hd]
      rw [heq]
      exact ⟨hcut, _, _, rfl, hsame⟩

end DiagramSearch
