/-
# Fitting a layer to its width, node by node

What a reduction does to a layer, said for each position.  A restriction marks the nodes
in excess and leaves everything else alone.  A relaxation also marks them, and leads all
their edges, at relaxed costs, to one node: a kept one that has the merged state already,
or a new one at the end of the layer.

* `Node.attachAll`: many edges that are led to one node;
* `getElem?_foldl_redirect`: absorbing node after node is one step for each of them;
* `Fuses`: what a merge makes of a layer, `Fits`: what fitting makes of it, in one of
  three ways (`fit_fits`);
* `Fits.musters`: **what is kept of a layer are its nodes that are alive, each once**;
* `Fits.length_le`: **no more of them than the width allows**.
-/

import DiagramSearch.Proofs.Selecting
import DiagramSearch.Diagram.Unrolling

namespace DiagramSearch

variable {σ κ V : Type}

/-! ### Many edges to one node -/

section Attach

variable [Value V]

/-- Leads edges, each given with the node it starts from, to a node. -/
def Node.attachAll (m : Node σ V) (es : List (Node σ V × Edge V)) : Node σ V :=
  es.foldl (fun m pe => m.attach pe.1 pe.2) m

variable (m : Node σ V) (es fs : List (Node σ V × Edge V))

theorem Node.attachAll_append : m.attachAll (es ++ fs) = (m.attachAll es).attachAll fs :=
  List.foldl_append

/-- What no edge changes, many edges do not change. -/
theorem Node.attachAll_eq {α : Type} {g : Node σ V → α}
    (h : ∀ n p e, g (Node.attach n p e) = g n) : g (m.attachAll es) = g m := by
  induction es generalizing m with
  | nil => rfl
  | cons pe es ih => exact (ih (m.attach pe.1 pe.2)).trans (h m pe.1 pe.2)

@[simp]
theorem Node.attachAll_state : (m.attachAll es).state = m.state :=
  m.attachAll_eq es Node.attach_state

@[simp]
theorem Node.attachAll_depth : (m.attachAll es).depth = m.depth :=
  m.attachAll_eq es Node.attach_depth

@[simp]
theorem Node.attachAll_merged : (m.attachAll es).merged = m.merged :=
  m.attachAll_eq es Node.attach_merged

@[simp]
theorem Node.attachAll_fate : (m.attachAll es).fate = m.fate :=
  m.attachAll_eq es Node.attach_fate

@[simp]
theorem Node.attachAll_inbound :
    (m.attachAll es).inbound = (es.map (·.2)).reverse ++ m.inbound := by
  induction es generalizing m with
  | nil => rfl
  | cons pe es ih =>
    show ((m.attach pe.1 pe.2).attachAll es).inbound = _
    simp [ih]

/-- Steps that change one node are one step. -/
theorem foldl_modify (target : Nat) (layer : Layer σ V) :
    es.foldl (fun layer pe => layer.modify target fun m => m.attach pe.1 pe.2) layer =
      layer.modify target fun m => m.attachAll es := by
  induction es generalizing layer with
  | nil =>
    refine Array.ext_getElem? fun j => ?_
    rw [Array.getElem?_modify]
    split
    · exact (Option.map_id' ..).symm
    · rfl
  | cons pe es ih =>
    rw [List.foldl_cons, ih]
    refine Array.ext_getElem? fun j => ?_
    simp only [Array.getElem?_modify]
    split
    · rw [Option.map_map]
      rfl
    · rfl

end Attach

/-! ### Absorbed nodes -/

section Absorb

variable [Value V]

/-- The edges that an absorbed node hands over, at relaxed costs. -/
def Request.handOver (r : Request σ κ V) (parents : Layer σ V) (merged : σ) (n : Node σ V) :
    List (Node σ V × Edge V) :=
  n.inbound.filterMap fun e => parents[e.source]?.map fun p =>
    (p, { e with cost := r.model.relaxation.relax p.state n.state merged e.decision e.cost })

/-- What the nodes at some places hand over. -/
def Request.handOverAll (r : Request σ κ V) (parents layer : Layer σ V) (merged : σ)
    (cs : List (Candidate σ V)) : List (Node σ V × Edge V) :=
  cs.flatMap fun c => (layer[c.position]?.map (r.handOver parents merged)).getD []

variable {r : Request σ κ V} {parents layer : Layer σ V} {merged : σ} {target : Nat}

omit [Value V] in
theorem Request.mem_handOver {n p : Node σ V} {e : Edge V} :
    (p, e) ∈ r.handOver parents merged n ↔ ∃ f ∈ n.inbound, parents[f.source]? = some p ∧
      e = { f with cost := r.model.relaxation.relax p.state n.state merged f.decision f.cost } := by
  unfold handOver
  rw [List.mem_filterMap]
  constructor
  · rintro ⟨f, hf, heq⟩
    obtain ⟨q, hq, hpair⟩ := Option.map_eq_some_iff.1 heq
    obtain ⟨rfl, rfl⟩ := Prod.mk.inj hpair
    exact ⟨f, hf, hq, rfl⟩
  · rintro ⟨f, hf, hp, rfl⟩
    exact ⟨f, hf, by rw [hp, Option.map_some]⟩

omit [Value V] in
theorem Request.mem_handOverAll {cs : List (Candidate σ V)} {pe : Node σ V × Edge V} :
    pe ∈ r.handOverAll parents layer merged cs ↔ ∃ c ∈ cs, ∃ n, layer[c.position]? = some n ∧
      pe ∈ r.handOver parents merged n := by
  unfold handOverAll
  rw [List.mem_flatMap]
  refine exists_congr fun c => and_congr_right fun _ => ?_
  cases layer[c.position]? with
  | none => simp
  | some n => simp

/-- Absorbing a node marks it and changes the one that takes over its edges. -/
theorem redirect_eq (c : Candidate σ V) :
    redirect r parents merged target layer c =
      (layer.delete c.position).modify target fun m =>
        m.attachAll ((layer[c.position]?.map (r.handOver parents merged)).getD []) := by
  unfold redirect
  cases hn : layer[c.position]? with
  | none =>
    have hout : layer.size ≤ c.position := Array.getElem?_eq_none_iff.1 hn
    refine Array.ext_getElem? fun j => ?_
    simp only [Layer.delete, Array.getElem?_modify, Option.map_none, Option.getD_none]
    have hsame : (if c.position = j then layer[j]?.map fun n => { n with fate := .deleted }
        else layer[j]?) = layer[j]? := by
      split
      · rename_i heq
        rw [← heq, hn]
        rfl
      · rfl
    rw [hsame]
    split
    · exact (Option.map_id' ..).symm
    · rfl
  | some n =>
    dsimp only [Option.map_some, Option.getD_some]
    rw [← foldl_modify]
    unfold Request.handOver
    generalize layer.delete c.position = l
    induction n.inbound generalizing l with
    | nil => rfl
    | cons e es ih =>
      rw [List.foldl_cons, ih, List.filterMap_cons]
      cases parents[e.source]? <;> rfl

theorem getElem?_redirect_eq {c : Candidate σ V} (hc : c.position ≠ target) (j : Nat) :
    (redirect r parents merged target layer c)[j]? =
      if j = target then layer[j]?.map fun m =>
        m.attachAll ((layer[c.position]?.map (r.handOver parents merged)).getD [])
      else layer[j]?.map fun n => if j = c.position then { n with fate := .deleted } else n := by
  rw [redirect_eq]
  simp only [Layer.delete, Array.getElem?_modify]
  by_cases hj : j = target
  · subst hj
    simp [hc]
  · rw [if_neg (Ne.symm hj), if_neg hj]
    by_cases hjc : c.position = j
    · simp [hjc]
    · simp [hjc, Ne.symm hjc]

/-- **Absorbing node after node** marks all of them and leads all their edges to one. -/
theorem getElem?_foldl_redirect (cs : List (Candidate σ V)) (layer : Layer σ V)
    (hcs : ∀ c ∈ cs, c.position ≠ target) (j : Nat) :
    (cs.foldl (redirect r parents merged target) layer)[j]? =
      if j = target then layer[j]?.map fun m =>
        m.attachAll (r.handOverAll parents layer merged cs)
      else layer[j]?.map fun n =>
        if j ∈ cs.map (·.position) then { n with fate := .deleted } else n := by
  induction cs generalizing layer with
  | nil =>
    show layer[j]? = _
    split
    · exact (Option.map_id' ..).symm
    · simp
  | cons c cs ih =>
    obtain ⟨hc, hcs⟩ := List.forall_mem_cons.1 hcs
    -- What the others hand over does not depend on what became of the first.
    have hsame : r.handOverAll parents (redirect r parents merged target layer c) merged cs =
        r.handOverAll parents layer merged cs := by
      unfold Request.handOverAll
      refine List.flatMap_congr fun c' hc' => ?_
      rw [getElem?_redirect_eq hc, if_neg (hcs c' hc'), Option.map_map]
      refine congrArg (Option.getD · []) (congrArg (Option.map · _) (funext fun n => ?_))
      show r.handOver parents merged (if _ then _ else _) = _
      split <;> rfl
    rw [List.foldl_cons, ih _ hcs, hsame, getElem?_redirect_eq hc]
    split
    · rw [Option.map_map]
      refine congrArg (Option.map · _) (funext fun m => ?_)
      exact (Node.attachAll_append m _ _).symm
    · rw [Option.map_map]
      refine congrArg (Option.map · _) (funext fun n => ?_)
      show (if _ then _ else _) = _
      by_cases hjc : j = c.position
      · simp [hjc]
      · simp [hjc]

end Absorb

/-! ### Fitting a layer -/

variable [BEq σ] [BEq κ] [Value V] {audit : Audit σ κ V} {r : Request σ κ V} {path : Path}
  {above : List (Layer σ V)} {s : Selection σ κ V} {f : Fitted σ κ V}

/-- A layer some nodes of which were merged into the node at `target`, which was `start`
before it took over their edges, relaxed for the merged state. -/
structure Fuses (r : Request σ κ V) (parents : Layer σ V) (s : Selection σ κ V)
    (kept absorbed : List (Candidate σ V)) (merged : σ) (target : Nat) (start : Node σ V)
    (f : Fitted σ κ V) : Prop where
  perm : (kept ++ absorbed).Perm s.kept
  absorbs : absorbed ≠ []
  merges : merged = r.model.relaxation.merge (absorbed.map (·.state))
  marked : start.merged = true
  inexact : start.exact = false
  alive : start.fate = .alive
  /-- The merged node is one that is kept, or a new one whose state no kept one has. -/
  place : (∃ c ∈ kept, ∃ n, c.position = target ∧ (c.state == merged) = true ∧
      s.layer[target]? = some n ∧ start = { n with merged := true, exact := false } ∧
      f.kept = kept.map (·.position)) ∨
    (∀ c ∈ kept, (c.state == merged) = false) ∧ target = s.layer.size ∧ start.state = merged ∧
      start.inbound = [] ∧ start.best = none ∧ start.longest = Value.negInf ∧
      (∃ c ∈ absorbed, ∃ n, s.layer[c.position]? = some n ∧ start.depth = n.depth) ∧
      f.kept = kept.map (·.position) ++ [target]
  layer : ∀ j : Nat, f.layer[j]? =
    if j = target then some (start.attachAll (r.handOverAll parents s.layer merged absorbed))
    else s.layer[j]?.map fun n =>
      if j ∈ absorbed.map (·.position) then { n with fate := .deleted } else n

omit [BEq σ] [BEq κ] in
/-- Nodes are absorbed by one that was marked, in a layer that has it in place. -/
theorem getElem?_merge {layer now : Layer σ V} {parents : Layer σ V} {merged : σ} {target : Nat}
    {mark : Node σ V → Node σ V} {absorbed : List (Candidate σ V)} (base : Node σ V)
    (hbase : now[target]? = some base) (hother : ∀ j : Nat, j ≠ target → now[j]? = layer[j]?)
    (hfar : ∀ c ∈ absorbed, c.position ≠ target) (j : Nat) :
    (absorbed.foldl (redirect r parents merged target) (now.modify target mark))[j]? =
      if j = target then some ((mark base).attachAll (r.handOverAll parents layer merged absorbed))
      else layer[j]?.map fun n =>
        if j ∈ absorbed.map (·.position) then { n with fate := .deleted } else n := by
  have hmarked : ∀ k : Nat, k ≠ target → (now.modify target mark)[k]? = layer[k]? := by
    intro k hk
    rw [Array.getElem?_modify, if_neg (Ne.symm hk), hother k hk]
  have hsame : r.handOverAll parents (now.modify target mark) merged absorbed =
      r.handOverAll parents layer merged absorbed := by
    unfold Request.handOverAll
    exact List.flatMap_congr fun c hc => by rw [hmarked _ (hfar c hc)]
  rw [getElem?_foldl_redirect absorbed _ hfar, hsame]
  split
  · rename_i hj
    rw [hj, Array.getElem?_modify, if_pos rfl, hbase]
    rfl
  · rename_i hj
    rw [hmarked j hj]

omit [BEq κ] in
/-- **What a merge makes of a layer.** -/
theorem mergeExcess_fuses (audit : Audit σ κ V) (r : Request σ κ V) (path : Path)
    (above : List (Layer σ V)) (hlists : Lists s.layer s.kept) {width : Nat}
    (hwidth : width - 1 < s.kept.length) :
    ∃ kept absorbed merged target start, kept.length = width - 1 ∧
      Fuses r (above.headD #[]) s kept absorbed merged target start
        (mergeExcess audit r path above width s) := by
  have hperm := r.reduction.perm (width - 1) r.ranking s.kept
  unfold mergeExcess
  extract_lets sorted kept absorbed merged depth recycled target layer marked now session
    positions
  have hsplit : (kept ++ absorbed).Perm s.kept := by
    rw [List.take_append_drop]
    exact hperm
  have hlength : kept.length = width - 1 := by
    rw [List.length_take, hperm.length_eq]
    omega
  have hne : absorbed ≠ [] := by
    refine List.ne_nil_of_length_pos ?_
    rw [List.length_drop, hperm.length_eq]
    omega
  have hnodup := (hlists.perm hsplit).nodup
  rw [List.map_append] at hnodup
  have hvalid : ∀ c ∈ kept ++ absorbed, ∃ n, s.layer[c.position]? = some n ∧ n.fate = .alive :=
    fun c hc => (hlists.sound c (hsplit.mem_iff.1 hc)).imp fun n hn => ⟨hn.1, hn.2.1⟩
  cases hrec : kept.find? fun c => c.state == merged with
  | some c =>
    -- A kept node has the merged state, and takes over the edges.
    have hc := List.mem_of_find?_eq_some hrec
    have hstate : (c.state == merged) = true := by simpa using List.find?_some hrec
    obtain ⟨n, hn, halive⟩ := hvalid c (List.mem_append_left _ hc)
    have htarget : target = c.position := by simp [target, recycled, hrec]
    have hlayer : layer = s.layer := by simp [layer, recycled, hrec]
    refine ⟨kept, absorbed, merged, target, { n with merged := true, exact := false }, hlength,
      hsplit, hne, rfl, rfl, rfl, halive,
      .inl ⟨c, hc, n, htarget.symm, hstate, htarget ▸ hn, rfl, ?_⟩, fun j => ?_⟩
    · simp [positions, recycled, hrec]
    · have hfar : ∀ a ∈ absorbed, a.position ≠ target := by
        rintro a ha heq
        exact List.disjoint_of_nodup_append hnodup (List.mem_map_of_mem hc)
          (htarget ▸ heq ▸ List.mem_map_of_mem ha)
      exact getElem?_merge n (hlayer ▸ htarget ▸ hn) (fun k _ => by rw [hlayer]) hfar j
  | none =>
    -- A new node takes them over.
    have htarget : target = s.layer.size := by simp [target, recycled, hrec]
    have hlayer : layer = s.layer.push (.bare merged depth Value.negInf Value.posInf false) := by
      simp [layer, recycled, hrec]
    obtain ⟨c, rest, hcons⟩ := List.exists_cons_of_ne_nil hne
    have hc : c ∈ absorbed := hcons ▸ List.mem_cons_self
    obtain ⟨n, hn, _⟩ := hvalid c (List.mem_append_right _ hc)
    have hdepth : depth = n.depth := by simp [depth, hcons, hn]
    refine ⟨kept, absorbed, merged, target,
      { (Node.bare merged depth Value.negInf Value.posInf false : Node σ V) with
        merged := true, exact := false }, hlength, hsplit, hne, rfl, rfl, rfl, rfl,
      .inr ⟨fun a ha => ?_, htarget, rfl, rfl, rfl, rfl, ⟨c, hc, n, hn, hdepth⟩, ?_⟩, fun j => ?_⟩
    · exact Bool.eq_false_iff.2 (List.find?_eq_none.1 hrec a ha)
    · simp [positions, recycled, hrec]
    · refine getElem?_merge (.bare merged depth Value.negInf Value.posInf false) ?_
        (fun k hk => ?_) (fun a ha heq => ?_) j
      · rw [hlayer, htarget, Array.getElem?_push_size]
      · rw [hlayer, Array.getElem?_push, if_neg (htarget ▸ hk)]
      · obtain ⟨m, hm, _⟩ := hvalid a (List.mem_append_right _ ha)
        have hlt := (Array.getElem?_eq_some_iff.1 hm).1
        omega

/-- A layer that was fitted to its width: it is as it was, or nodes were dropped, or merged
into one. -/
inductive Fits (r : Request σ κ V) (above : List (Layer σ V)) (s : Selection σ κ V)
    (f : Fitted σ κ V) : Prop where
  | whole (hcase : s.kept.length ≤ max r.width 1 ∨ r.kind = .exact ∨
        r.kind = .relaxed ∧ above.length ≤ 1)
      (hlayer : f.layer = s.layer) (hkept : f.kept = s.kept.map (·.position))
  | dropped {kept dropped : List (Candidate σ V)} (hkind : r.kind = .restricted)
      (hperm : (kept ++ dropped).Perm s.kept) (hlength : kept.length = max r.width 1)
      (hlayer : ∀ j : Nat, f.layer[j]? = s.layer[j]?.map fun n =>
        if j ∈ dropped.map (·.position) then { n with fate := .deleted } else n)
      (hkept : f.kept = kept.map (·.position))
  | fused {kept absorbed : List (Candidate σ V)} {merged : σ} {target : Nat} {start : Node σ V}
      (hkind : r.kind = .relaxed) (habove : 1 < above.length)
      (hlength : kept.length = max r.width 1 - 1)
      (hfuses : Fuses r (above.headD #[]) s kept absorbed merged target start f)

omit [BEq κ] in
/-- **What fitting makes of a layer.** -/
theorem fit_fits (audit : Audit σ κ V) (r : Request σ κ V) (path : Path)
    (above : List (Layer σ V)) (hlists : Lists s.layer s.kept) :
    Fits r above s (fit audit r path above s) := by
  unfold fit
  extract_lets width whole
  split
  · rename_i hle
    exact .whole (.inl hle) rfl rfl
  · rename_i hwide
    split
    · rename_i hkind
      exact .whole (.inr (.inl hkind)) rfl rfl
    · rename_i hkind
      have hperm := r.reduction.perm width r.ranking s.kept
      have hsplit : ((r.reduction.sort width r.ranking s.kept).take width ++
          (r.reduction.sort width r.ranking s.kept).drop width).Perm s.kept := by
        rw [List.take_append_drop]
        exact hperm
      refine .dropped hkind hsplit ?_ (Layer.getElem?_foldl_delete _ s.layer) rfl
      rw [List.length_take, hperm.length_eq]
      omega
    · rename_i hkind
      split
      · rename_i habove
        have hexcess : width - 1 < s.kept.length := by omega
        obtain ⟨kept, absorbed, merged, target, start, hlength, hfuses⟩ :=
          mergeExcess_fuses audit r path above hlists hexcess
        exact .fused hkind habove hlength hfuses
      · exact .whole (.inr (.inr ⟨hkind, by omega⟩)) rfl rfl

/-! ### What is kept -/

/-- Some places are those of the nodes of a layer that are alive, each of them once. -/
structure Musters (layer : Layer σ V) (kept : List Nat) : Prop where
  nodup : kept.Nodup
  mem_iff : ∀ j : Nat, j ∈ kept ↔ ∃ n, layer[j]? = some n ∧ n.fate = .alive

omit [BEq σ] [BEq κ] [Value V] in
theorem Lists.musters {layer : Layer σ V} {cs : List (Candidate σ V)} (h : Lists layer cs) :
    Musters layer (cs.map (·.position)) :=
  ⟨h.nodup, h.mem_iff⟩

omit [BEq σ] [BEq κ] [Value V] in
/-- Some of the nodes that are alive are those that the others leave. -/
theorem Lists.mem_rest {layer : Layer σ V} {kept rest cs : List (Candidate σ V)}
    (h : Lists layer cs) (hperm : (kept ++ rest).Perm cs) :
    (kept.map (·.position)).Nodup ∧ ∀ j : Nat, j ∈ kept.map (·.position) ↔
      j ∉ rest.map (·.position) ∧ ∃ n, layer[j]? = some n ∧ n.fate = .alive := by
  have hlists := h.perm hperm
  have hnodup := hlists.nodup
  rw [List.map_append] at hnodup
  refine ⟨(List.nodup_append.1 hnodup).1, fun j => ?_⟩
  have hmem := hlists.mem_iff j
  rw [List.map_append, List.mem_append] at hmem
  constructor
  · exact fun hj => ⟨List.disjoint_of_nodup_append hnodup hj, hmem.1 (.inl hj)⟩
  · rintro ⟨hnot, halive⟩
    exact (hmem.2 halive).resolve_right hnot

omit [BEq σ] [BEq κ] [Value V] in
/-- A node that was not marked is as it was, and the others are not alive. -/
theorem alive_of_marked {n : Option (Node σ V)} {p : Prop} [Decidable p] :
    (∃ m, (n.map fun n => if p then { n with fate := .deleted } else n) = some m ∧
      m.fate = .alive) ↔ ¬p ∧ ∃ m, n = some m ∧ m.fate = .alive := by
  by_cases hp : p <;> simp [hp]

section Fused

variable {parents : Layer σ V} {kept absorbed : List (Candidate σ V)} {merged : σ} {target : Nat}
  {start : Node σ V} (hlists : Lists s.layer s.kept)
  (h : Fuses r parents s kept absorbed merged target start f)
include hlists h

omit [BEq κ]

/-- An absorbed node is not the merged one: it keeps its place, and its own edges. -/
theorem Fuses.of_mem_absorbed {c : Candidate σ V} (hc : c ∈ absorbed) : c.position ≠ target ∧
    ∃ m, s.layer[c.position]? = some m ∧
      f.layer[c.position]? = some { m with fate := .deleted } := by
  obtain ⟨m, hm, _⟩ := hlists.sound c (h.perm.mem_iff.1 (List.mem_append_right kept hc))
  have hne : c.position ≠ target := by
    rintro heq
    rcases h.place with ⟨k, hk, _, hposition, _⟩ | ⟨_, hsize, _⟩
    · have hnodup := (hlists.perm h.perm).nodup
      rw [List.map_append] at hnodup
      refine List.disjoint_of_nodup_append hnodup (List.mem_map_of_mem hk) ?_
      rw [hposition, ← heq]
      exact List.mem_map_of_mem hc
    · have hlt := (Array.getElem?_eq_some_iff.1 hm).1
      omega
  refine ⟨hne, m, hm, ?_⟩
  rw [h.layer, if_neg hne, hm, Option.map_some, if_pos (List.mem_map_of_mem hc)]

/-- Any other node than the merged one is as it was, and is kept if it is alive. -/
theorem Fuses.other {j : Nat} {n : Node σ V} (hj : j ≠ target) (hn : f.layer[j]? = some n) :
    ∃ m, s.layer[j]? = some m ∧ (n = m ∨ n = { m with fate := .deleted }) ∧
      (n.fate = .alive → j ∈ kept.map (·.position)) := by
  have halive : n.fate = .alive → j ∈ kept.map (·.position) := by
    intro halive
    refine ((hlists.mem_rest h.perm).2 j).2 (alive_of_marked.1 ⟨n, ?_, halive⟩)
    rw [← hn, h.layer, if_neg hj]
  rw [h.layer, if_neg hj] at hn
  obtain ⟨m, hm, hmark⟩ := Option.map_eq_some_iff.1 hn
  refine ⟨m, hm, ?_, halive⟩
  split at hmark
  · exact .inr hmark.symm
  · exact .inl hmark.symm

end Fused

omit [BEq κ] in
/-- The merged node is alive, and those that it absorbed are not. -/
theorem Fuses.musters {parents : Layer σ V} {kept absorbed : List (Candidate σ V)} {merged : σ}
    {target : Nat} {start : Node σ V} (hlists : Lists s.layer s.kept)
    (h : Fuses r parents s kept absorbed merged target start f) : Musters f.layer f.kept := by
  obtain ⟨hnodup, hmem⟩ := hlists.mem_rest h.perm
  have hother : ∀ j : Nat, j ≠ target → (j ∈ kept.map (·.position) ↔
      ∃ n, f.layer[j]? = some n ∧ n.fate = .alive) := by
    intro j hj
    rw [hmem, h.layer, if_neg hj, alive_of_marked]
  have htarget : ∃ n, f.layer[target]? = some n ∧ n.fate = .alive := by
    rw [h.layer, if_pos rfl]
    exact ⟨_, rfl, by rw [Node.attachAll_fate, h.alive]⟩
  rcases h.place with ⟨c, hc, _, hposition, _, _, _, hkept⟩ | ⟨_, hsize, _, _, _, _, _, hkept⟩
  · rw [hkept]
    refine ⟨hnodup, fun j => ?_⟩
    by_cases hj : j = target
    · subst hj
      exact ⟨fun _ => htarget, fun _ => hposition ▸ List.mem_map_of_mem hc⟩
    · exact hother j hj
  · -- The new node has a place of its own.
    have hnew : target ∉ kept.map (·.position) := by
      intro hin
      obtain ⟨n, hn, _⟩ := ((hmem target).1 hin).2
      have hlt := (Array.getElem?_eq_some_iff.1 hn).1
      omega
    rw [hkept]
    constructor
    · refine List.nodup_append.2 ⟨hnodup, List.nodup_singleton _, ?_⟩
      rintro j hj _ hj' rfl
      exact hnew (List.mem_singleton.1 hj' ▸ hj)
    · intro j
      rw [List.mem_append, List.mem_singleton]
      by_cases hj : j = target
      · subst hj
        exact ⟨fun _ => htarget, fun _ => .inr rfl⟩
      · simp only [hj, or_false]
        exact hother j hj

omit [BEq κ] in
/-- **What is kept of a layer are its nodes that are alive**, each of them once. -/
theorem Fits.musters (hlists : Lists s.layer s.kept) (h : Fits r above s f) :
    Musters f.layer f.kept := by
  cases h with
  | whole _ hlayer hkept =>
    rw [hlayer, hkept]
    exact hlists.musters
  | dropped _ hperm _ hlayer hkept =>
    obtain ⟨hnodup, hmem⟩ := hlists.mem_rest hperm
    rw [hkept]
    refine ⟨hnodup, fun j => ?_⟩
    rw [hmem, hlayer, alive_of_marked]
  | fused _ _ _ hfuses => exact hfuses.musters hlists

omit [BEq κ] in
/-- **No more nodes are kept than the width allows**, but of an exact diagram and of the
first two layers of a relaxed one. -/
theorem Fits.length_le (h : Fits r above s f)
    (hcase : r.kind = .restricted ∨ r.kind = .relaxed ∧ 1 < above.length) :
    f.kept.length ≤ max r.width 1 := by
  cases h with
  | whole hwhole _ hkept =>
    rw [hkept, List.length_map]
    rcases hwhole with hle | hkind | ⟨hkind, habove⟩
    · exact hle
    · rw [hkind] at hcase
      simp at hcase
    · rw [hkind] at hcase
      simp at hcase
      omega
  | dropped _ _ hlength _ hkept =>
    rw [hkept, List.length_map]
    omega
  | fused _ _ hlength hfuses =>
    rcases hfuses.place with ⟨_, _, _, _, _, _, _, hkept⟩ | ⟨_, _, _, _, _, _, _, hkept⟩
    · rw [hkept, List.length_map]
      omega
    · simp only [hkept, List.length_append, List.length_map, List.length_singleton]
      omega

end DiagramSearch
