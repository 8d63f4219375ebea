/-
# Completing a layer

Once a layer is selected and fitted to its width, what became of each of its
nodes is settled (`Node.Placed`), the positions that are kept are those of the
nodes that are alive, and the layer is linked to the one above: a decision leads
to the node of its state, unless that node was dropped from a restricted
diagram or merged, and then the merged node has the edge at its relaxed cost.

* `Selected.settled`: selection alone;
* `Arrived.linked`: a layer that keeps the edges of its nodes is linked;
* `dropExcess_settled`: a restricted layer loses nodes and no edge of the others.

Merging is the subject of `DiagramSearch.Proofs.Merging`.
-/

import DiagramSearch.Proofs.Climbing
import DiagramSearch.Proofs.Selecting
import DiagramSearch.Completions
import DiagramSearch.Diagram.Unrolling

namespace DiagramSearch

open Extended

variable {σ κ : Type}

/-! ### Nodes of a completed layer -/

/-- A node of a completed layer, counted from the root: why it was set aside, if
it was. -/
structure Node.Placed [BEq σ] (r : Request σ κ Extended) (cache : Cache σ Extended)
    (events : List (Event σ Extended)) (i : Nat) (n : Node σ Extended) : Prop where
  depth : n.depth = r.residual.depth + i
  cached : n.fate = .cached → 0 < i ∧ ∃ t, cache.get? n.state n.depth = some t ∧
    n.longest ≤ t.value ∧ n.threshold = some t.value
  dominated : n.fate = .dominated → r.dominance ≠ none ∧ n.exact = true ∧
    ∃ t, n.threshold = some t ∧
    .checked n.state n.depth n.longest (some t) ∈ events
  merged : n.merged = true → r.kind = .relaxed

/-- A node of which neither the tail, nor its place in the cut-set, nor what its
children leave it is known. -/
structure Node.Blank (n : Node σ Extended) : Prop where
  tail : n.tail = none
  cutset : n.cutset = false
  borrowed : n.borrowed = false
  threshold : n.isAlive = true → n.threshold = none

/-- A completed layer, the positions that are kept of it, and whether it was
reduced. -/
structure Settled [BEq σ] (r : Request σ κ Extended) (cache : Cache σ Extended)
    (events : List (Event σ Extended)) (i : Nat) (bound : Extended) (layer : Layer σ Extended)
    (kept : List Nat) (reduced : Bool) : Prop where
  placed : ∀ n ∈ layer, n.Placed r cache events i
  blank : ∀ n ∈ layer, n.Blank
  rough : ∀ n ∈ layer, n.roughBound = bound
  kept : ∀ j, j ∈ kept ↔ ∃ n, layer[j]? = some n ∧ n.fate = .alive
  intact : reduced = false → ∀ n ∈ layer, n.merged = false ∧ n.fate ≠ .deleted

section Selection

variable [BEq σ] {r : Request σ κ Extended} {cache : Cache σ Extended}
  {events events' : List (Event σ Extended)} {i : Nat} {bound : Extended}

theorem Node.Placed.mono {n : Node σ Extended} (h : n.Placed r cache events i)
    (hsub : ∀ e ∈ events, e ∈ events') : n.Placed r cache events' i where
  depth := h.depth
  cached := h.cached
  dominated hf := by
    obtain ⟨hrel, hex, t, ht, hmem⟩ := h.dominated hf
    exact ⟨hrel, hex, t, ht, hsub _ hmem⟩
  merged := h.merged

theorem Node.Sifts.stem_eq {rel : Option (Dominance σ κ)} {isRoot : Bool} {n n' : Node σ Extended}
    (h : n.Sifts rel cache events isRoot n') : n'.stem = n.stem := by
  cases h <;> rfl

variable [BEq κ] {real : σ → Nat → Extended → Prop} {session : Session σ κ Extended}
  {isRoot : Bool} {pending : Layer σ Extended} {s : Selection σ κ Extended}

/-- A layer is settled as soon as its nodes are selected. -/
theorem Selected.settled (h : Selected r real session isRoot pending s)
    (hfresh : ∀ n ∈ pending, n.Fresh bound) (hdepth : ∀ n ∈ pending, n.depth = r.residual.depth + i)
    (hroot : isRoot = false → 0 < i) :
    Settled r session.cache s.session.events i bound s.layer (s.kept.map (·.position)) false := by
  refine ⟨fun n' hn' => ?_, fun n' hn' => ?_, fun n' hn' => ?_, h.lists.mem_iff, fun _ n' hn' => ?_⟩
  all_goals
    obtain ⟨n, hn, hsifts⟩ := h.of_mem hn'
    have hf := hfresh n hn
  · have hd := hdepth n hn
    cases hsifts with
    | kept =>
      refine ⟨hd, fun h => ?_, fun h => ?_, fun h => ?_⟩
      · rw [hf.fate] at h; cases h
      · rw [hf.fate] at h; cases h
      · rw [hf.merged] at h; cases h
    | cached hr hget hle =>
      refine ⟨hd, fun _ => ⟨hroot hr, _, hget, hle, rfl⟩, fun h => ?_, fun h => ?_⟩
      · cases h
      · change n.merged = true at h
        rw [hf.merged] at h; cases h
    | dominated hrel hex hmem =>
      refine ⟨hd, fun h => ?_, fun _ => ⟨hrel, hex, _, rfl, hmem⟩, fun h => ?_⟩
      · cases h
      · change n.merged = true at h
        rw [hf.merged] at h; cases h
  · cases hsifts with
    | kept => exact ⟨hf.tail, hf.cutset, hf.borrowed, fun _ => hf.threshold⟩
    | cached => exact ⟨hf.tail, hf.cutset, hf.borrowed, nofun⟩
    | dominated => exact ⟨hf.tail, hf.cutset, hf.borrowed, nofun⟩
  · cases hsifts <;> exact hf.roughBound
  · cases hsifts with
    | kept => exact ⟨hf.merged, by rw [hf.fate]; exact Fate.noConfusion⟩
    | cached => exact ⟨hf.merged, Fate.noConfusion⟩
    | dominated => exact ⟨hf.merged, Fate.noConfusion⟩

end Selection

/-! ### Links of a layer whose nodes keep their edges -/

/-- A layer without merged or deleted nodes in which the decisions of the layer
above have arrived. -/
structure Arrived (r : Request σ κ Extended) (i : Nat) (parents layer : Layer σ Extended) :
    Prop where
  joined : ∀ n ∈ layer, n.Joined r i parents
  intact : ∀ n ∈ layer, n.merged = false ∧ n.fate ≠ .deleted
  arrives : ∀ (j : Nat) p, parents[j]? = some p → p.isAlive = true → r.Expands i p →
    ∀ d, r.Branches i p.state d → ∃ n ∈ layer,
      n.state = r.model.problem.transition 0 p.state d ∧
        ⟨j, d, r.model.problem.cost p.state d⟩ ∈ n.inbound

section Arrived

variable {r : Request σ κ Extended} {i : Nat} {parents layer now : Layer σ Extended}

/-- Selecting the nodes of a layer leaves their edges alone. -/
theorem Selected.arrived [BEq σ] [BEq κ] {real : σ → Nat → Extended → Prop}
    {session : Session σ κ Extended} {isRoot : Bool} {pending : Layer σ Extended}
    {s : Selection σ κ Extended} {taken : Nat → Decision → Prop}
    (h : Selected r real session isRoot pending s) (hreached : Reached r i parents pending taken)
    (htaken : ∀ (j : Nat) p, parents[j]? = some p → p.isAlive = true → r.Expands i p →
      ∀ d, r.Branches i p.state d → taken j d)
    (hintact : ∀ n ∈ s.layer, n.merged = false ∧ n.fate ≠ .deleted) :
    Arrived r i parents s.layer := by
  refine ⟨fun n' hn' => ?_, hintact, fun j p hp halive hexp d hd => ?_⟩
  · obtain ⟨n, hn, hsifts⟩ := h.of_mem hn'
    exact (hreached.joined n hn).congr hsifts.stem_eq.symm rfl
  · obtain ⟨n, hn, hstate, hedge⟩ := hreached.reached j p d hp (htaken j p hp halive hexp d hd)
    obtain ⟨k, hk⟩ := Array.mem_iff_getElem?.1 hn
    obtain ⟨n', hn', hsifts⟩ := h.sifts k n hk
    refine ⟨n', Array.mem_of_getElem? hn', ?_, ?_⟩
    · rw [Node.state_eq hsifts.stem_eq]
      exact hstate
    · rw [Node.inbound_eq hsifts.stem_eq]
      exact hedge

/-- The edges of nodes that are not merged are decisions. -/
theorem Arrived.original (h : Arrived r i parents layer) {n : Node σ Extended} (hn : n ∈ layer)
    {e : Edge Extended} (he : e ∈ n.inbound) {p : Node σ Extended}
    (hp : parents[e.source]? = some p) :
    n.state = r.model.problem.transition 0 p.state e.decision ∧
      e.cost = r.model.problem.cost p.state e.decision := by
  obtain ⟨q, hq, hfrom⟩ := (h.joined n hn).edge e he
  obtain rfl := Option.some.inj (hp.symm.trans hq)
  exact hfrom.original (h.intact n hn).1

/-- So a decision leads to each of them. -/
theorem Arrived.exists_branches (h : Arrived r i parents layer) {n : Node σ Extended}
    (hn : n ∈ layer) : ∃ p ∈ parents, ∃ d, r.Branches i p.state d ∧
      n.state = r.model.problem.transition 0 p.state d := by
  obtain ⟨e, p, he, hp, _, hfrom⟩ := (h.joined n hn).from_best
  exact ⟨p, Array.mem_of_getElem? hp, e.decision, hfrom.branches,
    (hfrom.original (h.intact n hn).1).1⟩

/-- A layer that keeps the edges of the nodes that were reached is linked, as
long as only a restricted one loses nodes. -/
theorem Arrived.linked (h : Arrived r i parents layer)
    (hstem : ∀ j : Nat, now[j]?.map Node.stem = layer[j]?.map Node.stem)
    (hdeleted : ∀ n ∈ now, n.fate = .deleted → r.kind = .restricted) :
    Linked r i parents now := by
  have hold : ∀ n' ∈ now, ∃ n ∈ layer, n.stem = n'.stem := by
    intro n' hn'
    obtain ⟨j, hj⟩ := Array.mem_iff_getElem?.1 hn'
    have hj' := hstem j
    rw [hj, Option.map_some] at hj'
    obtain ⟨n, hn, heq⟩ := Option.map_eq_some_iff.1 hj'.symm
    exact ⟨n, Array.mem_of_getElem? hn, heq⟩
  refine ⟨fun n' hn' => ?joined, fun n' hn' e he p hp => ?springs,
    fun j p hp halive hexp d hd => ?receives⟩
  case joined =>
    obtain ⟨n, hn, heq⟩ := hold n' hn'
    exact (h.joined n hn).congr heq rfl
  case springs =>
    obtain ⟨n, hn, heq⟩ := hold n' hn'
    rw [← Node.inbound_eq heq] at he
    have hsprings : e.Springs r i parents n p := .inl (h.original hn he hp)
    exact hsprings.congr heq rfl rfl
  case receives =>
    obtain ⟨n, hn, hstate, hedge⟩ := h.arrives j p hp halive hexp d hd
    obtain ⟨k, hk⟩ := Array.mem_iff_getElem?.1 hn
    have hk' := hstem k
    rw [hk, Option.map_some] at hk'
    obtain ⟨n', hn', heq⟩ := Option.map_eq_some_iff.1 hk'
    have hmem := Array.mem_of_getElem? hn'
    refine ⟨n', hmem, ⟨j, d, r.model.problem.cost p.state d⟩, ?_, rfl, rfl,
      .inl ⟨?_, rfl, hdeleted n' hmem⟩⟩
    · rw [Node.inbound_eq heq]
      exact hedge
    · rw [Node.state_eq heq]
      exact hstate

end Arrived

/-! ### Dropping nodes -/

/-- The front of a list without repetitions is what is not behind it. -/
theorem mem_map_take_iff {α : Type} {f : α → Nat} {l : List α} (h : (l.map f).Nodup) (k j : Nat) :
    j ∈ (l.take k).map f ↔ j ∈ l.map f ∧ j ∉ (l.drop k).map f := by
  have hsplit : l.map f = (l.take k).map f ++ (l.drop k).map f := by
    rw [← List.map_append, List.take_append_drop]
  rw [hsplit] at h ⊢
  have hdisj := (List.nodup_append.1 h).2.2
  rw [List.mem_append]
  constructor
  · exact fun hj => ⟨.inl hj, fun hj' => hdisj j hj j hj' rfl⟩
  · rintro ⟨hj | hj, hnot⟩
    · exact hj
    · exact absurd hj hnot

section Fitting

variable [BEq σ] {r : Request σ κ Extended} {cache : Cache σ Extended} {i : Nat}
  {bound : Extended} {s : Selection σ κ Extended}

/-- **A restricted layer that is too wide loses what stands behind in the
order, and nothing else.** -/
theorem dropExcess_settled (width : Nat) (hlists : Lists s.layer s.kept)
    (h : Settled r cache s.session.events i bound s.layer (s.kept.map (·.position)) false) :
    s.session.Quiet (dropExcess r width s).session ∧ (dropExcess r width s).fault = none ∧
    Settled r cache (dropExcess r width s).session.events i bound (dropExcess r width s).layer
      (dropExcess r width s).kept true ∧
    ∀ j : Nat, ((dropExcess r width s).layer[j]?).map Node.stem = (s.layer[j]?).map Node.stem := by
  have hlists' := hlists.perm (r.reduction.perm width r.ranking s.kept)
  have hget := Layer.getElem?_foldl_delete
    ((r.reduction.sort width r.ranking s.kept).drop width) s.layer
  have hquiet : s.session.Quiet (dropExcess r width s).session :=
    (Session.quiet_record fun _ _ _ _ h => by cases h).trans (Session.quiet_note _)
  have hold : ∀ n' ∈ (dropExcess r width s).layer, ∃ n ∈ s.layer,
      n' = { n with fate := .deleted } ∨ n' = n := by
    intro n' hn'
    obtain ⟨j, hj⟩ := Array.mem_iff_getElem?.1 hn'
    obtain ⟨n, hn, rfl⟩ := Option.map_eq_some_iff.1 ((hget j).symm.trans hj)
    refine ⟨n, Array.mem_of_getElem? hn, ?_⟩
    split
    · exact .inl rfl
    · exact .inr rfl
  refine ⟨hquiet, rfl, ⟨fun n' hn' => ?_, fun n' hn' => ?_, fun n' hn' => ?_, fun j => ?_, ?_⟩,
    fun j => ?_⟩
  · obtain ⟨n, hn, rfl | rfl⟩ := hold n' hn'
    · have hp := h.placed n hn
      exact ⟨hp.depth, Fate.noConfusion, Fate.noConfusion, hp.merged⟩
    · refine (h.placed n' hn).mono fun e he => ?_
      exact List.mem_cons_of_mem _ (List.mem_cons_of_mem _ he)
  · obtain ⟨n, hn, rfl | rfl⟩ := hold n' hn'
    · exact ⟨(h.blank n hn).tail, (h.blank n hn).cutset, (h.blank n hn).borrowed, nofun⟩
    · exact h.blank n' hn
  · obtain ⟨n, hn, rfl | rfl⟩ := hold n' hn'
    · exact h.rough n hn
    · exact h.rough n' hn
  · change j ∈ ((r.reduction.sort width r.ranking s.kept).take width).map (·.position) ↔ _
    rw [mem_map_take_iff hlists'.nodup, hlists'.mem_iff]
    change _ ↔ ∃ n, (List.foldl _ s.layer _)[j]? = some n ∧ _
    rw [hget j]
    constructor
    · rintro ⟨⟨n, hn, hfate⟩, hnot⟩
      exact ⟨n, by rw [hn, Option.map_some, if_neg hnot], hfate⟩
    · rintro ⟨n', hn', hfate⟩
      obtain ⟨n, hn, rfl⟩ := Option.map_eq_some_iff.1 hn'
      split at hfate
      · cases hfate
      · rename_i hnot
        exact ⟨⟨n, hn, hfate⟩, hnot⟩
  · exact fun h => by cases h
  · change ((List.foldl _ s.layer _)[j]?).map Node.stem = _
    rw [hget j, Option.map_map]
    congr 1
    funext n
    simp only [Function.comp_apply]
    split <;> rfl

end Fitting
end DiagramSearch
