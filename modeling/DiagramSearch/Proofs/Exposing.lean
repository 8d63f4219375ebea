/-
# Bounds that are found to be at fault

An exact diagram that nothing rules out holds every state that decisions lead to, and
the tail of a node is then the optimum of its state.  So the check of its bounds tells
whether a bound of the model is below what a state can still gain, and where.

* `Unabridged.reaches`, `Grown.tail_eq_iff`: **such a diagram misses no state and no
  completion**;
* `Request.compile_exposes`: **a bound is reported if and only if one is at fault**, and
  what is told of it is true.
-/

import DiagramSearch.Proofs.Intercepting

namespace DiagramSearch

open Extended Diagram

variable {σ κ : Type}

/-! ### Completions of a state -/

namespace Request

variable (r : Request σ κ Extended)

/-- A state of a layer from which decisions lead to the end. -/
def Completable (i : Nat) (s : σ) : Prop :=
  ∃ ds free' s' v, r.model.problem.Leads r.branching (r.freeAt i) s 0 ds free' s' v ∧
    r.branching free' [] = none

/-- A state that is reached where a variable is still picked, and that can gain more than
the bound of the model allows for. -/
structure Exceeds (i : Nat) (s : σ) : Prop where
  reached : ∃ ds v, r.Traced i ds s v
  picks : r.branching (r.freeAt i) [] ≠ none
  completable : r.Completable i s
  surpasses : Value.surpasses (r.optimumAt i s)
    (r.model.relaxation.upperBound s (r.freeAt i)) = true

variable {r}

/-- A state has a completion if and only if it has an optimum. -/
theorem completable_iff (hcost : ∀ s d, Value.isFinite (r.model.problem.cost s d) = true)
    {i : Nat} {s : σ} : r.Completable i s ↔ r.optimumAt i s ≠ negInf := by
  constructor
  · rintro ⟨ds, free', s', v, hds, hnone⟩ hneg
    have hle := hds.add_optimum_le
    rw [Problem.optimum_of_none hnone, add_zero, zero_add] at hle
    exact hds.ne_negInf hcost nofun (le_negInf_iff.1 (hle.trans_eq hneg))
  · intro hne
    obtain ⟨ds, free', s', hds, hnone⟩ := Problem.exists_leads 0 hne
    exact ⟨ds, free', s', _, hds, hnone⟩

end Request

/-! ### Diagrams that leave nothing out -/

/-- If no value is to be beaten and no bound gives a state up, all that is reached is
worth expanding. -/
theorem Request.expands_iff {r : Request σ κ Extended} (hbeat : r.toBeat = negInf)
    (hopen : ∀ s free, r.model.relaxation.upperBound s free ≠ negInf) {i : Nat}
    {n : Node σ Extended} : r.Expands i n ↔ n.longest ≠ negInf := by
  rw [Request.Expands, hbeat, negInf_lt_iff, add_ne_negInf_iff]
  exact and_iff_left (hopen _ _)

/-- A request for an exact diagram of which no node is ruled out: no value is to be
beaten, nothing is remembered and nothing is dominated. -/
structure Request.Exhaustive (r : Request σ κ Extended) [BEq σ] (cache : Cache σ Extended) :
    Prop where
  tame : r.Tame
  finite : ∀ s d, Value.isFinite (r.model.problem.cost s d) = true
  open_bound : ∀ s free, r.model.relaxation.upperBound s free ≠ negInf
  kind : r.kind = .exact
  toBeat : r.toBeat = negInf
  dominance : r.dominance = none
  forgets : ∀ state depth, cache.get? state depth = none
  value : r.residual.value ≠ negInf

/-- Layers of which every node takes part and is worth expanding. -/
structure Unabridged [BEq σ] (r : Request σ κ Extended) (cache : Cache σ Extended)
    (events : List (Event σ Extended)) (layers : List (Layer σ Extended)) : Prop
    extends Sketched r cache events layers where
  alive : ∀ i layer, level layers i = some layer → ∀ n ∈ layer, n.isAlive = true
  expands : ∀ i layer, level layers i = some layer → ∀ n ∈ layer, r.Expands i n
  original : ∀ i layer, level layers i = some layer → ∀ n ∈ layer, n.exact = true
  /-- No node of the layer below is dropped. -/
  kind : r.kind ≠ .restricted

section Unabridged

variable [BEq σ] {r : Request σ κ Extended} {cache : Cache σ Extended}
  {events : List (Event σ Extended)} {layers : List (Layer σ Extended)} {d : Diagram σ Extended}

/-- **An exhaustive diagram leaves nothing out.** -/
theorem Grown.unabridged (hg : Grown r cache events d) (hend : Ended r d)
    (hr : r.Exhaustive cache) : Unabridged r cache events d.layers := by
  have hkind : r.kind ≠ .relaxed := by
    rw [hr.kind]
    exact nofun
  have hexact : ∀ {i layer} {n : Node σ Extended}, level d.layers i = some layer → n ∈ layer →
      ∃ ds, n.exact = true ∧ r.Traced i ds n.state n.longest := by
    intro i layer n hl hn
    obtain ⟨j, hj⟩ := Array.mem_iff_getElem?.1 hn
    have hex := hg.woven.exact_of_kind hkind hl hj
    exact ⟨_, hex, hg.woven.traced hl hj hex⟩
  have hwhole : d.lastExact = none := by
    refine Option.eq_none_iff_forall_not_mem.2 fun l hl => ?_
    rcases (hg.reduced l hl).2 with hk | ⟨hk, _⟩
    · rw [hr.kind] at hk
      cases hk
    · exact hkind hk
  refine ⟨hg.sketched hend, fun i layer hl n hn => ?_, fun i layer hl n hn => ?_,
    fun i layer hl n hn => (hexact hl hn).choose_spec.1, by rw [hr.kind]; exact nofun⟩
  · have hplaced := hg.woven.placed i layer hl n hn
    have hintact := hg.intact i layer hl (fun l hl => by rw [hwhole] at hl; cases hl) n hn
    rw [Node.isAlive]
    cases hfate : n.fate with
    | alive => rfl
    | cached =>
      obtain ⟨_, t, ht, _⟩ := hplaced.cached hfate
      rw [hr.forgets] at ht
      cases ht
    | dominated => exact absurd hr.dominance (hplaced.dominated hfate).1
    | deleted => exact absurd hfate hintact.2
  · obtain ⟨ds, _, htraced⟩ := hexact hl hn
    exact (Request.expands_iff hr.toBeat hr.open_bound).2
      (htraced.2.ne_negInf hr.finite hr.value)

/-- It still does when its tails are known. -/
theorem Unabridged.congr {layers' : List (Layer σ Extended)} (h : Unabridged r cache events layers)
    (hskel : layers.map (·.map Node.skeleton) = layers'.map (·.map Node.skeleton)) :
    Unabridged r cache events layers' := by
  have hback : ∀ {i layer'} {n' : Node σ Extended}, level layers' i = some layer' → n' ∈ layer' →
      ∃ layer n, level layers i = some layer ∧ n ∈ layer ∧ n.core = n'.core := by
    intro i layer' n' hl' hn'
    obtain ⟨j, hj⟩ := Array.mem_iff_getElem?.1 hn'
    obtain ⟨layer, n, hl, hn, hnode⟩ := node_of_map_eq (core_of_skeleton hskel).symm hl' hj
    exact ⟨layer, n, hl, Array.mem_of_getElem? hn, hnode.symm⟩
  refine ⟨h.toSketched.congr hskel, fun i layer' hl' n' hn' => ?_, fun i layer' hl' n' hn' => ?_,
    fun i layer' hl' n' hn' => ?_, h.kind⟩
  · obtain ⟨layer, n, hl, hn, hcore⟩ := hback hl' hn'
    rw [← Node.isAlive_eq hcore]
    exact h.alive i layer hl n hn
  · obtain ⟨layer, n, hl, hn, hcore⟩ := hback hl' hn'
    have hstem := Node.stem_eq_of_core_eq hcore
    rw [Request.Expands, ← Node.longest_eq hstem, ← Node.state_eq hstem]
    exact h.expands i layer hl n hn
  · obtain ⟨layer, n, hl, hn, hcore⟩ := hback hl' hn'
    rw [← Node.exact_eq (Node.stem_eq_of_core_eq hcore)]
    exact h.original i layer hl n hn

namespace Unabridged

variable {i j : Nat} {layer : Layer σ Extended} {n p : Node σ Extended} {ds : Path} {s : σ}
  {v : Extended}

/-- Where a variable is picked the diagram goes on. -/
theorem lt_length (h : Unabridged r cache events layers) (hl : level layers i = some layer)
    (hn : n ∈ layer) (hi : r.branching (r.freeAt i) [] ≠ none) : i + 1 < layers.length := by
  have hlt := lt_of_level hl
  by_contra hge
  rcases h.ended i layer hl (by omega) with hnone | hdead
  · exact hi hnone
  · have halive := h.alive i layer hl n hn
    rw [hdead n hn] at halive
    cases halive

/-- **Every decision leads to a node of the next layer.** -/
theorem child (h : Unabridged r cache events layers) (hl : level layers i = some layer)
    (hp : layer[j]? = some p) {d : Decision} (hd : r.Branches i p.state d) :
    ∃ below, level layers (i + 1) = some below ∧ ∃ n ∈ below,
      n.state = r.model.problem.transition 0 p.state d ∧
        ∃ e ∈ n.inbound, e.source = j ∧ e.cost = r.model.problem.cost p.state d := by
  have hmem := Array.mem_of_getElem? hp
  have hpicks : r.branching (r.freeAt i) [] ≠ none := by
    obtain ⟨x, hx, _⟩ := hd
    rw [hx]
    exact nofun
  obtain ⟨below, hbelow⟩ := exists_level layers (h.lt_length hl hmem hpicks)
  obtain ⟨n, hn, e, he, hsource, _, hkind⟩ := (h.woven.linked i layer below hl hbelow).receives j p
    hp (h.alive i layer hl p hmem) (h.expands i layer hl p hmem) d hd
  rcases hkind with ⟨hstate, hcost, _⟩ | ⟨_, hinexact, _⟩
  · exact ⟨below, hbelow, n, hn, hstate, e, he, hsource, hcost⟩
  · rw [h.original (i + 1) below hbelow n hn] at hinexact
    cases hinexact

/-- **Every state that decisions lead to has its node.** -/
theorem reaches (h : Unabridged r cache events layers) (htraced : r.Traced i ds s v) :
    ∃ layer, level layers i = some layer ∧ ∃ n ∈ layer, n.state = s := by
  obtain ⟨hlen, hleads⟩ := htraced
  subst hlen
  generalize hfree : r.freeAt ds.length = free at hleads
  induction hleads with
  | refl =>
    obtain ⟨n, hn, hstem⟩ := h.woven.root
    exact ⟨_, hn, n, Array.mem_singleton.2 rfl, Node.state_eq hstem⟩
  | @step ds free' s' v' x d hleads hx hd ih =>
    have heq : free' = r.freeAt ds.length := hleads.free_eq_freeAt
    subst heq
    obtain ⟨layer, hl, p, hp, rfl⟩ := ih rfl
    obtain ⟨j, hj⟩ := Array.mem_iff_getElem?.1 hp
    obtain ⟨below, hbelow, n, hn, hstate, _⟩ := h.child hl hj ⟨x, hx, hd⟩
    exact ⟨below, hbelow, n, hn, hstate⟩

/-- **No tail falls short of the optimum.**  The induction is from the deepest layer
upwards. -/
theorem le_tail {i j : Nat} {layer : Layer σ Extended} {n : Node σ Extended}
    (h : Unabridged r cache events layers) (htailed : Tailed layers)
    (hl : level layers i = some layer) (hn : layer[j]? = some n)
    (hne : r.optimumAt i n.state ≠ negInf) :
    ∃ w, n.tail = some w ∧ r.optimumAt i n.state ≤ w := by
  have hlt := lt_of_level hl
  have hmem := Array.mem_of_getElem? hn
  by_cases hpicks : r.branching (r.freeAt i) [] = none
  · have hlast : i + 1 = layers.length := by
      by_contra hlast
      exact h.branches i (by omega) hpicks
    refine ⟨0, htailed.last i layer hl hlast n hmem (h.alive i layer hl n hmem), ?_⟩
    rw [Request.optimumAt_of_none hpicks]
  · obtain ⟨d, hd, heq⟩ := Request.exists_branches hpicks hne
    obtain ⟨below, hbelow, m, hm, hstate, e, he, hsource, hcost⟩ := h.child hl hn hd
    obtain ⟨k, hk⟩ := Array.mem_iff_getElem?.1 hm
    have hgo : r.optimumAt (i + 1) m.state ≠ negInf := by
      rw [← heq] at hne
      rw [hstate]
      exact (add_ne_negInf_iff.1 hne).2
    obtain ⟨t, ht, hle⟩ := h.le_tail htailed hbelow hk hgo
    obtain ⟨w, hw, hle'⟩ := htailed.lift i layer below hl hbelow m hm t ht e he n (hsource ▸ hn)
    refine ⟨w, hw, ?_⟩
    calc r.optimumAt i n.state
        = r.model.problem.cost n.state d +
            r.optimumAt (i + 1) (r.model.problem.transition 0 n.state d) := heq.symm
      _ = r.optimumAt (i + 1) m.state + e.cost := by rw [hstate, hcost, add_comm]
      _ ≤ t + e.cost := add_le_add_left hle _
      _ ≤ w := hle'
termination_by layers.length - i

end Unabridged

/-- The tails that are marked change nothing that an unabridged diagram holds. -/
theorem Grown.unabridged_markBounds (hg : Grown r cache events d) (hend : Ended r d)
    (hr : r.Exhaustive cache) : Unabridged r cache events d.markBounds.layers :=
  (hg.unabridged hend hr).congr (skeleton_of_untailed (untailed_markBounds d).symm)

/-- **The tail of a node is the optimum of its state**, if there is one. -/
theorem Grown.tail_eq_iff (hg : Grown r cache events d) (hend : Ended r d)
    (hr : r.Exhaustive cache) {i : Nat} {layer : Layer σ Extended} {n : Node σ Extended}
    (hl : level d.markBounds.layers i = some layer) (hn : n ∈ layer) {w : Extended}
    (hne : w ≠ negInf) : n.tail = some w ↔ r.optimumAt i n.state = w := by
  have hkind : r.kind ≠ .relaxed := by
    rw [hr.kind]
    exact nofun
  obtain ⟨j, hj⟩ := Array.mem_iff_getElem?.1 hn
  have hwhole := hg.unabridged_markBounds hend hr
  have hwithin : ∀ w, n.tail = some w → w ≤ r.optimumAt i n.state :=
    markBounds_within hg hend (fun k l hl m hm => Bool.eq_false_iff.2 fun hmerged =>
      hkind ((hg.woven.placed k l hl m hm).merged hmerged)) i layer hl j n hj
  have htail : r.optimumAt i n.state ≠ negInf → n.tail = some (r.optimumAt i n.state) := by
    intro hopt
    obtain ⟨t, ht, hle⟩ := hwhole.le_tail (tailed_markBounds d) hl hj hopt
    rw [ht, le_antisymm (hwithin t ht) hle]
  constructor
  · intro hw
    have hopt : r.optimumAt i n.state ≠ negInf := fun hneg =>
      hne (le_negInf_iff.1 ((hwithin w hw).trans_eq hneg))
    exact Option.some.inj ((htail hopt).symm.trans hw)
  · rintro rfl
    exact htail hne

/-- What is found to be inadmissible is a bound that is at fault. -/
theorem Grown.exceeds_of_inadmissible? (hg : Grown r cache events d) (hend : Ended r d)
    (hr : r.Exhaustive cache) (hpicks : r.branching (r.freeAt 0) [] ≠ none)
    {fault : Fault σ Extended} (hfault : d.markBounds.inadmissible? = some fault) :
    ∃ i s, r.Exceeds i s ∧ fault = .inadmissible s (r.residual.depth + i)
      (r.model.relaxation.upperBound s (r.freeAt i)) (r.optimumAt i s) := by
  obtain ⟨i, layer, hl, n, hn, halive, w, hw, hsurpasses, rfl⟩ := exists_of_inadmissible? hfault
  obtain ⟨j, hj⟩ := Array.mem_iff_getElem?.1 hn
  have hne : w ≠ negInf := by
    rintro rfl
    rw [not_surpasses (negInf_le _)] at hsurpasses
    cases hsurpasses
  obtain rfl := (hg.tail_eq_iff hend hr hl hn hne).1 hw
  have hwhole := hg.unabridged_markBounds hend hr
  have hi : r.branching (r.freeAt i) [] ≠ none := by
    -- Below the root the nodes of the deepest layer have no bound.
    intro hnone
    have hlt := lt_of_level hl
    have hlast : i + 1 = d.markBounds.layers.length := by
      by_contra hlast
      exact hwhole.branches i (by omega) hnone
    have hi : i ≠ 0 := fun hi => hpicks (hi ▸ hnone)
    rw [hwhole.rough i layer hl hlast n hn, if_neg hi, not_surpasses (le_posInf _)] at hsurpasses
    cases hsurpasses
  have hbound := hwhole.bounded i layer hl (hwhole.lt_length hl hn hi) n hn halive
  have hdepth := (hwhole.woven.placed i layer hl n hn).depth
  rw [hbound] at hsurpasses
  refine ⟨i, n.state, ⟨⟨_, _, hwhole.woven.traced hl hj (hwhole.original i layer hl n hn)⟩, hi,
    (Request.completable_iff hr.finite).2 hne, hsurpasses⟩, ?_⟩
  rw [hbound, hdepth]

/-- **A bound that is at fault is found.** -/
theorem Grown.inadmissible?_of_exceeds (hg : Grown r cache events d) (hend : Ended r d)
    (hr : r.Exhaustive cache) {i : Nat} {s : σ} (h : r.Exceeds i s) :
    d.markBounds.inadmissible? ≠ none := by
  intro hnone
  obtain ⟨ds, v, htraced⟩ := h.reached
  have hwhole := hg.unabridged_markBounds hend hr
  obtain ⟨layer, hl, n, hn, rfl⟩ := hwhole.reaches htraced
  have halive := hwhole.alive i layer hl n hn
  have hbound := hwhole.bounded i layer hl (hwhole.lt_length hl hn h.picks) n hn halive
  have htail := (hg.tail_eq_iff hend hr hl hn ((Request.completable_iff hr.finite).1
    h.completable)).2 rfl
  have hfits := inadmissible?_eq_none_iff.1 hnone layer
    (List.mem_reverse.1 (List.mem_of_getElem? hl)) n hn halive _ htail
  rw [hbound, h.surpasses] at hfits
  cases hfits

end Unabridged

/-! ### The reported bound -/

/-- **A bound is reported if and only if one is at fault**: an exact compilation that
checks the bounds fails if and only if a state that is reached while a variable is picked
can be completed for more than its bound.  It then tells the depth of such a state, its
bound and what it can really gain. -/
theorem Request.compile_exposes [BEq σ] [LawfulBEq σ] [Hashable σ] [BEq κ]
    (r : Request σ κ Extended) (session : Session σ κ Extended) (hr : r.Exhaustive session.cache)
    (htotal : r.branching.Total) (hwatch : r.checks.watches = true)
    (hfree : (r.residual.free r.model.problem.variables).size ≠ 0) :
    ((∃ state depth bound actual,
        (r.compile session).outcome = .error (.inadmissible state depth bound actual)) ↔
      ∃ i s, r.Exceeds i s) ∧
    ∀ fault, (r.compile session).outcome = .error fault → ∃ i s, r.Exceeds i s ∧
      fault = .inadmissible s (r.residual.depth + i)
        (r.model.relaxation.upperBound s (r.freeAt i)) (r.optimumAt i s) := by
  have hkind : r.kind ≠ .relaxed := by
    rw [hr.kind]
    exact nofun
  have hpicks : r.branching (r.freeAt 0) [] ≠ none := by
    intro hnone
    have hsome := htotal (r.freeAt 0) [] hfree
    rw [hnone] at hsome
    cases hsome
  -- Nothing goes wrong before the bounds are checked.
  have hunrolled : (r.unroll r.audit session).fault = none :=
    r.fault_unroll hr.tame (fun h => absurd h hkind) r.audit_discreet (fun h => absurd h hkind)
      session
  have hu := r.unroll_unrolls hr.tame r.audit_discreet session hunrolled
  have herror : ∀ fault, (r.compile session).outcome = .error fault ↔
      (r.unroll r.audit session).diagram.markBounds.inadmissible? = some fault := by
    intro fault
    rw [← Request.evaluate_error_iff (r.unroll r.audit session).session hwatch hkind]
    unfold compile compileWith
    dsimp only
    rw [hunrolled]
  have htold : ∀ fault, (r.compile session).outcome = .error fault → ∃ i s, r.Exceeds i s ∧
      fault = .inadmissible s (r.residual.depth + i)
        (r.model.relaxation.upperBound s (r.freeAt i)) (r.optimumAt i s) := fun fault hfault =>
    hu.grown.exceeds_of_inadmissible? hu.ended hr hpicks ((herror fault).1 hfault)
  refine ⟨⟨?_, ?_⟩, htold⟩
  · rintro ⟨state, depth, bound, actual, hfault⟩
    obtain ⟨i, s, hexceeds, _⟩ := htold _ hfault
    exact ⟨i, s, hexceeds⟩
  · rintro ⟨i, s, hexceeds⟩
    obtain ⟨fault, hfound⟩ := Option.ne_none_iff_exists'.1
      (hu.grown.inadmissible?_of_exceeds hu.ended hr hexceeds)
    have hfault := (herror fault).2 hfound
    obtain ⟨j, t, _, rfl⟩ := htold fault hfault
    exact ⟨_, _, _, _, hfault⟩

/-- Two picks that are taken to be worth nothing more once one was picked. -/
def stintedRequest (kind : Kind) : Request Nat Unit Extended :=
  let r := twoPicksRequest kind none
  { r with
    model :=
      { r.model with
        relaxation :=
          { r.model.relaxation with
            upperBound := fun s _ => if s = 1 then finite 0 else posInf } } }

theorem stintedRequest_tame (kind : Kind) : (stintedRequest kind).Tame :=
  let h := twoPicksRequest_regular kind none
  ⟨h.isPure, h.static⟩

theorem stintedRequest_open (kind : Kind) (s : Nat) (free : Variables) :
    (stintedRequest kind).model.relaxation.upperBound s free ≠ negInf := by
  change (if s = 1 then finite 0 else posInf) ≠ negInf
  split
  · exact nofun
  · exact nofun

theorem stintedRequest_exhaustive :
    (stintedRequest .exact).Exhaustive (Session.fresh : Session Nat Unit Extended).cache where
  tame := stintedRequest_tame .exact
  finite := (twoPicksRequest_regular .exact none).finite
  open_bound := stintedRequest_open .exact
  kind := rfl
  toBeat := rfl
  dominance := rfl
  forgets _ _ := rfl
  value := nofun

/-- After a first pick of one, a second one can be gained. -/
theorem stintedRequest_exceeds : (stintedRequest .exact).Exceeds 1 1 where
  reached := by
    have hpick : (stintedRequest .exact).Branches 0 0 ⟨0, 1⟩ :=
      ⟨⟨0, by decide⟩, by decide, List.mem_cons_of_mem _ List.mem_cons_self⟩
    exact ⟨_, _, (Request.Traced.root (stintedRequest .exact)).step hpick⟩
  picks := by decide
  completable := (Request.completable_iff stintedRequest_exhaustive.finite).2 (by decide +kernel)
  surpasses := by decide +kernel

theorem Request.compile_exposes_stinted : ∃ i s, (stintedRequest .exact).Exceeds i s ∧
    ((stintedRequest .exact).compile .fresh).outcome = .error (.inadmissible s (0 + i)
      (if s = 1 then finite 0 else posInf) ((stintedRequest .exact).optimumAt i s)) := by
  obtain ⟨hiff, htold⟩ := Request.compile_exposes (stintedRequest .exact) .fresh
    stintedRequest_exhaustive (twoPicks_lawful .maximize false none).total rfl (by decide)
  obtain ⟨_, _, _, _, hfault⟩ := hiff.2 ⟨1, 1, stintedRequest_exceeds⟩
  obtain ⟨i, s, hexceeds, heq⟩ := htold _ hfault
  exact ⟨i, s, hexceeds, hfault.trans (congrArg Except.error heq)⟩

end DiagramSearch
