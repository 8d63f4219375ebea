/-
# What the cut-set intercepts

A relaxed diagram hands out the sub-problems of its cut-set in place of the one it was
compiled for.  Nothing is lost by that: whatever beats the value to beat is found in an
exact node of the deepest layer, or can still be reached from a sub-problem that is
handed out.  The bound of a sub-problem is the least of three, two of which are read
off a diagram with merged and ruled out nodes; as long as the sub-problem can beat the
value to beat, none of them is below what it is worth.

* `Evaluated.intercepts`: **the optimum is found or handed out**;
* `Evaluated.promise_le_bound`: **what is handed out is bounded from above**;
* `Request.compile_intercepts`: both, for every relaxed compilation without cache and
  dominance, and for both kinds of cut-sets.
-/

import DiagramSearch.Proofs.Optimality

namespace DiagramSearch

open Extended Diagram

variable {σ κ : Type}

namespace Request

/-- The most that the requested sub-problem is worth. -/
def optimal (r : Request σ κ Extended) : Extended :=
  r.residual.value + r.optimumAt 0 r.residual.state

/-- The most that a sub-problem is worth, over the variables that are free at its depth
of the diagram. -/
def promise (r : Request σ κ Extended) (z : Subproblem σ Extended) : Extended :=
  z.value + r.optimumAt (z.depth - r.residual.depth) z.state

variable {r : Request σ κ Extended}

/-- If paths tell which variables are free, these are the free variables of the
sub-problem. -/
theorem Traced.free_eq (hfocus : r.model.problem.Focused) {i : Nat} {ds : Path} {s : σ}
    {v : Extended} (h : r.Traced i ds s v) {z : Subproblem σ Extended}
    (hpath : z.path = r.residual.path ++ ds) :
    z.free r.model.problem.variables = r.freeAt i := by
  rw [h.2.wanders.free_eq_foldl hfocus (List.Perm.refl ds), Subproblem.free,
    Subproblem.freeAfter, hpath, List.foldl_append]
  rfl

end Request

section Evaluated

variable [BEq σ] {r : Request σ κ Extended} {session : Session σ κ Extended}
  {c : Compiled σ κ Extended}

/-- Nothing escapes to a cache that holds no threshold. -/
theorem not_escapes {cache : Cache σ Extended} (h : ∀ state depth, cache.get? state depth = none)
    (target : Extended) (i : Nat) : ¬Escapes r cache target i := by
  rintro ⟨k, s, t, _, ht, _⟩
  rw [h] at ht
  cases ht

/-- **The optimum is found or handed out**, if it beats the value to beat. -/
theorem Evaluated.intercepts (h : Evaluated r session c) (hr : r.Regular)
    (hkind : r.kind = .relaxed) (hdom : r.dominance = none)
    (hcache : ∀ state depth, session.cache.get? state depth = none)
    (hbeat : r.toBeat < r.optimal) :
    (∃ v, c.diagram.bestExactValue = some v ∧ r.optimal ≤ v) ∨
      ∃ z ∈ c.diagram.handOut.1, r.optimal ≤ r.promise z := by
  have hne : r.optimal ≠ negInf := negInf_lt_iff.1 ((negInf_le _).trans_lt hbeat)
  have hroot : r.loose r.optimal r.residual.depth r.residual.state r.residual.value :=
    (Request.loose_add (i := 0)).2 le_rfl
  rcases (h.surveyed (.inl hkind)).finds hr (Request.thread_loose hne) hbeat hroot with
    hescapes | hlost | hfound | ⟨k, j, n, hemits⟩
  · exact absurd hescapes (not_escapes hcache _ _)
  · exact absurd hdom hlost.1
  · exact .inl (h.ranked.exists_bestExactValue hfound)
  · obtain ⟨z, hz, hstate, hvalue, hdepth, _⟩ := hemits.handOut h (.inl hkind)
    refine .inr ⟨z, hz, ?_⟩
    rw [Request.promise, hstate, hvalue, hdepth, Nat.add_sub_cancel_left]
    exact Request.loose_add.1 hemits.safe

/-- **What is handed out is bounded from above**, if it can beat the value to beat. -/
theorem Evaluated.promise_le_bound (h : Evaluated r session c) (hr : r.Regular)
    (hkind : r.kind = .relaxed) (hdom : r.dominance = none)
    (hcache : ∀ state depth, session.cache.get? state depth = none) {z : Subproblem σ Extended}
    (hz : z ∈ c.diagram.handOut.1) (hbeat : r.toBeat < r.promise z) : r.promise z ≤ z.bound := by
  have hsurvey := h.surveyed (.inl hkind)
  obtain ⟨a, ha, layer, n, tail, best, hl, hn, htail, hbest, heq⟩ := hsurvey.cut.node_of_handOut hz
  have hdepth := (hsurvey.woven.placed a.layer layer hl n (Array.mem_of_getElem? hn)).depth
  have hpromise : r.promise z = n.longest + r.optimumAt a.layer n.state := by
    rw [heq, Request.promise]
    dsimp only
    rw [hdepth, Nat.add_sub_cancel_left]
  rw [hpromise] at hbeat ⊢
  generalize hu : n.longest + r.optimumAt a.layer n.state = target at hbeat ⊢
  have hne : target ≠ negInf := negInf_lt_iff.1 ((negInf_le _).trans_lt hbeat)
  have harrives : Arrives r c.diagram.layers target (r.loose target) (·.longest) a.layer layer
      a.position n n.longest := ⟨hl, hn, le_rfl, .of_reach hu.ge⟩
  rcases hsurvey.emits_of_cutset hr (Request.thread_loose hne) hbeat harrives ha with
    hescapes | hlost | hemits
  · exact absurd hescapes (not_escapes hcache _ _)
  · exact absurd hdom hlost.1
  · -- The three bounds, one after the other.
    obtain ⟨tail', htail', hle⟩ := hemits.tail
    obtain rfl := Option.some.inj (htail.symm.trans htail')
    obtain ⟨best', hbest', hle'⟩ := h.ranked.exists_bestValue hemits.best
    obtain rfl := Option.some.inj (hbest.symm.trans hbest')
    rw [heq]
    exact le_min (le_min hemits.rough hle) hle'

end Evaluated

/-- **A relaxed compilation loses nothing that beats the value to beat**, and bounds
what it hands out. -/
theorem Request.compile_intercepts [BEq σ] [LawfulBEq σ] [Hashable σ] [BEq κ]
    (r : Request σ κ Extended) (hr : r.Regular) (hkind : r.kind = .relaxed)
    (hdom : r.dominance = none) (session : Session σ κ Extended)
    (hcache : ∀ state depth, session.cache.get? state depth = none) :
    ((r.checks = .extended → r.model.problem.Focused) →
      ∃ report, (r.compile session).outcome = .ok report) ∧
    ∀ report, (r.compile session).outcome = .ok report →
      (r.toBeat < r.optimal →
        (∃ v, (r.compile session).diagram.bestExactValue = some v ∧ r.optimal ≤ v) ∨
          ∃ z ∈ (r.compile session).diagram.handOut.1, r.optimal ≤ r.promise z) ∧
      ∀ z ∈ (r.compile session).diagram.handOut.1,
        (r.toBeat < r.promise z → r.promise z ≤ z.bound) ∧
        (r.model.problem.Focused →
          r.promise z = z.value + r.model.problem.optimum r.branching
            (z.free r.model.problem.variables) z.state) := by
  refine ⟨fun hfocus => Request.exists_compile_ok hr (fun _ => hfocus)
    (fun _ h => absurd hkind h) session, fun report hok => ?_⟩
  obtain ⟨mid, _, hmid, h⟩ := Request.compile_compiles hr session hok
  rw [← hmid] at hcache
  refine ⟨h.intercepts hr hkind hdom hcache, fun z hz =>
    ⟨h.promise_le_bound hr hkind hdom hcache hz, fun hfocus => ?_⟩⟩
  obtain ⟨i, ds, _, htraced, hpath, hdepth, _⟩ := h.mem_handOut (.inl hkind) hz
  rw [Request.promise, Request.optimumAt, htraced.free_eq hfocus hpath, hdepth,
    Nat.add_sub_cancel_left]

/-- A diagram of the two picks, one node to a layer from the second on. -/
def twoPicksRequest (kind : Kind) (dominance : Option (Dominance Nat Unit)) :
    Request Nat Unit Extended :=
  let s := Solver.ofSettings (twoPicksSettings false dominance)
  s.request kind 1 (s.root .maximize)

theorem twoPicksRequest_regular (kind : Kind) (dominance : Option (Dominance Nat Unit)) :
    (twoPicksRequest kind dominance).Regular :=
  let h := twoPicks_lawful .maximize false dominance
  ⟨h.isPure, h.cost_oriented, h.static, h.sound⟩

theorem Request.compile_intercepts_twoPicks :
    ∃ z ∈ ((twoPicksRequest .relaxed none).compile .fresh).diagram.handOut.1,
      finite 2 ≤ (twoPicksRequest .relaxed none).promise z ∧ finite 2 ≤ z.bound := by
  obtain ⟨hruns, hall⟩ := Request.compile_intercepts (twoPicksRequest .relaxed none)
    (twoPicksRequest_regular _ _) rfl rfl .fresh fun _ _ => rfl
  obtain ⟨report, hok⟩ := hruns fun _ => (twoPicks_lawful .maximize false none).focused
  obtain ⟨hfinds, hbounds⟩ := hall report hok
  have hoptimal : (twoPicksRequest .relaxed none).optimal = finite 2 := by decide +kernel
  rw [hoptimal] at hfinds
  rcases hfinds rfl with ⟨v, hv, _⟩ | ⟨z, hz, hle⟩
  · have hnone :
        ((twoPicksRequest .relaxed none).compile .fresh).diagram.bestExactValue = none := by
      decide +kernel
    rw [hnone] at hv
    cases hv
  · refine ⟨z, hz, hle, hle.trans ((hbounds z hz).1 (lt_of_lt_of_le ?_ hle))⟩
    decide

end DiagramSearch
