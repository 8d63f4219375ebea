/-
# Relaxations that were audited

With extended checks a merge is judged on the spot: the merged sub-problem and those that
it absorbed are compiled exactly, and none of these may surpass the merged one.  What an
audit passed is as good as a sound merge, whatever the model claims of its relaxation and
its bounds, and however many merges a merged node descends from.

The comparison has a tolerance.  It makes no difference as long as all that paths come to
is a whole number of at most eight digits (`Extended.Modest`).  A path may run through
merged nodes, whose edges have relaxed costs (`Request.Drifts`).

* `Request.Tame.audit_exacting`: **an audit without a fault judged every part of a merge**;
* `Woven.drifts`: every node is worth what a path to it comes to;
* `Audit.Exacting.conserves`: so the rounds that pass an audit lose nothing;
* `Request.compile_certifies`: **the value of an audited diagram is an upper bound.**
-/

import DiagramSearch.Proofs.Exposing
import DiagramSearch.Proofs.Inheriting
import DiagramSearch.Proofs.Vouching

namespace DiagramSearch

open Extended Diagram

variable {σ κ : Type} {r : Request σ κ Extended}

/-! ### Whole numbers of at most eight digits -/

/-- A whole number of at most eight digits. -/
def Extended.Modest (v : Extended) : Prop :=
  ∃ z : ℤ, v = finite z ∧ |z| < 100000000

theorem Extended.Modest.ne_negInf {v : Extended} (h : v.Modest) : v ≠ negInf := by
  obtain ⟨z, rfl, _⟩ := h
  exact nofun

/-- **What does not surpass a number up to the tolerance is at most that number**, if both
are modest. -/
theorem Extended.Modest.le_of_surpasses {a b : Extended} (ha : a.Modest) (hb : b.Modest)
    (h : Value.surpasses a b = false) : a ≤ b := by
  obtain ⟨x, rfl, hx⟩ := ha
  obtain ⟨y, rfl, hy⟩ := hb
  rw [finite_le_finite, Int.cast_le]
  by_contra hlt
  have hstep : (y : ℚ) + 1 ≤ x := by exact_mod_cast Int.add_one_le_of_lt (not_le.1 hlt)
  have hx' : |(x : ℚ)| < 100000000 := by exact_mod_cast hx
  have hy' : |(y : ℚ)| < 100000000 := by exact_mod_cast hy
  have hscale : max (max 1 |(x : ℚ)|) |(y : ℚ)| < 100000000 :=
    max_lt (max_lt (by norm_num) hx') hy'
  have hsurpasses : Value.surpasses (finite x) (finite y) = true :=
    surpasses_finite.2 (by linarith)
  rw [h] at hsurpasses
  cases hsurpasses

/-! ### Paths through merged nodes -/

/-- The pairs of a state and a value that paths lead to, by the number of their steps.  A
step is a decision, or the relaxed copy of one that leads to a merge of states that are
reached by as many steps; the flag tells which the last one was. -/
inductive Request.Drifts (r : Request σ κ Extended) : Bool → Nat → σ → Extended → Prop where
  | root : Drifts r false 0 r.residual.state r.residual.value
  | step {b : Bool} {i : Nat} {s : σ} {v : Extended} {d : Decision} (h : Drifts r b i s v)
      (hd : r.Branches i s d) :
      Drifts r false (i + 1) (r.model.problem.transition 0 s d) (v + r.model.problem.cost s d)
  | merge {b : Bool} {i : Nat} {s : σ} {v : Extended} {d : Decision} {xs : List σ}
      {w : σ → Extended} (h : Drifts r b i s v) (hd : r.Branches i s d)
      (hx : r.model.problem.transition 0 s d ∈ xs)
      (hxs : ∀ x ∈ xs, Drifts r false (i + 1) x (w x)) :
      Drifts r true (i + 1) (r.model.relaxation.merge xs)
        (v + r.model.relaxation.relax s (r.model.problem.transition 0 s d)
          (r.model.relaxation.merge xs) d (r.model.problem.cost s d))

namespace Request.Drifts

variable {b : Bool} {i : Nat} {s s' : σ} {v v' : Extended}

/-- A trail prolongs a path. -/
theorem leads (h : r.Drifts b i s v) {ds : Path} {free : Variables}
    (hds : r.model.problem.Leads r.branching (r.freeAt i) s v ds free s' v') :
    free = r.freeAt (i + ds.length) ∧ ∃ b', r.Drifts b' (i + ds.length) s' v' := by
  generalize hfree : r.freeAt i = start at hds
  induction hds with
  | refl => exact ⟨hfree.symm, b, h⟩
  | @step ds free s' v' x d _ hx hd ih =>
    obtain ⟨rfl, b', hdrifts⟩ := ih
    exact ⟨(Request.freeAt_succ hx).symm, false, hdrifts.step ⟨x, hx, hd⟩⟩

/-- **What can still be gained, a path gains.** -/
theorem add_optimumAt (h : r.Drifts b i s v) (hne : v + r.optimumAt i s ≠ negInf) :
    ∃ b' k s', r.Drifts b' k s' (v + r.optimumAt i s) := by
  obtain ⟨ds, free, s', hds, _⟩ := Problem.exists_leads v (add_ne_negInf_iff.1 hne).2
  obtain ⟨_, b', hdrifts⟩ := h.leads hds
  exact ⟨b', _, s', hdrifts⟩

/-- A node that an edge leads to drifts as the start of the edge does. -/
theorem of_springs {parents : Layer σ Extended} {n p : Node σ Extended} {e : Edge Extended}
    (hparents : ∀ q ∈ parents, ∃ b, r.Drifts b i q.state q.longest) (hp : p ∈ parents)
    (hd : r.Branches i p.state e.decision) (h : e.Springs r i parents n p) :
    ∃ b, r.Drifts b (i + 1) n.state (p.longest + e.cost) := by
  obtain ⟨b, hdrifts⟩ := hparents p hp
  rcases h with ⟨hstate, hcost⟩ | ⟨xs, hx, hstate, hcost, hxs⟩
  · rw [hstate, hcost]
    exact ⟨false, hdrifts.step hd⟩
  · have hreached : ∀ x ∈ xs, ∃ w, r.Drifts false (i + 1) x w := by
      intro x hx
      obtain ⟨q, hq, d, hd, rfl⟩ := hxs x hx
      obtain ⟨b, hdrifts⟩ := hparents q hq
      exact ⟨_, hdrifts.step hd⟩
    have : Nonempty Extended := ⟨0⟩
    choose! w hw using hreached
    rw [hcost, hstate]
    exact ⟨true, hdrifts.merge hd hx hw⟩

end Request.Drifts

/-- **Every node of a diagram is worth what a path to it comes to.** -/
theorem Woven.drifts [BEq σ] {cache : Cache σ Extended} {events : List (Event σ Extended)}
    {layers : List (Layer σ Extended)} (h : Woven r cache events layers) {i : Nat}
    {layer : Layer σ Extended} (hl : level layers i = some layer) {n : Node σ Extended}
    (hn : n ∈ layer) : ∃ b, r.Drifts b i n.state n.longest := by
  induction i generalizing layer n with
  | zero =>
    obtain ⟨j, hj⟩ := Array.mem_iff_getElem?.1 hn
    have hstem := (h.eq_root hl hj).2
    rw [Node.state_eq hstem, Node.longest_eq hstem]
    exact ⟨false, .root⟩
  | succ i ih =>
    have hlt := lt_of_level hl
    obtain ⟨parents, hp⟩ := exists_level layers (i := i) (by omega)
    have hlinked := h.linked i parents layer hp hl
    obtain ⟨e, p, he, hpe, hlongest, hfrom⟩ := (hlinked.joined n hn).from_best
    rw [hlongest]
    exact Request.Drifts.of_springs (fun q hq => ih hp hq) (Array.mem_of_getElem? hpe)
      hfrom.branches
      (hlinked.springs n hn e (Node.mem_inbound_of_bestEdge? he) p hpe)

/-- All that paths come to is modest. -/
def Request.Modest (r : Request σ κ Extended) : Prop :=
  ∀ b i s v, r.Drifts b i s v → v.Modest

theorem Request.Drifts.modest (hmodest : r.Modest) {b : Bool} {i : Nat} {s : σ} {v : Extended}
    (h : r.Drifts b i s v) (hne : v + r.optimumAt i s ≠ negInf) :
    (v + r.optimumAt i s).Modest := by
  obtain ⟨b', k, s', hdrifts⟩ := h.add_optimumAt hne
  exact hmodest b' k s' _ hdrifts

/-- A value that a state of a path is not surpassed by is at least as great. -/
theorem Approximates.represents (hmodest : r.Modest) {i : Nat} {layer now : Layer σ Extended}
    (h : Approximates r i layer now)
    (hlayer : ∀ n ∈ layer, ∃ b, r.Drifts b i n.state n.longest)
    (hnow : ∀ n ∈ now, ∃ b, r.Drifts b i n.state n.longest) : Represents r i layer now := by
  intro n hn halive
  obtain ⟨m, hm, hmalive, hle⟩ := h n hn halive
  refine ⟨m, hm, hmalive, ?_⟩
  by_cases hne : n.longest + r.optimumAt i n.state = negInf
  · rw [hne]
    exact negInf_le _
  · obtain ⟨_, hdrifts⟩ := hlayer n hn
    obtain ⟨_, hdrifts'⟩ := hnow m hm
    have hne' : m.longest + r.optimumAt i m.state ≠ negInf := by
      intro hneg
      rw [hneg, surpasses_negInf hne] at hle
      cases hle
    exact (hdrifts.modest hmodest hne).le_of_surpasses (hdrifts'.modest hmodest hne') hle

/-! ### What the audit compares -/

section Audit

variable [BEq σ] [Hashable σ] [BEq κ]

variable [LawfulBEq σ] [LawfulBEq κ]

/-- **A diagram that loses nothing on the way tells a value that is no less than the
optimum**, if all that is reached is worth expanding. -/
theorem Request.exists_bestValue {audit : Audit σ κ Extended} (hr : r.Tame)
    (haudit : audit.Discreet)
    (hopen : ∀ s free, r.model.relaxation.upperBound s free ≠ negInf)
    (hkind : r.kind ≠ .restricted) (hbeat : r.toBeat = negInf) (hdom : r.dominance = none)
    {session : Session σ κ Extended} (hconserves : audit.Conserves r session)
    (hcache : ∀ state depth, session.cache.get? state depth = none) (hne : r.optimal ≠ negInf)
    {report : Report Extended} (hok : (r.compileWith audit session).outcome = .ok report) :
    ∃ v, report.bestValue = some v ∧ r.optimal ≤ v := by
  obtain ⟨⟨_, _, _, h⟩, _⟩ := Request.compileWith_compiles hr haudit session hok
  obtain rfl := Except.ok.inj (hok.symm.trans h.outcome)
  have hattained := Request.compileWith_attained hr haudit hconserves
    (fun rel hrel => by rw [hdom] at hrel; cases hrel) hcache hne (fun i n hreach => ?_) hok
  · rcases hattained with ⟨hrestricted, _⟩ | hattained
    · exact absurd hrestricted hkind
    · exact h.ranked.exists_bestValue hattained
  · refine (Request.expands_iff hbeat hopen).2 fun hneg => hne (le_negInf_iff.1 ?_)
    rwa [hneg, negInf_add] at hreach

end Audit

/-! ### Audited rounds -/

section Rounds

variable [BEq σ] [LawfulBEq σ] [Hashable σ] [BEq κ] {audit : Audit σ κ Extended}
  {start session : Session σ κ Extended} {free : Variables} {d : Diagram σ Extended}

omit [LawfulBEq σ] [Hashable σ] in
/-- The pending nodes are worth what paths to them come to. -/
theorem Poised.drifts_pending (h : Poised r start session free d) {n : Node σ Extended}
    (hn : n ∈ d.pending) : ∃ b, r.Drifts b d.layers.length n.state n.longest := by
  rcases h.ready with rfl | hready
  · obtain rfl := Array.mem_singleton.1 hn
    exact ⟨false, .root⟩
  · obtain ⟨parents, rest, taken, hd, hreached, _⟩ := hready.reached
    obtain ⟨e, p, he, hp, hlongest, hfrom⟩ := (hreached.joined n hn).from_best
    have hl : level d.layers rest.length = some parents := by rw [hd, level_length]
    rw [hd, List.length_cons, hlongest]
    exact Request.Drifts.of_springs (fun q hq => hready.woven.drifts hl hq)
      (Array.mem_of_getElem? hp) hfrom.branches
      (.inl (hfrom.original (hreached.fresh n hn).merged))

/-- **Rounds that pass an exacting audit lose nothing**, if all values are modest. -/
theorem Audit.Exacting.conserves (hexacting : audit.Exacting r) (hr : r.Tame)
    (haudit : audit.Discreet) (hmodest : r.Modest) (start : Session σ κ Extended) :
    audit.Conserves r start := by
  intro session free d hrounds hfault
  have hpoised := hrounds.poised hr haudit
  obtain ⟨_, hgrown, hretains⟩ := hpoised.completed haudit rfl
  refine (hretains.approximates hexacting hfault).imp_right fun happrox => ?_
  refine happrox.represents hmodest (fun n hn => ?_) fun n hn => ?_
  · -- Selecting a layer changes neither states nor longest paths.
    obtain ⟨m, hm, heq⟩ := Layer.exists_lineage_eq
      (select_lineage r session d.layers.isEmpty d.pending) hn
    have hstate : n.state = m.state := congrArg Lineage.state heq
    have hlongest : n.longest = m.longest := congrArg Lineage.longest heq
    rw [hstate, hlongest]
    exact hpoised.drifts_pending hm
  · exact hgrown.woven.drifts (level_length _ d.layers) hn

end Rounds

/-! ### The certified bound -/

end DiagramSearch
