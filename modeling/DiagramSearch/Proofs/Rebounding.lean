/-
# What the bound of a sub-problem does to its diagram

A sub-problem carries a bound on the whole objective.  Its diagram keeps it where a node
keeps a bound on what is still to come, until the node is expanded.  A root that is never
expanded still carries it when bounds are checked and thresholds computed, and there it is
read as a bound on what is still to come: nothing, which is not the whole objective.

* `Request.rebound`: the same request, its sub-problem under another bound;
* `settleLayer_rooted`: the root is completed as it is, or found to be dominated;
* `Request.unroll_rebound`: a root that is expanded forgets its bound;
* `evaluate_sole_dominated`, `evaluate_sole_root`: what is told from a root alone;
* `Request.compile_rebound`: **the bound has no influence if a variable is picked for the
  root, or the root is dominated, or the bounds agree in the fault and the threshold
  that they give to a root alone.**
-/

import DiagramSearch.Proofs.Intercepting
import DiagramSearch.Proofs.Rounds

namespace DiagramSearch

open Diagram Extended

variable {σ κ V : Type}

/-- The same request, its sub-problem under another bound. -/
def Request.rebound (r : Request σ κ V) (b : V) : Request σ κ V :=
  { r with residual := { r.residual with bound := b } }

/-- Two compilations that show the same. -/
structure Compiled.Agrees [Value V] (c c' : Compiled σ κ V) : Prop where
  outcome : c.outcome = c'.outcome
  session : c.session = c'.session
  bestValue : c.diagram.bestValue = c'.diagram.bestValue
  bestSolution : c.diagram.bestSolution = c'.diagram.bestSolution
  bestExactValue : c.diagram.bestExactValue = c'.diagram.bestExactValue
  bestExactSolution : c.diagram.bestExactSolution = c'.diagram.bestExactSolution
  handOut : c.diagram.handOut.1 = c'.diagram.handOut.1

theorem Compiled.Agrees.of_eq [Value V] {c c' : Compiled σ κ V} (h : c = c') : c.Agrees c' := by
  subst h
  exact ⟨rfl, rfl, rfl, rfl, rfl, rfl, rfl⟩

/-- The root of a diagram, before it is expanded. -/
def Subproblem.root [Value V] (s : Subproblem σ V) : Node σ V :=
  .bare s.state s.depth s.value s.bound true

/-- The node after its dominance check. -/
def Node.struck (n : Node σ V) (verdict : Dominance.Verdict V) : Node σ V :=
  match verdict with
  | some t => { n with fate := .dominated, threshold := some t }
  | none => n

/-- The diagram of a single node. -/
def Diagram.sole (path : Path) (n : Node σ V) : Diagram σ V :=
  { Diagram.empty with path, layers := [#[n]] }

/-- The diagram of a single node, which is the best one. -/
def Diagram.summit (path : Path) (n : Node σ V) : Diagram σ V :=
  { Diagram.sole path n with best := some 0, bestExact := some 0 }

section Settle

variable [BEq σ] [BEq κ] [Value V] {audit : Audit σ κ V} {r : Request σ κ V}
  {session session' : Session σ κ V}

/-- **The root is completed as it is, unless it is dominated.** -/
theorem settleLayer_rooted {verdict : Dominance.Verdict V}
    (hcheck : session.check r.dominance r.residual.state r.residual.depth r.residual.value =
      (verdict, session')) :
    settleLayer audit r session (Diagram.rooted r.residual) =
      ⟨session', #[r.residual.root.struck verdict], if verdict.isSome then [] else [0], false,
        none⟩ := by
  have hselect : select r session true (Diagram.rooted r.residual).pending =
      ⟨session', #[r.residual.root.struck verdict],
        if verdict.isSome then [] else [⟨0, r.residual.state, r.residual.value⟩]⟩ := by
    change sift r.dominance [⟨0, r.residual.state, r.residual.value⟩] #[r.residual.root] session = _
    have hroot : (#[r.residual.root] : Layer σ V)[0]? = some r.residual.root := rfl
    have hexact : r.residual.root.exact = true := rfl
    have hasked : session.check r.dominance r.residual.root.state r.residual.root.depth
        r.residual.root.longest = (verdict, session') := hcheck
    simp only [sift, hroot, hexact, if_true, hasked]
    cases verdict <;> rfl
  unfold settleLayer
  rw [show (Diagram.rooted r.residual).layers.isEmpty = true from rfl, hselect]
  -- One node at most is kept, and no width is less than that.
  unfold fit
  cases verdict with
  | none => exact if_pos (le_max_right r.width 1)
  | some t => exact if_pos (Nat.zero_le (max r.width 1))

end Settle

section Unroll

variable [BEq σ] [Hashable σ] [BEq κ] [Value V] {audit : Audit σ κ V} {r : Request σ κ V}
  {session session' : Session σ κ V} {b : V}

/-- The audits do not look at the sub-problem. -/
theorem Request.audit_rebound : (r.rebound b).audit = r.audit := by
  have hfind : ∀ merged relaxed session absorbed,
      (r.rebound b).findUnsound merged relaxed session absorbed =
        r.findUnsound merged relaxed session absorbed := by
    intro merged relaxed session absorbed
    induction absorbed generalizing session with
    | nil => rfl
    | cons s rest ih =>
      unfold findUnsound
      simp only [ih]
      rfl
  funext session merged absorbed
  unfold audit
  simp only [hfind]
  rfl

theorem unrollRound_rebound (free : Variables) (d : Diagram σ V)
    (after : Variables → Session σ κ V → Diagram σ V → Unrolled σ κ V) :
    unrollRound audit (r.rebound b) free session d after =
      unrollRound audit r free session d after := rfl

/-- Nor do the rounds, once the root is given. -/
theorem unroll_rebound {rounds : Nat} {free : Variables} {d : Diagram σ V}
    (h : free.size ≤ rounds) :
    unroll audit (r.rebound b) rounds free session d = unroll audit r rounds free session d := by
  induction rounds generalizing free session d with
  | zero =>
    rw [unroll_eq_round _ _ _ _ h, unroll_eq_round _ _ _ _ h, unrollRound_rebound]
    refine unrollRound_congr (r := r) (b := r.branching) rfl fun v hv => ?_
    exact absurd (Branching.size_pos_of_some hv) (Nat.not_lt.2 h)
  | succ rounds ih =>
    rw [unroll_eq_round _ _ _ _ h, unroll_eq_round _ _ _ _ h, unrollRound_rebound]
    refine unrollRound_congr (r := r) (b := r.branching) rfl fun v _ x _ => ?_
    have hsize := Variables.size_erase_add_one v.2
    exact ih (by omega)

/-- **A root that is expanded forgets its bound.** -/
theorem Request.unroll_rebound {v : { v : Nat // v ∈ r.residual.free r.model.problem.variables }}
    (hcheck : session.check r.dominance r.residual.state r.residual.depth r.residual.value =
      (none, session'))
    (hv : r.branching (r.residual.free r.model.problem.variables) [r.residual.state] = some v) :
    (r.rebound b).unroll audit session = r.unroll audit session := by
  have hafter : ∀ after, unrollRound audit (r.rebound b)
      (r.residual.free r.model.problem.variables) session
      (Diagram.rooted (r.rebound b).residual) after =
        unrollRound audit r (r.residual.free r.model.problem.variables) session
          (Diagram.rooted r.residual) after := by
    intro after
    have hpick : r.branching (r.residual.free r.model.problem.variables)
        ((Diagram.rooted r.residual).pending.toList.map (·.state)) = some v := hv
    have hpick' : (r.rebound b).branching (r.residual.free r.model.problem.variables)
        ((Diagram.rooted (r.rebound b).residual).pending.toList.map (·.state)) = some v := hv
    unfold unrollRound
    rw [settleLayer_rooted (r := r.rebound b) hcheck, settleLayer_rooted hcheck, hpick, hpick']
    rfl
  unfold Request.unroll
  rw [unroll_eq_round _ _ _ _ le_rfl, unroll_eq_round _ _ _ _ le_rfl]
  refine Eq.trans ?_ (hafter _)
  refine unrollRound_congr (r := r.rebound b) (b := r.branching) rfl fun v _ x _ => ?_
  have hsize := Variables.size_erase_add_one v.2
  exact DiagramSearch.unroll_rebound (by omega)

/-- **A root that is not expanded is all there is.** -/
theorem Request.unroll_sole {verdict : Dominance.Verdict V}
    (hcheck : session.check r.dominance r.residual.state r.residual.depth r.residual.value =
      (verdict, session'))
    (hstays : verdict ≠ none ∨
      r.branching (r.residual.free r.model.problem.variables) [r.residual.state] = none) :
    r.unroll audit session =
      ⟨session'.note (.layerDone 0 (if verdict.isSome then 0 else 1)),
        Diagram.sole r.residual.path (r.residual.root.struck verdict), none⟩ := by
  unfold Request.unroll
  rw [unroll_eq_round _ _ _ _ le_rfl, unrollRound, settleLayer_rooted hcheck]
  cases verdict with
  | some t => rfl
  | none =>
    have hnone : r.branching (r.residual.free r.model.problem.variables)
        ((Diagram.rooted r.residual).pending.toList.map (·.state)) = none :=
      hstays.resolve_left fun h => h rfl
    rw [hnone]
    rfl

end Unroll

/-! ### What is told from a root alone -/

/-- The fault that a bound gives to a root alone. -/
def Request.rootFault? [Value V] (r : Request σ κ V) : Option (Fault σ V) :=
  if r.checks.watches && r.kind != .relaxed && Value.surpasses 0 r.residual.bound then
    some (.inadmissible r.residual.state r.residual.depth r.residual.bound 0)
  else none

/-- The threshold that a bound gives to a root alone. -/
def Request.rootThreshold [Value V] (r : Request σ κ V) : V :=
  let best := max r.toBeat r.residual.value
  if r.residual.value + r.residual.bound ≤ best then Value.headroom best r.residual.bound else best

/-- What a compilation shows that ends with the root. -/
structure Compiled.Shows [Value V] (c : Compiled σ κ V) (outcome : Except (Fault σ V) (Report V))
    (session : Session σ κ V) (best : Option (V × Path)) : Prop where
  outcome : c.outcome = outcome
  session : c.session = session
  bestValue : c.diagram.bestValue = best.map (·.1)
  bestSolution : c.diagram.bestSolution = best.map (·.2)
  bestExactValue : c.diagram.bestExactValue = best.map (·.1)
  bestExactSolution : c.diagram.bestExactSolution = best.map (·.2)
  handOut : c.diagram.handOut.1 = []

section Evaluate

variable [BEq σ] [Hashable σ] [BEq κ] [Value V] {r : Request σ κ V} {session : Session σ κ V}

omit [Hashable σ] [BEq κ] in
/-- A sweep over a single node. -/
theorem sweepLayers_sole (best : V) (lasting : Nat → Node σ V → Bool) (n : Node σ V) :
    sweepLayers best lasting session #[n] [] =
      (match (n.settle best).lesson? with
        | some t => if lasting 0 (n.settle best) then session.remember (n.settle best).state
            (n.settle best).depth t else session
        | none => session, [#[n.settle best]]) := by
  rw [sweepLayers, Array.map_singleton]
  rfl

omit [Hashable σ] [BEq κ] in
/-- Of a dominated root nothing is told. -/
theorem Request.evaluate_sole_dominated (t : V) :
    (r.evaluate session (Diagram.sole r.residual.path (r.residual.root.struck (some t)))).Shows
      (.ok ⟨true, none⟩) session none := by
  have h : r.evaluate session (Diagram.sole r.residual.path (r.residual.root.struck (some t))) =
      ⟨session, Diagram.sole r.residual.path (r.residual.root.struck (some t)),
        .ok ⟨true, none⟩⟩ := by
    simp [Request.evaluate, Diagram.sole, Diagram.empty, markBest, Layer.best?, markExact,
      markCutset, markBounds, liftBounds, inadmissible?, Diagram.sweep, sweepLayers_sole, Node.struck,
      Subproblem.root, Node.bare, Node.isAlive, bestExactValue, bestValue, Node.settle,
      Node.isDeleted, Node.isPruned, Node.lesson?]
  rw [h]
  exact ⟨rfl, rfl, rfl, rfl, rfl, rfl, rfl⟩

omit [Hashable σ] [BEq κ] in
/-- The thresholds of a single node that is alive and exact. -/
theorem Diagram.sweep_summit {n : Node σ V} (hfate : n.fate = .alive) (hexact : n.exact = true)
    (hcutset : n.cutset = false) (hborrowed : n.borrowed = false) (path : Path) :
    ∃ n', (Diagram.summit path n).sweep r session =
      (session.remember n.state n.depth
        ⟨let best := max r.toBeat n.longest
          if n.longest + n.roughBound ≤ best then Value.headroom best n.roughBound else best, true⟩,
        Diagram.summit path n') ∧ n'.longest = n.longest ∧ n'.bestEdge? = n.bestEdge? := by
  generalize hbest : max r.toBeat n.longest = best
  have hvalue : (Diagram.summit path n).bestExactValue = some n.longest := rfl
  have halive : n.isAlive = true := by rw [Node.isAlive, hfate]; rfl
  have hsettled : Node.settle best { n with threshold := some best } =
      { n with threshold := some (if n.longest + n.roughBound ≤ best then
          Value.headroom best n.roughBound else best) } := by
    have hgone : (n.isDeleted || n.isPruned) = false := by
      simp [Node.isDeleted, Node.isPruned, hfate]
    unfold Node.settle
    rw [show ({ n with threshold := some best } : Node σ V).isDeleted = n.isDeleted from rfl,
      show ({ n with threshold := some best } : Node σ V).isPruned = n.isPruned from rfl, hgone]
    by_cases hle : n.longest + n.roughBound ≤ best <;> simp [hle, hcutset]
  have hlesson : ∀ t, Node.lesson? { n with threshold := some t } = some ⟨t, true⟩ := by
    intro t
    simp [Node.lesson?, Node.isDeleted, Node.isPruned, hfate, hcutset, hborrowed]
  have hlasting : ∀ t, (Diagram.summit path n).lasting r.kind r.cutset 0
      { n with threshold := some t } = true := fun _ => hexact
  have hsweep : (Diagram.summit path n).sweep r session =
      ((sweepLayers best ((Diagram.summit path n).lasting r.kind r.cutset) session
        #[{ n with threshold := some best }] []).1,
      { Diagram.summit path n with
        layers := (sweepLayers best ((Diagram.summit path n).lasting r.kind r.cutset) session
          #[{ n with threshold := some best }] []).2 }) := by
    unfold Diagram.sweep
    rw [show (Diagram.summit path n).layers = [#[n]] from rfl]
    simp only [hvalue, hbest, Array.map_singleton, halive, hexact, Bool.and_self, if_true]
  rw [hsweep, sweepLayers_sole, hsettled, hlesson]
  dsimp only
  rw [if_pos (hlasting _)]
  exact ⟨_, rfl, rfl, rfl⟩

omit [Hashable σ] [BEq κ] in
/-- Of a root alone its value is told, unless its bound is found to be at fault. -/
theorem Request.evaluate_sole_root :
    (r.evaluate session (Diagram.sole r.residual.path r.residual.root)).Shows
      (match r.rootFault? with
        | some fault => .error fault
        | none => .ok ⟨true, some r.residual.value⟩)
      (match r.rootFault? with
        | some _ => session
        | none => session.remember r.residual.state r.residual.depth ⟨r.rootThreshold, true⟩)
      (some (r.residual.value, r.residual.path)) := by
  have hshows : ∀ n : Node σ V, n.longest = r.residual.value → n.bestEdge? = none →
      ∀ session outcome, (⟨session, Diagram.summit r.residual.path n, outcome⟩ :
        Compiled σ κ V).Shows outcome session (some (r.residual.value, r.residual.path)) := by
    intro n hn hedge session outcome
    have hclimb : climb [#[n]] 0 = [] := by
      simp [climb, hedge]
    have hpath : r.residual.path ++ climb [#[n]] 0 = r.residual.path := by
      rw [hclimb, List.append_nil]
    exact ⟨rfl, rfl, congrArg some hn, congrArg some hpath, congrArg some hn, congrArg some hpath,
      rfl⟩
  have hmarked : ((Diagram.sole r.residual.path r.residual.root).markBest.markExact
      r.kind).markCutset r.kind r.cutset = Diagram.summit r.residual.path r.residual.root := by
    cases r.kind <;> rfl
  have hbounds : (Diagram.summit r.residual.path r.residual.root).markBounds =
      Diagram.summit r.residual.path { r.residual.root with tail := some 0 } := by
    simp [Diagram.summit, Diagram.sole, markBounds, liftBounds, Subproblem.root, Node.bare,
      Node.isAlive]
  have hfault : (Diagram.summit r.residual.path
      { r.residual.root with tail := some 0 }).inadmissible? =
        if Value.surpasses 0 r.residual.bound then
          some (.inadmissible r.residual.state r.residual.depth r.residual.bound 0) else none := by
    simp [Diagram.summit, Diagram.sole, inadmissible?, Subproblem.root, Node.bare, Node.isAlive]
  -- Tails change nothing for a sweep, since no node is in the cut-set.
  have hsweep : ∀ tail, ∃ n', (Diagram.summit r.residual.path
      { r.residual.root with tail }).sweep r session =
        (session.remember r.residual.state r.residual.depth ⟨r.rootThreshold, true⟩,
          Diagram.summit r.residual.path n') ∧ n'.longest = r.residual.value ∧
            n'.bestEdge? = none :=
    fun tail => Diagram.sweep_summit (n := { r.residual.root with tail }) rfl rfl rfl rfl _
  have hexact : ∀ n : Node σ V, (Diagram.summit r.residual.path n).isExact = true := fun _ => rfl
  unfold Request.evaluate Request.rootFault?
  dsimp only
  rw [hmarked, hbounds]
  cases hwatched : r.checks.watches && r.kind != .relaxed with
  | true =>
    have hwatches : r.checks.watches = true := (Bool.and_eq_true_iff.1 hwatched).1
    rw [hwatches, Bool.or_true, if_pos rfl, if_pos rfl, hfault]
    cases Value.surpasses 0 r.residual.bound with
    | true => exact hshows _ rfl rfl _ _
    | false =>
      obtain ⟨n', hn', hlongest, hedge⟩ := hsweep (some 0)
      simp only [hexact, hn', Bool.or_true, if_true, Bool.and_false, Bool.false_eq_true, if_false]
      rw [show (Diagram.summit r.residual.path n').bestValue = some n'.longest from rfl, hlongest]
      exact hshows _ hlongest hedge _ _
  | false =>
    obtain ⟨tail, htail⟩ : ∃ tail, (if r.kind == .relaxed || r.checks.watches then
        Diagram.summit r.residual.path { r.residual.root with tail := some 0 }
        else Diagram.summit r.residual.path r.residual.root) =
          Diagram.summit r.residual.path { r.residual.root with tail } := by
      split
      · exact ⟨some 0, rfl⟩
      · exact ⟨none, rfl⟩
    obtain ⟨n', hn', hlongest, hedge⟩ := hsweep tail
    rw [htail]
    simp only [hexact, hn', Bool.or_true, if_true, Bool.false_and, Bool.false_eq_true, if_false]
    rw [show (Diagram.summit r.residual.path n').bestValue = some n'.longest from rfl, hlongest]
    exact hshows _ hlongest hedge _ _

/-- **A dominated root** shows nothing. -/
theorem Request.compile_dominated {session' : Session σ κ V} {t : V}
    (hcheck : session.check r.dominance r.residual.state r.residual.depth r.residual.value =
      (some t, session')) :
    (r.compile session).Shows (.ok ⟨true, none⟩) (session'.note (.layerDone 0 0)) none := by
  unfold Request.compile Request.compileWith
  rw [Request.unroll_sole hcheck (.inl (Option.some_ne_none t))]
  exact r.evaluate_sole_dominated t

/-- **A root that no variable is picked for** shows its own value, unless its bound is found
to be at fault. -/
theorem Request.compile_alone {session' : Session σ κ V}
    (hcheck : session.check r.dominance r.residual.state r.residual.depth r.residual.value =
      (none, session'))
    (hnone : r.branching (r.residual.free r.model.problem.variables) [r.residual.state] = none) :
    (r.compile session).Shows
      (match r.rootFault? with
        | some fault => .error fault
        | none => .ok ⟨true, some r.residual.value⟩)
      (match r.rootFault? with
        | some _ => session'.note (.layerDone 0 1)
        | none => (session'.note (.layerDone 0 1)).remember r.residual.state r.residual.depth
            ⟨r.rootThreshold, true⟩)
      (some (r.residual.value, r.residual.path)) := by
  unfold Request.compile Request.compileWith
  rw [Request.unroll_sole hcheck (.inr hnone)]
  exact r.evaluate_sole_root

end Evaluate

theorem Compiled.Shows.agrees [Value V] {c c' : Compiled σ κ V}
    {outcome : Except (Fault σ V) (Report V)} {session : Session σ κ V} {best : Option (V × Path)}
    (h : c.Shows outcome session best) (h' : c'.Shows outcome session best) : c.Agrees c' where
  outcome := h.outcome.trans h'.outcome.symm
  session := h.session.trans h'.session.symm
  bestValue := h.bestValue.trans h'.bestValue.symm
  bestSolution := h.bestSolution.trans h'.bestSolution.symm
  bestExactValue := h.bestExactValue.trans h'.bestExactValue.symm
  bestExactSolution := h.bestExactSolution.trans h'.bestExactSolution.symm
  handOut := h.handOut.trans h'.handOut.symm

/-- **The bound of a sub-problem has no influence** on the outcome, the solutions, the
cut-set, the cache or the table, if a variable is picked for the root, or the root is
dominated, or both bounds give a root alone the same fault and the same threshold. -/
theorem Request.compile_rebound [BEq σ] [Hashable σ] [BEq κ] [Value V] (r : Request σ κ V) (b : V)
    (session : Session σ κ V)
    (h : r.branching (r.residual.free r.model.problem.variables) [r.residual.state] ≠ none ∨
      (session.check r.dominance r.residual.state r.residual.depth r.residual.value).1 ≠ none ∨
      ((r.rebound b).rootFault? = r.rootFault? ∧ (r.rebound b).rootThreshold = r.rootThreshold)) :
    ((r.rebound b).compile session).Agrees (r.compile session) := by
  generalize hcheck : session.check r.dominance r.residual.state r.residual.depth
    r.residual.value = answer at h
  obtain ⟨verdict, session'⟩ := answer
  cases verdict with
  | some t =>
    have hshows := Request.compile_dominated (r := r.rebound b) hcheck
    exact hshows.agrees (Request.compile_dominated hcheck)
  | none =>
    cases hv : r.branching (r.residual.free r.model.problem.variables) [r.residual.state] with
    | some v =>
      refine .of_eq ?_
      unfold Request.compile Request.compileWith
      rw [Request.audit_rebound, Request.unroll_rebound hcheck hv]
      rfl
    | none =>
      obtain ⟨hfault, hthreshold⟩ := (h.resolve_left fun h => h hv).resolve_left fun h => h rfl
      have hshows := Request.compile_alone (r := r.rebound b) hcheck hv
      rw [hfault, hthreshold] at hshows
      exact hshows.agrees (Request.compile_alone hcheck hv)

/-- The two picks once both are made, under a bound on the whole objective. -/
def bothPicked : Request Nat Unit Extended :=
  { twoPicksRequest .exact none with
    residual := ⟨2, finite (-5), [⟨0, 1⟩, ⟨1, 1⟩], finite (-5), 2⟩ }

/-- The bound of the root of the two picks has no influence.  Once both are made, the
value of the path is a bound on the whole objective, but it is found to be at fault. -/
theorem Request.compile_rebound_twoPicks :
    (twoPicksRequest .exact none).branching ((twoPicksRequest .exact none).residual.free 2) [0] ≠
      none ∧
    (((twoPicksRequest .exact none).rebound (finite 2)).compile .fresh).Agrees
      ((twoPicksRequest .exact none).compile .fresh) ∧
    (bothPicked.compile .fresh).outcome = .error (.inadmissible 2 2 (finite (-5)) 0) ∧
    ((bothPicked.rebound posInf).compile .fresh).outcome = .ok ⟨true, some (finite (-5))⟩ := by
  have hpicks : (twoPicksRequest .exact none).branching
      ((twoPicksRequest .exact none).residual.free 2) [0] ≠ none := by decide
  have hcheck : (Session.fresh : Session Nat Unit Extended).check none 2 2 (finite (-5)) =
      (none, { Session.fresh with events := [.checked 2 2 (finite (-5)) none] }) := rfl
  refine ⟨hpicks, Request.compile_rebound _ (finite 2) .fresh (.inl hpicks), ?_, ?_⟩
  · have hfault : bothPicked.rootFault? = some (.inadmissible 2 2 (finite (-5)) 0) :=
      if_pos (by decide +kernel)
    rw [(Request.compile_alone (r := bothPicked) hcheck rfl).outcome, hfault]
  · have hfault : (bothPicked.rebound posInf).rootFault? = none := if_neg (by decide +kernel)
    rw [(Request.compile_alone (r := bothPicked.rebound posInf) hcheck rfl).outcome, hfault]
    rfl

end DiagramSearch
