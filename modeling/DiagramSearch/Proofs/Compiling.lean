/-
# Compiling a sub-problem

* `Request.worth_le`, `Request.le_worth`: compiled exactly, on the side, a
  sub-problem is worth its value and the optimum of its state, no more and no
  less (`Request.Appraises`);
* `Request.Appraises.audit_lenient`: so an audit finds nothing wrong with a fair merge;
* `Request.exists_compile_ok`: **a regular request compiles without a fault**, if
  paths tell which variables are free or merges are not audited, and the bound of
  a lone root is not at fault or not checked;
* `Request.compile_compiles`: what a compilation without a fault brings about;
* `Compiles.finds`, `Compiles.learns`: what becomes of a target that the diagram,
  or a threshold it teaches, leaves within reach.
-/

import DiagramSearch.Proofs.Evaluating

namespace DiagramSearch

open Extended Diagram

variable {σ κ : Type} [BEq σ] {r : Request σ κ Extended} {session : Session σ κ Extended}

/-- A compilation that went through: the dominance table was asked about pairs
that trails lead to, and then the diagram was evaluated. -/
def Compiles [BEq κ] (r : Request σ κ Extended) (session : Session σ κ Extended)
    (c : Compiled σ κ Extended) : Prop :=
  ∃ mid, session.Evolves r.dominance r.Attains mid ∧ mid.cache = session.cache ∧ Evaluated r mid c

section Evaluated

variable {c : Compiled σ κ Extended} {target : Extended}

/-- **A value that a diagram tells, and that can be relied on, is that of a trail
to the end.** -/
theorem Evaluated.traced_best (h : Evaluated r session c)
    (htrust : r.kind ≠ .relaxed ∨ c.diagram.isExact = true) {v : Extended}
    (hv : c.diagram.bestValue = some v) :
    ∃ i ds s, c.diagram.bestSolution = some (r.residual.path ++ ds) ∧ r.Traced i ds s v ∧
      r.branching (r.freeAt i) [] = none := by
  have hpos := h.sketched.woven.length_pos
  obtain ⟨last, hl⟩ := h.sketched.woven.exists_last
  obtain ⟨j, z, hj, hz, halive, rfl⟩ := (h.ranked.best last hl).node_of_value hl hv
  refine ⟨_, _, z.state, ?_, h.trusted htrust last j z hl hj hz, ?_⟩
  · rw [bestSolution, hj, h.path]
    rfl
  · rcases h.sketched.ended _ last hl (by omega) with hnone | hdead
    · exact hnone
    · rw [hdead z (Array.mem_of_getElem? hz)] at halive
      cases halive

/-- So is the value of the best exact node. -/
theorem Evaluated.traced_bestExact (h : Evaluated r session c) {v : Extended}
    (hv : c.diagram.bestExactValue = some v) :
    ∃ i ds s, c.diagram.bestExactSolution = some (r.residual.path ++ ds) ∧ r.Traced i ds s v ∧
      r.branching (r.freeAt i) [] = none := by
  have hpos := h.sketched.woven.length_pos
  obtain ⟨last, hl⟩ := h.sketched.woven.exists_last
  obtain ⟨j, z, hj, hz, hacc, rfl⟩ := (h.ranked.bestExact last hl).node_of_value hl hv
  rw [Bool.and_eq_true] at hacc
  have htraced := h.sketched.woven.traced hl hz hacc.2
  rw [upward_last] at htraced
  refine ⟨_, _, z.state, ?_, htraced, ?_⟩
  · rw [bestExactSolution, hj, h.path]
    rfl
  · rcases h.sketched.ended _ last hl (by omega) with hnone | hdead
    · exact hnone
    · rw [hdead z (Array.mem_of_getElem? hz)] at hacc
      cases hacc.1

/-- **An exact diagram reaches all that beats the value to beat**, if nothing is
remembered and nothing is dominated. -/
theorem Evaluated.exists_bestValue (h : Evaluated r session c) (hr : r.Regular)
    (hexact : c.diagram.isExact = true) (hdom : r.dominance = none)
    (hcache : ∀ state depth, session.cache.get? state depth = none)
    (hbeat : r.toBeat < r.residual.value + r.optimumAt 0 r.residual.state) :
    ∃ v, c.diagram.bestValue = some v ∧
      r.residual.value + r.optimumAt 0 r.residual.state ≤ v := by
  have hne : r.residual.value + r.optimumAt 0 r.residual.state ≠ negInf :=
    negInf_lt_iff.1 ((negInf_le _).trans_lt hbeat)
  have hroot := (Request.loose_add (r := r) (i := 0)).2
    (le_refl (r.residual.value + r.optimumAt 0 r.residual.state))
  rcases (h.surveyed (.inr hexact)).finds hr (Request.thread_loose hne) hbeat hroot with
    ⟨k, state, t, _, ht, _⟩ | ⟨hrel, _⟩ | ⟨l, z, hl, hz, ha, _, hle⟩ | ⟨k, j, z, hemits⟩
  · rw [hcache] at ht
    cases ht
  · exact absurd hdom hrel
  · exact h.ranked.exists_bestValue ⟨l, z, hl, hz, ha, trivial, hle⟩
  · exact h.ranked.exists_bestValue hemits.best

end Evaluated

/-! ### Compiling on the side -/

variable [LawfulBEq σ] [Hashable σ] [BEq κ] {audit : Audit σ κ Extended}

omit [LawfulBEq σ] in
/-- A compilation without a fault evaluates the diagram that it unrolled. -/
theorem Request.compileWith_of_ok {V : Type} [Value V] {r : Request σ κ V} {audit : Audit σ κ V}
    {session : Session σ κ V} {report : Report V}
    (hok : (r.compileWith audit session).outcome = .ok report) :
    (r.unroll audit session).fault = none ∧ r.compileWith audit session =
      r.evaluate (r.unroll audit session).session (r.unroll audit session).diagram := by
  unfold compileWith at hok ⊢
  dsimp only at hok ⊢
  cases hfault : (r.unroll audit session).fault with
  | some fault =>
    rw [hfault] at hok
    cases hok
  | none => exact ⟨rfl, rfl⟩

/-- What a compilation without a fault brings about. -/
theorem Request.compileWith_compiles (hr : r.Tame) (haudit : audit.Discreet)
    (session : Session σ κ Extended) {report : Report Extended}
    (hok : (r.compileWith audit session).outcome = .ok report) :
    Compiles r session (r.compileWith audit session) ∧
      (r.unroll audit session).diagram.SameShape (r.compileWith audit session).diagram := by
  obtain ⟨hfault, heq⟩ := Request.compileWith_of_ok hok
  rw [heq] at hok ⊢
  have hu := r.unroll_unrolls hr haudit session hfault
  have hgrown := hu.grown
  rw [← hu.cache] at hgrown
  have h := Request.evaluate_evaluated hgrown hu.ended (Request.clear_of_ok hok)
  exact ⟨⟨_, hu.evolves, hu.cache, h.1⟩, h.2⟩

/-- A compilation goes through if it unrolls its diagram without a fault and finds no
bound to be inadmissible. -/
theorem Request.exists_ok_of_clear (hr : r.Tame) (haudit : audit.Discreet)
    {session : Session σ κ Extended} (hfault : (r.unroll audit session).fault = none)
    (hclear : r.Clear (r.unroll audit session).diagram) :
    ∃ report, (r.compileWith audit session).outcome = .ok report := by
  have hu := r.unroll_unrolls hr haudit session hfault
  have hgrown := hu.grown
  rw [← hu.cache] at hgrown
  unfold compileWith
  dsimp only
  rw [hfault]
  exact ⟨_, (Request.evaluate_evaluated hgrown hu.ended hclear).1.outcome⟩

/-- **A regular request compiles without a fault.** -/
theorem Request.exists_compileWith_ok (hr : r.Regular) (haudit : audit.Discreet)
    (hlenient : audit.Lenient r)
    (hroot : r.checks.watches = true → r.kind ≠ .relaxed → r.Entered)
    (session : Session σ κ Extended) :
    ∃ report, (r.compileWith audit session).outcome = .ok report := by
  have hfault := Request.fault_unroll hr.tame (fun _ => hr) haudit hlenient session
  have hu := r.unroll_unrolls hr.tame haudit session hfault
  exact Request.exists_ok_of_clear hr.tame haudit hfault fun hwatch hkind =>
    hu.grown.clear hu.ended hr (fun _ => hroot hwatch hkind) hwatch hkind

section Worth

variable {s : Subproblem σ Extended}

omit [LawfulBEq σ] [Hashable σ] [BEq σ] [BEq κ] in
theorem Request.Regular.exactly (hr : r.Regular) (s : Subproblem σ Extended) :
    (r.exactly s).Regular :=
  ⟨hr.isPure, hr.finite, hr.static, hr.sound⟩

omit [LawfulBEq σ] [Hashable σ] [BEq σ] [BEq κ] in
theorem Request.Tame.exactly (hr : r.Tame) (s : Subproblem σ Extended) : (r.exactly s).Tame :=
  ⟨hr.isPure, hr.static⟩

/-- Compiled exactly, on the side, a sub-problem meets no fault: nothing is merged and
no bound is checked. -/
theorem Request.exists_exactly_ok (hr : r.Tame) (s : Subproblem σ Extended)
    (session : Session σ κ Extended) :
    ∃ report, ((r.exactly s).compileWith (fun session _ _ => (session, none))
      session.aside).outcome = .ok report := by
  have hkind : (r.exactly s).kind ≠ .relaxed := nofun
  refine Request.exists_ok_of_clear (hr.exactly s) (fun session _ _ => .refl session) ?_ nofun
  exact (r.exactly s).fault_unroll (hr.exactly s) (fun h => absurd h hkind)
    (fun session _ _ => .refl session) (fun h => absurd h hkind) session.aside

theorem Request.exactly_compiles (hr : r.Tame) (s : Subproblem σ Extended)
    (session : Session σ κ Extended) :
    Compiles (r.exactly s) session.aside
      ((r.exactly s).compileWith (fun session _ _ => (session, none)) session.aside) := by
  obtain ⟨_, hok⟩ := Request.exists_exactly_ok hr s session
  exact ((r.exactly s).compileWith_compiles (hr.exactly s) (fun session _ _ => .refl session)
    session.aside hok).1

/-- **A sub-problem is not worth more than its optimum.** -/
theorem Request.worth_le (hr : r.Tame) (session : Session σ κ Extended) {v : Extended}
    (hv : (r.worth session s).1 = some v) :
    v ≤ s.value + (r.exactly s).optimumAt 0 s.state ∧
      ((∀ s d, Value.isFinite (r.model.problem.cost s d) = true) → s.value ≠ negInf →
        v ≠ negInf) := by
  obtain ⟨mid, _, _, hc⟩ := r.exactly_compiles hr s session
  obtain ⟨k, ds, s', _, htraced, hnone⟩ := hc.traced_best (.inl Kind.noConfusion) hv
  refine ⟨?_, fun hfinite hne => htraced.2.ne_negInf hfinite hne⟩
  have hle := htraced.add_optimumAt_le
  rwa [Request.optimumAt_of_none hnone, add_zero] at hle

/-- **Nor is it worth less.** -/
theorem Request.le_worth (hr : r.Regular) (session : Session σ κ Extended)
    (hne : s.value + (r.exactly s).optimumAt 0 s.state ≠ negInf) :
    ∃ v, (r.worth session s).1 = some v ∧ s.value + (r.exactly s).optimumAt 0 s.state ≤ v := by
  obtain ⟨mid, hevolves, hcache, hc⟩ := r.exactly_compiles hr.tame s session
  refine hc.exists_bestValue (hr.exactly s) (hc.exact rfl) rfl (fun state depth => ?_)
    (negInf_lt_iff.2 hne)
  rw [hcache]
  exact Cache.get?_of_size_eq_zero rfl

/-- What a sub-problem is worth, according to a rule, is what compiling it exactly
tells. -/
structure Request.Appraises (r : Request σ κ Extended) (b : Branching σ) : Prop where
  worth_le : ∀ session s v, (r.worth session s).1 = some v →
    v ≤ s.value + r.model.problem.optimum b (s.free r.model.problem.variables) s.state ∧
      (s.value ≠ negInf → v ≠ negInf)
  le_worth : ∀ session s,
    s.value + r.model.problem.optimum b (s.free r.model.problem.variables) s.state ≠ negInf →
    ∃ v, (r.worth session s).1 = some v ∧
      s.value + r.model.problem.optimum b (s.free r.model.problem.variables) s.state ≤ v

theorem Request.Regular.appraises (hr : r.Regular) : r.Appraises r.branching :=
  ⟨fun session _ _ hv => (Request.worth_le hr.tame session hv).imp_right fun h => h hr.finite,
    fun session _ hne => Request.le_worth hr session hne⟩

end Worth

/-! ### Audits -/

omit [LawfulBEq σ] in
theorem Request.quiet_worth (r : Request σ κ Extended) (session : Session σ κ Extended)
    (s : Subproblem σ Extended) : session.Quiet (r.worth session s).2 :=
  Session.quiet_resume _

omit [LawfulBEq σ] in
theorem Request.quiet_findUnsound (r : Request σ κ Extended) (m : Subproblem σ Extended)
    (relaxed : Option Extended) (parts : List (Subproblem σ Extended))
    (session : Session σ κ Extended) :
    session.Quiet (r.findUnsound m relaxed session parts).1 := by
  induction parts generalizing session with
  | nil => exact .refl session
  | cons s rest ih =>
    have hquiet := r.quiet_worth session s
    rw [findUnsound]
    dsimp only
    split
    · exact hquiet.trans (ih _)
    · exact hquiet
    · split
      · exact hquiet
      · exact hquiet.trans (ih _)

omit [LawfulBEq σ] in
/-- An audit only reports to the log. -/
theorem Request.audit_discreet (r : Request σ κ Extended) : r.audit.Discreet := by
  intro session m parts
  unfold audit
  split
  · exact (r.quiet_worth session m).trans (r.quiet_findUnsound m _ parts _)
  · exact .refl session

omit [LawfulBEq σ] in
/-- No part of a fair merge is worth more than the merged sub-problem. -/
theorem Request.Appraises.findUnsound_eq_none {b : Branching σ} (h : r.Appraises b)
    (hfocus : r.model.problem.Focused) {i : Nat} {m : Subproblem σ Extended}
    {relaxed : Option Extended} {parts : List (Subproblem σ Extended)}
    (hfair : Fair { r with branching := b } i m parts)
    (hrelaxed : m.value + Request.optimumAt { r with branching := b } i m.state ≠ negInf →
      ∃ v, relaxed = some v ∧
        m.value + Request.optimumAt { r with branching := b } i m.state ≤ v)
    (session : Session σ κ Extended) : (r.findUnsound m relaxed session parts).2 = none := by
  induction parts generalizing session with
  | nil => rfl
  | cons s rest ih =>
    obtain ⟨hfree, hne, hle⟩ := hfair.part s List.mem_cons_self
    have hgo := ih ⟨hfair.apt, fun s hs => hfair.part s (List.mem_cons_of_mem _ hs)⟩
      (r.worth session s).2
    have hworth : ∀ v, (r.worth session s).1 = some v →
        v ≤ m.value + Request.optimumAt { r with branching := b } i m.state ∧ v ≠ negInf := by
      intro v hv
      obtain ⟨hvle, hvne⟩ := h.worth_le session s v hv
      refine ⟨le_trans ?_ hle, hvne hne⟩
      rw [Request.optimumAt, ← hfree hfocus]
      exact hvle
    rw [findUnsound]
    dsimp only
    split
    · exact hgo
    · -- The merged sub-problem is worth something, since one of its parts is.
      rename_i v hv
      obtain ⟨hvle, hvne⟩ := hworth v hv
      obtain ⟨u, hu, _⟩ := hrelaxed fun hneg => hvne (le_negInf_iff.1 (hneg ▸ hvle))
      cases hu
    · rename_i v u hv
      obtain ⟨hvle, hvne⟩ := hworth v hv
      obtain ⟨u', hu, hule⟩ := hrelaxed fun hneg => hvne (le_negInf_iff.1 (hneg ▸ hvle))
      obtain rfl := Option.some.inj hu
      rw [not_surpasses (hvle.trans hule), if_neg Bool.false_ne_true]
      exact hgo

omit [LawfulBEq σ] in
/-- **An audit finds nothing wrong with a fair merge.** -/
theorem Request.Appraises.audit_lenient {b : Branching σ} (h : r.Appraises b)
    (hfocus : r.kind = .relaxed → r.checks = .extended → r.model.problem.Focused) :
    r.audit.Lenient { r with branching := b } := by
  intro hkind session i m parts hfair
  unfold audit
  split
  · rename_i hchecks
    have hf := hfocus hkind hchecks
    refine h.findUnsound_eq_none hf hfair (fun hne => ?_) (r.worth session m).2
    rw [Request.optimumAt, ← hfair.apt hf] at hne ⊢
    exact h.le_worth session m hne
  · rfl

/-- **A regular request compiles without a fault**, as long as what is checked can be
told from it. -/
theorem Request.exists_compile_ok (hr : r.Regular)
    (hfocus : r.kind = .relaxed → r.checks = .extended → r.model.problem.Focused)
    (hroot : r.checks.watches = true → r.kind ≠ .relaxed → r.Entered)
    (session : Session σ κ Extended) : ∃ report, (r.compile session).outcome = .ok report :=
  Request.exists_compileWith_ok hr r.audit_discreet (hr.appraises.audit_lenient hfocus) hroot
    session

/-- **What a compilation without a fault brings about.** -/
theorem Request.compile_compiles (hr : r.Regular) (session : Session σ κ Extended)
    {report : Report Extended} (hok : (r.compile session).outcome = .ok report) :
    Compiles r session (r.compile session) :=
  (Request.compileWith_compiles hr.tame r.audit_discreet session hok).1

end DiagramSearch
