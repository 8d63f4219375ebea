/-
# Every search ends

A search replaces a sub-problem by deeper ones, of which none is deeper than there
are variables.  So it ends, whatever the model: bounds, merges and dominance may be
wrong, transitions impure and costs undefined, the branching rule may give up at any
time, and the search may be told to stop before any of its moves.  Only domains have
to list decisions on the variable in question.

A sub-problem without a value may have a path that is too short, and too many
variables that seem to be free.  Its diagram has no value that beats an incumbent, so
nothing of it is ever opened.

* `Solver.visit_deepens`: **all that a visit opens is deeper, and not too deep**;
* `Solver.Course`: the moments right before a move of a search;
* `Solver.solve_terminates`: what is handed out along a search, and that it ends.
-/

import DiagramSearch.Proofs.Announcing
import DiagramSearch.Proofs.Laddering
import DiagramSearch.Proofs.Optimality

namespace DiagramSearch

variable {σ κ V : Type} [BEq σ] [Hashable σ] [BEq κ] [Value V]

/-! ### Visiting a sub-problem -/

omit [BEq σ] [Hashable σ] [BEq κ] in
/-- A sub-problem that is not too deep.  Its path lists as many decisions as it is deep,
unless it has no value. -/
structure Subproblem.Level (n : Nat) (N : Subproblem σ V) : Prop where
  depth_le : N.depth ≤ n
  upright : N.value ≤ N.value → N.Upright n

/-- A solver before and after a sub-problem is visited: all that is opened is deeper, and
not too deep. -/
structure Deepens (n : Nat) (P : Subproblem σ V) (s s' : Solver σ κ V) : Prop where
  settings : s'.settings = s.settings
  sense : s'.standing.sense = s.standing.sense
  queue : ∃ new, s'.queue.entries.Perm (new ++ s.queue.entries) ∧
    ∀ N ∈ new, P.depth < N.depth ∧ N.Level n

section Deepens

variable {n : Nat} {P : Subproblem σ V} {s s' s'' : Solver σ κ V}

omit [BEq σ] [Hashable σ] [BEq κ] in
theorem Deepens.of_queue_eq (hsettings : s'.settings = s.settings)
    (hsense : s'.standing.sense = s.standing.sense) (hqueue : s'.queue = s.queue) :
    Deepens n P s s' :=
  ⟨hsettings, hsense, [], hqueue ▸ .refl _, nofun⟩

omit [BEq σ] [Hashable σ] [BEq κ] in
theorem Deepens.trans (h : Deepens n P s s') (h' : Deepens n P s' s'') : Deepens n P s s'' := by
  obtain ⟨new, hperm, hnew⟩ := h.queue
  obtain ⟨new', hperm', hnew'⟩ := h'.queue
  refine ⟨h'.settings.trans h.settings, h'.sense.trans h.sense, new' ++ new, ?_, fun N hN => ?_⟩
  · rw [List.append_assoc]
    exact hperm'.trans (hperm.append_left new')
  · exact (List.mem_append.1 hN).elim (hnew' N) (hnew N)

omit [BEq σ] [Hashable σ] [BEq κ] in
theorem Solver.publish_deepens (s : Solver σ κ V) (value : Option V) (solution : Option Path) :
    Deepens n P s (s.publish value solution) := by
  rcases s.publish_cases value solution with ⟨heq, _⟩ | ⟨v, path, _, _, _, heq⟩
  · rw [heq]
    exact .of_queue_eq rfl rfl rfl
  · rw [heq]
    exact .of_queue_eq rfl rfl rfl

omit [BEq σ] [Hashable σ] [BEq κ] in
/-- Opening the sub-problems that are handed out. -/
theorem Solver.openCutset_deepens (s : Solver σ κ V) (bound : V)
    (h : ∀ z ∈ s.diagram.handOut.1, P.depth < z.depth ∧ z.Level n) :
    Deepens n P s (s.openCutset bound) := by
  refine s.openCutset_induction bound (M := Deepens n P s) (.of_queue_eq rfl rfl rfl)
    (fun t ht z hz => ?_) fun t ht => ht.trans (.of_queue_eq rfl rfl rfl)
  obtain ⟨hdeeper, hlevel⟩ := h z hz
  refine ht.trans ⟨rfl, rfl, [_], t.queue.entries_push_perm _ _, fun N hN => ?_⟩
  obtain rfl := List.mem_singleton.1 hN
  exact ⟨hdeeper, hlevel.depth_le, fun hdef =>
    ⟨(hlevel.upright hdef).length, (hlevel.upright hdef).assigned⟩⟩

omit [BEq σ] [Hashable σ] [BEq κ] in
theorem Problem.Focused.prices {m : Model σ V} (h : m.problem.Focused) (sense : Sense) :
    (m.orient sense).Prices fun _ => True :=
  ⟨h, fun _ _ _ _ => trivial, fun _ _ _ _ _ _ => trivial⟩

omit [BEq σ] [Hashable σ] [BEq κ] in
/-- **What a diagram hands out is deeper than its root, and not too deep** if the root
has a value. -/
theorem Scaled.level [Value.Grounded V] {good : V → Prop} {r : Request σ κ V} {d : Diagram σ V}
    (h : Scaled good r d) (hP : r.residual.Level r.model.problem.variables)
    (hdef : r.residual.value ≤ r.residual.value) {z : Subproblem σ V} (hz : z ∈ d.handOut.1) :
    r.residual.depth < z.depth ∧ z.Level r.model.problem.variables := by
  obtain ⟨hdeeper, hle⟩ := h.deeper hz
  rw [(hP.upright hdef).depth_add_size] at hle
  exact ⟨hdeeper, hle, h.upright hP.upright hz⟩

variable [Value.Grounded V]

/-- Bounding a sub-problem. -/
theorem Solver.bound_deepens (hfocus : s.settings.model.problem.Focused)
    (hP : P.Level s.settings.model.problem.variables) (width : Nat) :
    Deepens s.settings.model.problem.variables P s (s.bound width P).1 := by
  unfold Solver.bound
  split
  · rename_i s₁ fault heq
    obtain ⟨rfl, -⟩ := Prod.mk.inj heq
    exact .of_queue_eq rfl rfl rfl
  · rename_i s₁ c heq
    obtain ⟨rfl, hok⟩ := Prod.mk.inj heq
    have hscaled := Request.compile_scaled (r := s.request .relaxed width P)
      (hfocus.prices s.standing.sense) hok
    have hreport := Request.compile_bestValue hok
    generalize (s.request .relaxed width P).compile s.session = compiled at hscaled hreport ⊢
    have hcompiled : Deepens s.settings.model.problem.variables P s
        { s with session := compiled.session, diagram := compiled.diagram } :=
      .of_queue_eq rfl rfl rfl
    split
    · exact hcompiled.trans (Solver.publish_deepens _ _ _)
    · dsimp only
      have hpublished := hcompiled.trans (Solver.publish_deepens
        { s with session := compiled.session, diagram := compiled.diagram }
        compiled.diagram.bestExactValue compiled.diagram.bestExactSolution)
      split
      · rename_i hany
        refine hpublished.trans (Solver.openCutset_deepens _ _ fun z hz => ?_)
        rw [(Solver.publish_frame _ _ _).1] at hz
        obtain ⟨v, hv, hlt⟩ := (Option.any_eq_true ..).1 hany
        rw [hreport] at hv
        exact hscaled.level hP (hscaled.root_defined hv ⟨_, of_decide_eq_true hlt⟩) hz
      · exact hpublished

/-- Exploring a sub-problem. -/
theorem Solver.explore_deepens (hfocus : s.settings.model.problem.Focused)
    (hP : P.Level s.settings.model.problem.variables) :
    Deepens s.settings.model.problem.variables P s (s.explore P).1 := by
  unfold Solver.explore
  extract_lets width sense noted
  split
  · rename_i s₁ fault heq
    obtain ⟨rfl, -⟩ := Prod.mk.inj heq
    exact .of_queue_eq rfl rfl rfl
  · rename_i s₁ c heq
    obtain ⟨rfl, -⟩ := Prod.mk.inj heq
    generalize (noted.request .restricted width P).compile noted.session = compiled
    have hcompiled : Deepens s.settings.model.problem.variables P s
        { noted with session := compiled.session, diagram := compiled.diagram } :=
      .of_queue_eq rfl rfl rfl
    have hpublished := hcompiled.trans (Solver.publish_deepens _
      compiled.diagram.bestValue compiled.diagram.bestSolution)
    dsimp only
    split
    · exact hpublished
    · have hsettings := hpublished.settings
      generalize Solver.publish _ compiled.diagram.bestValue compiled.diagram.bestSolution = s₂
        at hpublished hsettings
      rw [← hsettings] at hfocus hP
      have hbound := Solver.bound_deepens hfocus hP width
      rw [hsettings] at hbound
      exact hpublished.trans hbound

/-- **All that a visit opens is deeper, and not too deep.** -/
theorem Solver.visit_deepens (hfocus : s.settings.model.problem.Focused)
    (hP : P.Level s.settings.model.problem.variables) :
    Deepens s.settings.model.problem.variables P s (s.visit P).1 := by
  unfold Solver.visit
  split
  · split
    · have hexplored := Solver.explore_deepens
        (s := { s with session := s.session.remember P.state P.depth ⟨P.value, true⟩ }) hfocus hP
      exact ⟨hexplored.settings, hexplored.sense, hexplored.queue⟩
    · exact .of_queue_eq rfl rfl rfl
  · exact Solver.explore_deepens hfocus hP

end Deepens

/-! ### Searching -/

section Search

variable {n : Nat} {s s' : Solver σ κ V} {cutoff : Cutoff V}

/-- All open sub-problems are at most so deep. -/
def Solver.Level (n : Nat) (s : Solver σ κ V) : Prop := ∀ N ∈ s.queue.entries, N.Level n

omit [BEq σ] [Hashable σ] [BEq κ] in
/-- A move takes the first of the open sub-problems, if it takes any. -/
theorem Solver.nextMove_explore {P : Subproblem σ V}
    (h : s.nextMove cutoff = (s', .explore P)) : s'.settings = s.settings ∧
      s'.standing.sense = s.standing.sense ∧ s.queue.entries = P :: s'.queue.entries := by
  obtain ⟨rest, hqueue, _, rfl⟩ := Solver.takeUp_of_explore h
  rw [Solver.retireLayers_eq_forget]
  exact ⟨rfl, rfl, hqueue⟩

variable [Value.Grounded V]

/-- **One move of a search** takes a sub-problem that is not too deep, and leaves such
sub-problems open. -/
theorem Solver.Level.visit {s₁ : Solver σ κ V} {P : Subproblem σ V}
    (h : s.Level s.settings.model.problem.variables)
    (hfocus : s.settings.model.problem.Focused)
    (hmove : s.nextMove cutoff = (s₁, .explore P)) :
    P.Level s.settings.model.problem.variables ∧
      Deepens s.settings.model.problem.variables P s₁ (s₁.visit P).1 ∧
      (s₁.visit P).1.Level s.settings.model.problem.variables := by
  obtain ⟨hsettings, _, hqueue⟩ := Solver.nextMove_explore hmove
  have hP : P.Level s.settings.model.problem.variables := h P (hqueue ▸ List.mem_cons_self)
  have hdeepens := Solver.visit_deepens (s := s₁) (P := P) (by rw [hsettings]; exact hfocus)
    (by rw [hsettings]; exact hP)
  rw [hsettings] at hdeepens
  refine ⟨hP, hdeepens, fun N hN => ?_⟩
  obtain ⟨new, hperm, hnew⟩ := hdeepens.queue
  rcases List.mem_append.1 (hperm.mem_iff.1 hN) with hN | hN
  · exact (hnew N hN).2
  · exact h N (hqueue ▸ List.mem_cons_of_mem P hN)

omit [Value.Grounded V] in
/-- Once a search has come to an end, more rounds make no difference. -/
theorem Solver.search_of_le {rounds rounds' : Nat} {ending : Ending σ V}
    (h : search cutoff rounds s = (s', some ending)) (hle : rounds ≤ rounds') :
    search cutoff rounds' s = (s', some ending) := by
  induction rounds generalizing s rounds' with
  | zero => cases h
  | succ rounds ih =>
    obtain ⟨n, rfl⟩ := Nat.exists_eq_add_of_le' (Nat.le_of_add_left_le hle)
    rw [search] at h ⊢
    rcases hmove : s.nextMove cutoff with ⟨s₁, move⟩
    rw [hmove] at h
    cases move with
    | exhausted => exact h
    | stopped => exact h
    | explore P =>
      dsimp only at h ⊢
      rcases hvisit : s₁.visit P with ⟨s₂, fault⟩
      rw [hvisit] at h
      cases fault with
      | some fault => exact h
      | none => exact ih h (by omega)

omit [Value.Grounded V] in
theorem Solver.solve_of_le {sense : Sense} {rounds rounds' : Nat}
    {outcome : Except (Fault σ V) (Statistics V)}
    (h : s.solve rounds sense cutoff = (s', some outcome)) (hle : rounds ≤ rounds') :
    s.solve rounds' sense cutoff = (s', some outcome) := by
  unfold Solver.solve at h ⊢
  rcases hsearch : search cutoff rounds (s.openRoot sense) with ⟨s₁, _ | ending⟩
  · rw [hsearch] at h
    cases h
  · rw [hsearch] at h
    rw [Solver.search_of_le hsearch hle]
    exact h

/-- **Every search ends.** -/
theorem Solver.search_terminates (cutoff : Cutoff V) (s : Solver σ κ V)
    (hfocus : s.settings.model.problem.Focused)
    (h : s.Level s.settings.model.problem.variables) : ∃ s' ending enough,
      ∀ rounds, enough ≤ rounds → search cutoff rounds s = (s', some ending) := by
  suffices hends : ∃ s' ending enough, search cutoff enough s = (s', some ending) by
    obtain ⟨s', ending, enough, hsearch⟩ := hends
    exact ⟨s', ending, enough, fun _ => Solver.search_of_le hsearch⟩
  have hwf : WellFounded (Multiset.IsDershowitzMannaLT : Multiset Nat → Multiset Nat → Prop) :=
    Multiset.wellFounded_isDershowitzMannaLT
  induction hload : s.settings.load s.queue.entries using hwf.induction generalizing s with
  | h load ih =>
    rcases hmove : s.nextMove cutoff with ⟨s₁, move⟩
    cases move with
    | exhausted => exact ⟨s₁, .exhausted, 1, by rw [search, hmove]⟩
    | stopped => exact ⟨s₁, .stopped, 1, by rw [search, hmove]⟩
    | explore P =>
      obtain ⟨hsettings, _, hqueue⟩ := Solver.nextMove_explore hmove
      obtain ⟨_, hdeepens, hlevel⟩ := h.visit hfocus hmove
      rcases hvisit : s₁.visit P with ⟨s₂, fault⟩
      rw [hvisit] at hdeepens hlevel
      have hsame : s₂.settings = s.settings := hdeepens.settings.trans hsettings
      cases fault with
      | some fault =>
        refine ⟨s₂, .faulty fault, 1, ?_⟩
        rw [search, hmove]
        dsimp only
        rw [hvisit]
      | none =>
        obtain ⟨new, hperm, hnew⟩ := hdeepens.queue
        have hlighter : Multiset.IsDershowitzMannaLT (s₂.settings.load s₂.queue.entries) load := by
          rw [← hload, hqueue, hsame]
          exact s.settings.load_lt hperm fun N hN => ⟨(hnew N hN).1, (hnew N hN).2.depth_le⟩
        rw [← hsame] at hfocus hlevel
        obtain ⟨s', ending, enough, hsearch⟩ := ih _ hlighter s₂ hfocus hlevel rfl
        refine ⟨s', ending, enough + 1, ?_⟩
        rw [search, hmove]
        dsimp only
        rw [hvisit]
        exact hsearch

/-- The moments right before a move of a search. -/
inductive Solver.Course (cutoff : Cutoff V) (s : Solver σ κ V) : Solver σ κ V → Prop where
  | start : Course cutoff s s
  | next {s₁ s₂ s₃ : Solver σ κ V} {P : Subproblem σ V} (h : Course cutoff s s₁)
      (hmove : s₁.nextMove cutoff = (s₂, .explore P)) (hvisit : s₂.visit P = (s₃, none)) :
      Course cutoff s s₃

/-- **No open sub-problem is ever too deep.** -/
theorem Solver.Course.level (hfocus : s.settings.model.problem.Focused)
    (h : s.Level s.settings.model.problem.variables) (hcourse : s.Course cutoff s') :
    s'.settings = s.settings ∧ s'.Level s.settings.model.problem.variables := by
  induction hcourse with
  | start => exact ⟨rfl, h⟩
  | next _ hmove hvisit ih =>
    obtain ⟨hsettings, hlevel⟩ := ih
    rw [← hsettings] at hfocus hlevel
    obtain ⟨_, hdeepens, hlevel'⟩ := hlevel.visit hfocus hmove
    rw [hvisit] at hdeepens hlevel'
    rw [hsettings] at hlevel'
    obtain ⟨hsame, _⟩ := Solver.nextMove_explore hmove
    exact ⟨hdeepens.settings.trans (hsame.trans hsettings), hlevel'⟩

omit [BEq σ] [Hashable σ] [BEq κ] [Value.Grounded V] in
/-- The root is not deep at all. -/
theorem Solver.openRoot_level (s : Solver σ κ V) (sense : Sense) :
    (s.openRoot sense).Level s.settings.model.problem.variables := by
  intro N hN
  obtain rfl := List.mem_singleton.1 hN
  exact ⟨Nat.zero_le _, fun _ => ⟨rfl, List.nil_subperm⟩⟩

/-- **Every search ends, for every model and under every cutoff.**  What is handed out by
any diagram of a sub-problem that a search takes up is deeper than it, and at most as
deep as there are variables, unless the sub-problem has no value; the search asks no
diagram that has no value above the incumbent.  A diagram is unrolled in no more rounds
than its root has free variables, and the search comes to an end. -/
theorem Solver.solve_terminates (s : Solver σ κ V) (hfocus : s.settings.model.problem.Focused)
    (sense : Sense) (cutoff : Cutoff V) :
    (∀ s₁ s₂ P, (s.openRoot sense).Course cutoff s₁ → s₁.nextMove cutoff = (s₂, .explore P) →
      ∀ (r : Request σ κ V) session report, r.model = s.settings.model.orient sense →
        r.residual = P → (r.compile session).outcome = .ok report →
        ∀ z ∈ (r.compile session).diagram.handOut.1, P.depth < z.depth ∧
          ((P.value ≤ P.value ∨ ∃ v lower, report.bestValue = some v ∧ lower < v) →
            z.depth ≤ s.settings.model.problem.variables)) ∧
    (∀ (r : Request σ κ V) audit session rounds,
      (r.residual.free r.model.problem.variables).size ≤ rounds →
        unroll audit r rounds (r.residual.free r.model.problem.variables) session
          (Diagram.rooted r.residual) = r.unroll audit session) ∧
    ∃ s' outcome enough, ∀ rounds, enough ≤ rounds →
      s.solve rounds sense cutoff = (s', some outcome) := by
  have hlevel := s.openRoot_level sense
  refine ⟨fun s₁ s₂ P hcourse hmove r session report hmodel hresidual hok z hz => ?_,
    fun r audit session rounds hrounds => unroll_eq audit r session _ hrounds le_rfl, ?_⟩
  · obtain ⟨_, hlevel₁⟩ := hcourse.level (s := s.openRoot sense) hfocus hlevel
    obtain ⟨_, _, hqueue⟩ := Solver.nextMove_explore hmove
    have hP : P.Level s.settings.model.problem.variables :=
      hlevel₁ P (hqueue ▸ List.mem_cons_self)
    subst hresidual
    have hscaled := Request.compile_scaled (hmodel ▸ hfocus.prices sense) hok
    have hvariables : r.model.problem.variables = s.settings.model.problem.variables := by
      rw [hmodel]
      rfl
    rw [← hvariables] at hP ⊢
    refine ⟨(hscaled.deeper hz).1, fun hcase => ?_⟩
    have hdef : r.residual.value ≤ r.residual.value := by
      rcases hcase with hdef | ⟨v, lower, hv, hlt⟩
      · exact hdef
      · exact hscaled.root_defined ((Request.compile_bestValue hok).symm.trans hv) ⟨lower, hlt⟩
    exact (hscaled.level hP hdef hz).2.depth_le
  · obtain ⟨s', ending, enough, hsearch⟩ :=
      Solver.search_terminates cutoff (s.openRoot sense) hfocus hlevel
    refine ⟨(s'.finish sense ending).1, (s'.finish sense ending).2, enough,
      fun rounds hrounds => ?_⟩
    unfold Solver.solve
    rw [hsearch rounds hrounds]

end Search

open Extended

/-- The two picks with a state that only counts how often it was asked for one, costs
that know no bounds, and a relaxation that is wrong throughout. -/
def restlessSettings : Settings Nat Unit Extended :=
  { twoPicksSettings true none with
    model :=
      { problem :=
          { twoPicks with
            transition := fun k _ _ => k
            cost := fun s d => if s = 1 then negInf else finite d.value }
        relaxation :=
          { merge := fun _ => 7
            relax := fun _ _ _ _ _ => finite 3
            upperBound := fun _ _ => finite 9
            lowerBound := fun _ _ => finite 1 } }
    cutset := .frontier
    checks := .off }

/-- Both first picks are handed out, and the search ends. -/
theorem Solver.solve_terminates_restless :
    let s := Solver.ofSettings restlessSettings
    let c := (s.request .relaxed 1 (s.root .maximize)).compile .fresh
    c.diagram.handOut.1.length = 2 ∧
      (∀ z ∈ c.diagram.handOut.1, 0 < z.depth ∧ z.depth ≤ 2) ∧
      ∃ s' outcome enough, ∀ rounds, enough ≤ rounds →
        s.solve rounds .maximize Cutoff.never = (s', some outcome) := by
  intro s c
  have hfocus : s.settings.model.problem.Focused := by
    intro v _ d hd
    rcases List.mem_pair.1 hd with rfl | rfl
    · rfl
    · rfl
  have hmove : ((s.openRoot .maximize).nextMove Cutoff.never).2 = .explore (s.root .maximize) := rfl
  obtain ⟨hdeeper, _, hends⟩ := s.solve_terminates hfocus .maximize Cutoff.never
  refine ⟨by decide +kernel, fun z hz => ?_, hends⟩
  cases hok : c.outcome with
  | error fault =>
    have hreport : c.outcome.toBool = true := by decide +kernel
    rw [hok] at hreport
    cases hreport
  | ok report =>
    obtain ⟨hlt, hle⟩ := hdeeper _ _ _ .start (Prod.ext rfl hmove) _ _ report rfl rfl hok z hz
    exact ⟨hlt, hle (.inl le_rfl)⟩

end DiagramSearch
