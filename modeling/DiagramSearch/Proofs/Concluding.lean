/-
# What a single diagram proves

A solver may compile one diagram of the whole problem and leave it at that.  What it
says in the end depends on whether the diagram is exact, on its best value, on the
best value of its exact nodes, and on a solution that was known before and by which
the diagram was pruned.  None of these is made more of than it proves:

* `Testifies`: what a diagram of the whole problem says that can be relied on, and
  `Request.compile_testifies`: that every such diagram does;
* `Testifies.learn`: **the conclusions that a solver draws from it are right**, one
  case for each way in which it draws them;
* `Solver.solveOnce_frames`: an exact diagram solves the problem, a restricted one
  gives a solution, a relaxed one a bound, and each of them says so.
-/

import DiagramSearch.Proofs.Framing
import DiagramSearch.Proofs.Vouching
import DiagramSearch.Search.OneDiagram

namespace DiagramSearch

open Extended

variable {σ κ : Type}

/-- What is asked of settings where nothing is queued: they are lawful, whatever the
order of the queue is. -/
def Settings.LawfulUnqueued (set : Settings σ κ Extended) (sense : Sense) : Prop :=
  ∃ queueOrder, { set with queueOrder }.Lawful sense

/-! ### Diagrams of the whole problem -/

/-- A request for a diagram of the whole problem. -/
def Request.Whole (r : Request σ κ Extended) : Prop :=
  r.residual =
    { state := r.model.problem.initialState
      value := r.model.problem.initialValue
      path := []
      bound := posInf
      depth := 0 }

namespace Request.Whole

variable {r : Request σ κ Extended}

theorem reached (h : r.Whole) : r.residual.Reached r.model.problem r.branching := by
  rw [h]
  exact ⟨[], .refl _, rfl, .refl⟩

theorem optimal (h : r.Whole) : r.optimal = r.model.problem.total r.branching := by
  unfold Request.optimal Request.optimumAt Request.freeAt
  rw [h]
  rfl

end Request.Whole

/-- What a diagram of the whole problem says that can be relied on. -/
structure Testifies (r : Request σ κ Extended) (c : Compiled σ κ Extended)
    (report : Report Extended) : Prop where
  outcome : c.outcome = .ok report
  value : report.bestValue = c.diagram.bestValue
  exact : r.kind = .exact → report.isExact = true
  /-- The best path is a solution, unless the diagram only bounds. -/
  solution : r.kind ≠ .relaxed ∨ report.isExact = true → ∀ v, c.diagram.bestValue = some v →
    ∃ path, c.diagram.bestSolution = some path ∧ r.model.problem.Completes r.branching v path
  /-- So is the best path to an exact node. -/
  exactSolution : ∀ v, c.diagram.bestExactValue = some v →
    ∃ path, c.diagram.bestExactSolution = some path ∧
      r.model.problem.Completes r.branching v path
  /-- Unless nodes were dropped, what beats the value to beat is not above the best
  value. -/
  bound : r.kind ≠ .restricted ∨ report.isExact = true →
    r.toBeat < r.model.problem.total r.branching →
      ∃ v, c.diagram.bestValue = some v ∧ r.model.problem.total r.branching ≤ v

section Compile

variable [BEq σ] [LawfulBEq σ] [Hashable σ] [BEq κ] [LawfulBEq κ] {r : Request σ κ Extended}
  {session : Session σ κ Extended}

/-- **A diagram of the whole problem can be relied on.** -/
theorem Request.compile_testifies (hr : r.Regular) (hfocus : r.model.problem.Focused)
    (hwhole : r.Whole)
    (hsound : ∀ rel, r.dominance = some rel → rel.ValueSound r.model.problem r.branching ∧
      session.table.VacantFrom r.residual.depth)
    (hcache : ∀ state depth, session.cache.get? state depth = none) :
    ∃ report, Testifies r (r.compile session) report := by
  obtain ⟨report, hok⟩ := Request.exists_compile_ok hr (fun _ _ => hfocus)
    (fun _ _ _ => by rw [hwhole]) session
  obtain ⟨mid, _, _, h⟩ := Request.compile_compiles hr session hok
  obtain rfl := Except.ok.inj (hok.symm.trans h.outcome)
  refine ⟨_, hok, rfl, h.exact, fun htrust v hv => ?_, fun v hv => ?_, fun hfine hbeat => ?_⟩
  · obtain ⟨i, ds, state, hpath, htraced, hnone⟩ := h.traced_best htrust hv
    exact ⟨_, hpath, htraced.completes hwhole.reached hnone⟩
  · obtain ⟨i, ds, state, hpath, htraced, hnone⟩ := h.traced_bestExact hv
    exact ⟨_, hpath, htraced.completes hwhole.reached hnone⟩
  · rw [← hwhole.optimal] at hbeat ⊢
    rcases Request.compile_attained hr hsound hcache hok hbeat with ⟨hkind, hlast⟩ | hattained
    · -- A restriction that dropped nodes does not call itself exact.
      rcases h.whole (hfine.resolve_left fun hne => hne hkind) with hrelaxed | hnone
      · rw [hkind] at hrelaxed
        cases hrelaxed
      · exact absurd hnone hlast
    · exact h.ranked.exists_bestValue hattained

end Compile

/-! ### Drawing conclusions -/

section Learn

variable {set : Settings σ κ Extended} {sense : Sense} {primal : Option (Extended × Path)}
  {s : Solver σ κ Extended}

/-- Publishing solutions keeps an incumbent genuine and within the frame. -/
theorem Framed.publish_solution
    (h : Framed ((set.oriented sense).total set.branching) sense s)
    (hgenuine : s.standing.Genuine sense (set.Vouches sense primal)) {value : Option Extended}
    {solution : Option Path}
    (hvalue : ∀ v, value = some v → ∃ path, solution = some path ∧
      (set.oriented sense).Completes set.branching v path) :
    Framed ((set.oriented sense).total set.branching) sense (s.publish value solution) ∧
      (s.publish value solution).standing.Genuine sense (set.Vouches sense primal) ∧
      s.standing.lower ≤ (s.publish value solution).standing.lower ∧
      ∀ v, value = some v → v ≤ (s.publish value solution).standing.lower := by
  have hpub := publish_published s value solution
  have hcompletes : ∀ v path, value = some v → solution = some path →
      (set.oriented sense).Completes set.branching v path := by
    intro v path hv hpath
    obtain ⟨path', hpath', h⟩ := hvalue v hv
    obtain rfl := Option.some.inj (hpath.symm.trans hpath')
    exact h
  refine ⟨h.publish fun v path hv hpath => (hcompletes v path hv hpath).le_total,
    hgenuine.published hpub fun v path hv hpath => .inl (hcompletes v path hv hpath), hpub.lower,
    fun v hv => ?_⟩
  obtain ⟨path, hpath, _⟩ := hvalue v hv
  exact hpub.better v path hv hpath

/-- What a solver has learned when it draws its conclusions: what it published is genuine
and within the frame, and so is the bound that it takes over.  It says that nothing is
left to be found only if its incumbent is the optimum. -/
structure Learned (set : Settings σ κ Extended) (sense : Sense)
    (primal : Option (Extended × Path)) (kind : Kind) (report : Report Extended)
    (s : Solver σ κ Extended) (upper : Extended) (exhausted : Bool) : Prop where
  genuine : { s.standing with upper }.Genuine sense (set.Vouches sense primal)
  frames : { s.standing with upper }.Frames ((set.oriented sense).total set.branching)
  told : s.session.Told (·.Frames sense (set.optimum sense))
  best : exhausted = true → (set.oriented sense).total set.branching ≤ s.standing.lower
  exact : kind = .exact → exhausted = true
  relaxed : kind = .relaxed → exhausted = false →
    report.bestValue = some upper ∧ s.standing.lower < upper

variable {r : Request σ κ Extended} {c : Compiled σ κ Extended} {report : Report Extended}

/-- An incumbent that is the optimum leaves nothing to be found. -/
theorem Learned.of_total_le {kind : Kind}
    (hgenuine : s.standing.Genuine sense (set.Vouches sense primal))
    (hframed : Framed ((set.oriented sense).total set.branching) sense s)
    (hbest : (set.oriented sense).total set.branching ≤ s.standing.lower) :
    Learned set sense primal kind report s s.standing.upper true :=
  ⟨hgenuine, hframed.standing, hframed.told, fun _ => hbest, fun _ => rfl, nofun⟩

/-- **The conclusions drawn from a diagram are right.** -/
theorem Testifies.learn (h : Testifies r c report)
    (hgenuine : s.standing.Genuine sense (set.Vouches sense primal))
    (hframed : Framed ((set.oriented sense).total set.branching) sense s)
    (hproblem : r.model.problem = set.oriented sense) (hbranching : r.branching = set.branching)
    (hbeat : r.toBeat = s.standing.lower) (hdiagram : s.diagram = c.diagram) :
    ∃ s₁ upper exhausted, s.learn r.kind report =
        { s₁ with standing := { s₁.standing with upper }.conclude exhausted } ∧
      Learned set sense primal r.kind report s₁ upper exhausted := by
  obtain ⟨_, hvalue, hexact, hsolution, hexactSolution, hbound⟩ := h
  rw [hproblem, hbranching, ← hdiagram] at hsolution hexactSolution hbound
  rw [← hdiagram] at hvalue
  rw [hbeat] at hbound
  -- Unless nodes were dropped, the optimum is known or within the bound.
  have hreach : r.kind ≠ .restricted ∨ report.isExact = true →
      (set.oriented sense).total set.branching ≤ s.standing.lower ∨
        ∃ v, report.bestValue = some v ∧ (set.oriented sense).total set.branching ≤ v := by
    intro hfine
    rcases le_or_gt ((set.oriented sense).total set.branching) s.standing.lower with hle | hlt
    · exact .inl hle
    · rw [hvalue]
      exact .inr (hbound hfine hlt)
  unfold Solver.learn
  dsimp only
  split
  · rename_i hisExact
    obtain ⟨hframed₁, hgenuine₁, hlower, hbetter⟩ := hframed.publish_solution hgenuine
      (hvalue ▸ hsolution (.inr hisExact))
    refine ⟨_, _, true, rfl, .of_total_le hgenuine₁ hframed₁ ?_⟩
    rcases hreach (.inr hisExact) with hle | ⟨v, hv, hle⟩
    · exact hle.trans hlower
    · exact hle.trans (hbetter v hv)
  · rename_i hinexact
    split
    · rename_i hkind
      obtain ⟨hframed₁, hgenuine₁, hlower, _⟩ := hframed.publish_solution hgenuine hexactSolution
      have hreach₁ := hreach (.inl (by rw [hkind]; exact Kind.noConfusion))
      split
      · rename_i bound hbest
        rw [hbest] at hreach₁
        split
        · rename_i hlt
          refine ⟨_, bound, false, rfl, ⟨hgenuine₁.facing, hgenuine₁.incumbent⟩,
            ⟨hframed₁.standing.lower, ?_⟩, hframed₁.told, nofun, fun heq => ?_,
            fun _ _ => ⟨hbest, hlt⟩⟩
          · rcases hreach₁ with hle | ⟨v, hv, hle⟩
            · exact (hle.trans hlower).trans (le_max_right _ _)
            · rw [← Option.some.inj hv] at hle
              exact hle.trans (le_max_left _ _)
          · rw [heq] at hkind
            cases hkind
        · rename_i hle
          refine ⟨_, _, true, rfl, .of_total_le hgenuine₁ hframed₁ ?_⟩
          rcases hreach₁ with hle' | ⟨v, hv, hle'⟩
          · exact hle'.trans hlower
          · rw [← Option.some.inj hv] at hle'
            exact hle'.trans (le_of_not_gt hle)
      · rename_i hbest
        rw [hbest] at hreach₁
        refine ⟨_, _, true, rfl, .of_total_le hgenuine₁ hframed₁ ?_⟩
        rcases hreach₁ with hle | ⟨v, hv, _⟩
        · exact hle.trans hlower
        · cases hv
    · rename_i hkind
      obtain ⟨hframed₁, hgenuine₁, _, _⟩ := hframed.publish_solution hgenuine
        (hvalue ▸ hsolution (.inl hkind))
      exact ⟨_, _, false, rfl, hgenuine₁, hframed₁.standing, hframed₁.told, nofun,
        fun heq => absurd (hexact heq) hinexact, fun heq => absurd heq hkind⟩

end Learn

/-! ### Last words -/

section Words

variable {set : Settings σ κ Extended} {sense : Sense} {primal : Option (Extended × Path)}
  {p : Standing Extended}

/-- The value of a solution is finite. -/
theorem Settings.LawfulUnqueued.isFinite (hset : set.LawfulUnqueued sense) {v : Extended}
    {path : Path} (h : (set.oriented sense).Completes set.branching v path) :
    Value.isFinite v = true := by
  obtain ⟨_, hset⟩ := hset
  obtain ⟨_, _, _, _, hleads, _⟩ := h
  exact hleads.wanders.isFinite hset.cost_oriented hset.start_oriented

/-- A genuine incumbent is finite, if there is one. -/
theorem Standing.Genuine.isFinite_lower (h : p.Genuine sense (set.Vouches sense primal))
    (hset : set.LawfulUnqueued sense) : Value.isFinite p.lower = true ∨ p.lower = negInf := by
  rcases h.incumbent with ⟨hlower, _⟩ | ⟨_, _, hvouches⟩
  · exact .inr hlower
  · obtain ⟨_, hcompletes⟩ := hvouches.exists_completes
    exact .inl (hset.isFinite hcompletes)

/-- With a finite incumbent, a finite upper end is a bound. -/
theorem Standing.exists_bound (hlower : Value.isFinite p.lower = true ∨ p.lower = negInf)
    (hupper : Value.isFinite p.upper = true) : ∃ b, p.bound = some b := by
  have hmax : Value.isFinite (max p.upper p.lower) = true := by
    rcases hlower with hlower | hlower
    · rcases max_choice p.upper p.lower with heq | heq
      · rw [heq]
        exact hupper
      · rw [heq]
        exact hlower
    · rw [hlower, max_eq_left (negInf_le _)]
      exact hupper
  exact ⟨_, if_pos hmax⟩

variable {kind : Kind} {report : Report Extended} {s : Solver σ κ Extended} {upper : Extended}
  {exhausted : Bool}

/-- The status is right. -/
theorem Learned.status (h : Learned set sense primal kind report s upper exhausted)
    (clock : Nat → Nat) :
    ((({ s.standing with upper }.conclude exhausted).statistics clock).status = .optimal →
      (({ s.standing with upper }.conclude exhausted).statistics clock).incumbent =
        some (set.optimum sense)) ∧
    ((({ s.standing with upper }.conclude exhausted).statistics clock).status = .infeasible →
      (set.oriented sense).total set.branching = negInf) := by
  cases exhausted with
  | true =>
    rcases h.genuine.conclude_exhausted (h.best rfl) clock with ⟨hstatus, hincumbent, _⟩ |
      ⟨hstatus, htotal⟩
    · rw [hstatus]
      exact ⟨fun _ => hincumbent, nofun⟩
    · rw [hstatus]
      exact ⟨nofun, fun _ => htotal⟩
  | false =>
    rcases Standing.status_conclude_false { s.standing with upper } clock with hstatus | hstatus
    · rw [hstatus]
      exact ⟨nofun, nofun⟩
    · rw [hstatus]
      exact ⟨nofun, nofun⟩

/-- After an exhaustive search the bound is the optimum, if that is finite. -/
theorem Learned.bound_of_exhausted (h : Learned set sense primal kind report s upper true)
    (hfinite : Value.isFinite ((set.oriented sense).total set.branching) = true)
    (clock : Nat → Nat) :
    (({ s.standing with upper }.conclude true).statistics clock).bound =
      some (set.optimum sense) := by
  have htotal : s.standing.lower = (set.oriented sense).total set.branching :=
    le_antisymm (h.genuine.lower_le fun _ _ hv => hv.le_total) (h.best rfl)
  have hfacing : s.standing.sense = sense := h.genuine.facing
  change (if Value.isFinite (max s.standing.lower s.standing.lower) = true then
    some (s.standing.sense.orient (max s.standing.lower s.standing.lower)) else none) = _
  rw [max_self, htotal, if_pos hfinite, hfacing]

/-- With a relaxed diagram there is a bound, if there is a solution and the best value of
the diagram is finite. -/
theorem Learned.exists_bound (h : Learned set sense primal .relaxed report s upper exhausted)
    (hset : set.LawfulUnqueued sense) (hne : (set.oriented sense).total set.branching ≠ negInf)
    (hfinite : ∀ v, report.bestValue = some v → v ≠ negInf → Value.isFinite v = true)
    (clock : Nat → Nat) :
    ∃ b, (({ s.standing with upper }.conclude exhausted).statistics clock).bound = some b := by
  cases exhausted with
  | true =>
    rcases h.genuine.conclude_exhausted (h.best rfl) clock with ⟨_, _, _, hcompletes⟩ |
      ⟨_, htotal⟩
    · exact ⟨_, h.bound_of_exhausted (hset.isFinite hcompletes) clock⟩
    · exact absurd htotal hne
  | false =>
    obtain ⟨hbest, hlt⟩ := h.relaxed rfl rfl
    exact Standing.exists_bound (h.genuine.isFinite_lower hset)
      (hfinite upper hbest (negInf_lt_iff.1 ((negInf_le _).trans_lt hlt)))

end Words

/-! ### Solving with a single diagram -/

section Once

variable [BEq σ] [LawfulBEq σ] [Hashable σ] [BEq κ] [LawfulBEq κ]

/-- A solver that is about to compile its single diagram: it starts anew, from a known
solution if there is one. -/
def Solver.startOnce {V : Type} [Value V] (s : Solver σ κ V) (kind : Kind) (sense : Sense) :
    Solver σ κ V :=
  let s := s.renew sense (.compilationStarted kind sense s.variables)
  let s :=
    match s.primal with
    | some (value, solution) => s.improve (some (sense.orient value)) (some solution)
    | none => s
  { s with
    standing := { s.standing with iterations := 1 }
    session := { s.session with cache := .off } }

omit [LawfulBEq σ] [LawfulBEq κ] in
theorem Solver.solveOnce_of_ok {s s' : Solver σ κ Extended} {kind : Kind} {sense : Sense}
    {report : Report Extended}
    (h : (s.startOnce kind sense).compile kind
      ((s.startOnce kind sense).settings.width ((s.startOnce kind sense).root sense))
      ((s.startOnce kind sense).root sense) = (s', .ok report)) :
    s.solveOnce kind sense Cutoff.never =
      ((s'.learn kind report).note (.compilationOver (s'.learn kind report).statistics),
        .ok (s'.learn kind report).statistics) := by
  unfold startOnce at h
  unfold solveOnce
  dsimp only at h ⊢
  rw [if_neg (show ¬Cutoff.never _ = true from Bool.false_ne_true)]
  -- Both look at the known solution, if there is one.
  generalize (s.renew sense (.compilationStarted kind sense s.variables)).primal = known at h ⊢
  cases known with
  | none => rw [h]
  | some => rw [h]

omit [BEq σ] [LawfulBEq σ] [Hashable σ] [BEq κ] [LawfulBEq κ] in
/-- What is known at the start is genuine and within the frame. -/
theorem Solver.startOnce_framed (s : Solver σ κ Extended) (kind : Kind) (sense : Sense)
    (hprimal : ∀ value path, s.primal = some (value, path) → ∃ path',
      (s.settings.oriented sense).Completes s.settings.branching (sense.orient value) path') :
    (s.startOnce kind sense).settings = s.settings ∧
      (s.startOnce kind sense).session.table = .empty ∧
      (s.startOnce kind sense).session.cache = .off ∧
      (s.startOnce kind sense).standing.Genuine sense (s.settings.Vouches sense s.primal) ∧
      Framed ((s.settings.oriented sense).total s.settings.branching) sense
        (s.startOnce kind sense) := by
  have htold : (s.renew sense (.compilationStarted kind sense s.variables)).session.Told
      (·.Frames sense (s.settings.optimum sense)) := by
    intro path st hmem
    change _ ∈ [Event.tableCleared, .notice _] at hmem
    simp at hmem
  have hframes : (Standing.start sense : Standing Extended).Frames
      ((s.settings.oriented sense).total s.settings.branching) :=
    ⟨negInf_le _, (le_posInf _).trans (le_max_left _ _)⟩
  unfold startOnce
  dsimp only
  split
  · rename_i value path hsome
    have hknown : s.primal = some (value, path) := hsome
    obtain ⟨path', hcompletes⟩ := hprimal value path hknown
    unfold improve
    dsimp only
    split
    · rename_i hbetter
      have hadopted := hframes.adopt hbetter hcompletes.le_total path
      refine ⟨rfl, rfl, rfl, ⟨rfl, .inr ⟨path, rfl, .inr ⟨?_, path', hcompletes⟩⟩⟩, rfl,
        ⟨hadopted.lower, hadopted.upper⟩, htold.silent (Session.silent_note _)⟩
      rw [hknown]
      exact congrArg (fun v => some (v, path)) (Sense.orient_orient sense value).symm
    · exact ⟨rfl, rfl, rfl, ⟨rfl, .inl ⟨rfl, rfl⟩⟩, rfl, ⟨hframes.lower, hframes.upper⟩, htold⟩
  · exact ⟨rfl, rfl, rfl, ⟨rfl, .inl ⟨rfl, rfl⟩⟩, rfl, ⟨hframes.lower, hframes.upper⟩, htold⟩

/-- Compiling a diagram of the whole problem, and learning from it. -/
theorem Solver.compile_learned {s : Solver σ κ Extended} {set : Settings σ κ Extended}
    {sense : Sense} {primal : Option (Extended × Path)} (hsettings : s.settings = set)
    (hset : set.LawfulUnqueued sense)
    (hdom : ∀ rel, set.dominance = some rel →
      rel.ValueSound (set.oriented sense) set.branching)
    (htable : s.session.table = .empty) (hcache : s.session.cache = .off)
    (hgenuine : s.standing.Genuine sense (set.Vouches sense primal))
    (hframed : Framed ((set.oriented sense).total set.branching) sense s) (kind : Kind)
    (width : Nat) :
    ∃ s' report s₁ upper exhausted, s.compile kind width (s.root sense) = (s', .ok report) ∧
      s'.learn kind report =
        { s₁ with standing := { s₁.standing with upper }.conclude exhausted } ∧
      Learned set sense primal kind report s₁ upper exhausted ∧
      ((set.model.orient sense).Prices (Value.isFinite · = true) →
        ∀ v, report.bestValue = some v → v ≠ negInf → Value.isFinite v = true) := by
  obtain rfl := hsettings
  obtain rfl := hgenuine.facing
  obtain ⟨_, hlawful⟩ := id hset
  have hregular : (s.request kind width (s.root s.standing.sense)).Regular :=
    ⟨hlawful.isPure, hlawful.cost_oriented, hlawful.static, hlawful.sound⟩
  have hvacant : s.session.table.VacantFrom 0 := fun k _ key => by rw [htable]; rfl
  have huncached : ∀ state depth, s.session.cache.get? state depth = none :=
    fun state depth => by rw [hcache]; rfl
  obtain ⟨report, h⟩ := Request.compile_testifies hregular hlawful.focused rfl
    (fun rel hrel => ⟨hdom rel hrel, hvacant⟩) huncached
  have hidles := Solver.Idles.compile s kind width (s.root s.standing.sense)
  obtain ⟨s₁, upper, exhausted, heq, hlearned⟩ := h.learn
    (s := (s.compile kind width (s.root s.standing.sense)).1) hgenuine (hframed.idles hidles rfl)
    rfl rfl rfl rfl
  refine ⟨_, report, s₁, upper, exhausted, Prod.ext rfl h.outcome, heq, hlearned,
    fun hprices v hv hne => ?_⟩
  rw [Request.compile_bestValue h.outcome] at hv
  exact (Request.compile_scaled hprices h.outcome).good_bestValue (fun _ _ => isFinite_add)
    hlawful.start_oriented hv (rises_iff.2 hne)

/-- **A single diagram frames the optimum.**  An exact one solves the problem: the
incumbent and the bound are the optimum, or there is no solution.  A restricted and a
relaxed one show an incumbent that is not better and a bound that is not worse than
the optimum, and a relaxed one always has a bound if there is a solution and costs,
relaxed or not, are finite.  None of them claims that its incumbent is the optimum, or
that there is no solution, unless it is so. -/
theorem Solver.solveOnce_frames (s : Solver σ κ Extended) (kind : Kind) (sense : Sense)
    (hset : s.settings.LawfulUnqueued sense)
    (hdom : ∀ rel, s.settings.dominance = some rel →
      rel.ValueSound (s.settings.oriented sense) s.settings.branching)
    (hprimal : ∀ value path, s.primal = some (value, path) → ∃ path',
      (s.settings.oriented sense).Completes s.settings.branching (sense.orient value) path') :
    ∃ s' stats, s.solveOnce kind sense Cutoff.never = (s', .ok stats) ∧
      stats.Frames sense (s.settings.optimum sense) ∧
      (∀ path st, .incumbent path st ∈ s'.session.events →
        st.Frames sense (s.settings.optimum sense)) ∧
      (stats.status = .optimal → stats.incumbent = some (s.settings.optimum sense)) ∧
      (stats.status = .infeasible →
        (s.settings.oriented sense).total s.settings.branching = negInf) ∧
      (kind = .exact → stats.status = .infeasible ∨ stats.status = .optimal ∧
        stats.incumbent = some (s.settings.optimum sense) ∧
          stats.bound = some (s.settings.optimum sense)) ∧
      (kind = .relaxed → (s.settings.oriented sense).total s.settings.branching ≠ negInf →
        (∀ source absorbed merged d c, Value.isFinite c = true →
          Value.isFinite (s.settings.model.relaxation.relax source absorbed merged d c) = true) →
        ∃ b, stats.bound = some b) := by
  obtain ⟨hsettings, htable, hcache, hgenuine, hframed⟩ := s.startOnce_framed kind sense hprimal
  obtain ⟨s', report, s₁, upper, exhausted, hcompile, hlearn, hlearned, hfinite⟩ :=
    Solver.compile_learned hsettings hset hdom htable hcache hgenuine hframed kind
      ((s.startOnce kind sense).settings.width ((s.startOnce kind sense).root sense))
  have hstatus := hlearned.status s₁.settings.clock
  have hframes := (hlearned.frames.conclude hlearned.best).statistics s₁.settings.clock
  have hfacing : (Standing.conclude { s₁.standing with upper } exhausted).sense = sense :=
    hlearned.genuine.facing
  rw [hfacing] at hframes
  refine ⟨_, _, Solver.solveOnce_of_ok hcompile, ?_⟩
  rw [hlearn]
  refine ⟨hframes, hlearned.told.silent (Session.silent_note _), hstatus.1, hstatus.2,
    fun hkind => ?_, fun hkind hne hrelax => ?_⟩
  · obtain rfl := hlearned.exact hkind
    rcases hlearned.genuine.conclude_exhausted (hlearned.best rfl) s₁.settings.clock with
      ⟨hoptimal, hincumbent, _, hcompletes⟩ | ⟨hinfeasible, _⟩
    · exact .inr ⟨hoptimal, hincumbent, hlearned.bound_of_exhausted (hset.isFinite hcompletes) _⟩
    · exact .inl hinfeasible
  · subst hkind
    obtain ⟨_, hlawful⟩ := id hset
    refine hlearned.exists_bound hset hne (hfinite ⟨hlawful.focused, ?_, ?_⟩) s₁.settings.clock
    · exact fun _ _ _ _ => hlawful.cost_oriented _ _
    · intro source absorbed merged d c hc
      change Value.isFinite (sense.orient _) = true
      rw [Sense.isFinite_orient]
      exact hrelax _ _ _ _ _ (by rwa [Sense.isFinite_orient])

end Once

/-- A relaxed diagram of the two picks, pruned by dominance and by a known solution of
value one. -/
theorem Solver.solveOnce_frames_twoPicks :
    let s := (Solver.ofSettings (twoPicksSettings false (some moreOnes))).startFrom (finite 1) []
    ∃ s' stats, s.solveOnce .relaxed .maximize Cutoff.never = (s', .ok stats) ∧
      stats.Frames .maximize (finite 2) ∧ ∃ b, stats.bound = some b := by
  intro s
  have hvalue : ∀ rel, s.settings.dominance = some rel →
      rel.ValueSound (s.settings.oriented .maximize) s.settings.branching :=
    fun _ _ a c _ _ _ _ free => (twoPicks_optimum .maximize _ free a c).le
  obtain ⟨s', stats, hsolve, hframes, _, _, _, _, hbound⟩ := s.solveOnce_frames .relaxed .maximize
    ⟨_, twoPicks_lawful .maximize false (some moreOnes)⟩ hvalue fun value path hsome => by
      obtain ⟨rfl, rfl⟩ := Prod.mk.inj (Option.some.inj hsome)
      exact ⟨_, twoPicks_completes⟩
  have htotal : (s.settings.oriented .maximize).total s.settings.branching = finite 2 :=
    total_twoPicks_maximize
  have hoptimum : s.settings.optimum .maximize = finite 2 := htotal
  rw [hoptimum] at hframes
  exact ⟨s', stats, hsolve, hframes, hbound rfl (htotal.trans_ne nofun) fun _ _ _ _ _ hc => hc⟩

end DiagramSearch
