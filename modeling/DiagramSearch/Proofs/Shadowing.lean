/-
# Two searches side by side

Two solvers that put the same question to the engine stay side by side through a whole
search, as far as the engine goes: they open, take and skip the same sub-problems, and adopt
the same values.  They may differ in what they were used for before, in the clock, in the
diagram of the last compilation, in how closely the model is watched, and in the space of
the user, from which values are oriented on their way in and out.

* `Event.orient`: an event with the values of the user's space oriented by a sense;
* `Views.of`: how journals are looked at: without times, and the right one oriented;
* `Settings.Matches`: settings and senses that put the same question to the engine;
* `Solver.Attuned`, `Solver.Beside`: solvers whose users are told the same, and between which
  a search makes no difference either.  Each step keeps them so (`Beside.pick`,
  `Beside.visit`), up to a fault of the one that is watched more closely;
* `Solver.Beside.search`, `Solver.Beside.finish`: **so does a whole search**, and the last word
  is the same.
-/

import DiagramSearch.Proofs.Pairing
import DiagramSearch.Proofs.Retiring
import DiagramSearch.Search.OneDiagram

namespace DiagramSearch

variable {σ κ V : Type}

/-! ### The user's space -/

/-- Whether a sense is that of another one or the opposite of it. -/
def Sense.turn : Sense → Sense → Sense
  | .maximize, sense => sense
  | .minimize, .maximize => .minimize
  | .minimize, .minimize => .maximize

section Orient

variable [Value V]

/-- The same numbers, with the values of the user's space oriented by a sense. -/
def Statistics.orient (τ : Sense) (s : Statistics V) : Statistics V :=
  { s with incumbent := s.incumbent.map τ.orient, bound := s.bound.map τ.orient }

/-- The same notice, oriented. -/
def Notice.orient (τ : Sense) : Notice σ V → Notice σ V
  | .exploring depth value bound width left =>
    .exploring depth (τ.orient value) (τ.orient bound) width left
  | .improved value => .improved (τ.orient value)
  | .searchStarted sense count => .searchStarted (τ.turn sense) count
  | .searchOver stats => .searchOver (stats.orient τ)
  | .searchAborted fault => .searchAborted (fault.orient τ)
  | .compilationStarted kind sense count => .compilationStarted kind (τ.turn sense) count
  | .compilationOver stats => .compilationOver (stats.orient τ)
  | .compilationAborted fault => .compilationAborted (fault.orient τ)
  | n => n

/-- The same event, oriented.  Sub-problems, thresholds and candidates are the engine's. -/
def Event.orient (τ : Sense) : Event σ V → Event σ V
  | .notice n => .notice (n.orient τ)
  | .incumbent path stats => .incumbent path (stats.orient τ)
  | e => e

/-- The same last word, oriented. -/
def orientOutcome (τ : Sense) :
    Except (Fault σ V) (Statistics V) → Except (Fault σ V) (Statistics V)
  | .error fault => .error (fault.orient τ)
  | .ok stats => .ok (stats.orient τ)

theorem Event.orient_inner (τ : Sense) {e : Event σ V} (h : e.isInner = true) :
    e.orient τ = e := by
  cases e with
  | notice n => cases n <;> first | rfl | cases h
  | incumbent path stats => cases h
  | _ => rfl

theorem Statistics.orient_maximize (s : Statistics V) : s.orient .maximize = s := by
  have hid : ∀ v : Option V, v.map Sense.maximize.orient = v := fun v => Option.map_id' ..
  unfold orient
  rw [hid, hid]

theorem Fault.orient_maximize (fault : Fault σ V) : fault.orient .maximize = fault := by
  cases fault <;> rfl

theorem Event.orient_maximize (e : Event σ V) : e.orient .maximize = e := by
  cases e with
  | notice n =>
    cases n <;> simp only [orient, Notice.orient, Statistics.orient_maximize,
      Fault.orient_maximize] <;> rfl
  | incumbent path stats => simp only [orient, Statistics.orient_maximize]
  | _ => rfl

theorem orientOutcome_maximize (outcome : Except (Fault σ V) (Statistics V)) :
    orientOutcome .maximize outcome = outcome := by
  cases outcome with
  | error fault => exact congrArg Except.error fault.orient_maximize
  | ok stats => exact congrArg Except.ok stats.orient_maximize

end Orient

/-- Whether an event is a notice. -/
def Event.isNotice : Event σ V → Bool
  | .notice _ => true
  | _ => false

/-- What is seen of an event, without times, and without notices if they are muted. -/
def Event.seen (muted : Bool) (e : Event σ V) : Option (Event σ V) :=
  if muted && e.isNotice then none else some e.untimed

/-- Both journals without times, the right one oriented by a sense.  If the left one may be
watched more closely, notices are not looked at, nor are the transitions counted. -/
def Views.of [Value V] (τ : Sense) (closer counted : Bool) : Views σ V where
  left e := e.seen closer
  right e := (e.orient τ).seen closer
  closer
  counted := counted && !closer
  uncounted h := by rw [h, Bool.not_true, Bool.and_false]
  inner e he := by rw [e.orient_inner τ he]
  silent h n := by rw [h]; rfl

theorem Views.of_notice [Value V] {τ : Sense} {closer counted : Bool} {n n' : Notice σ V}
    (h : n.untimed = (n'.orient τ).untimed) :
    (Views.of τ closer counted).left (.notice n) =
      (Views.of τ closer counted).right (.notice n') := by
  cases closer with
  | true => rfl
  | false => exact congrArg (fun n : Notice σ V => some (Event.notice n)) h

theorem Views.of_incumbent [Value V] {τ : Sense} {closer counted : Bool}
    {stats stats' : Statistics V}
    (h : stats.untimed = (stats'.orient τ).untimed) (path : Path) :
    (Views.of τ closer counted : Views σ V).left (.incumbent path stats) =
      (Views.of τ closer counted).right (.incumbent path stats') := by
  cases closer <;>
    exact congrArg (fun stats : Statistics V => some (Event.incumbent (σ := σ) path stats)) h

/-! ### The same question -/

/-- Two searches to be run side by side: the sense and the cutoff of either, the sense by
which what is seen on the right is oriented, whether the left one may be watched more
closely, and if not, whether both have applied as many transitions. -/
structure Duet (V : Type) where
  sense : Sense
  sense' : Sense
  cutoff : Cutoff V
  cutoff' : Cutoff V
  through : Sense
  closer : Bool
  counted : Bool

/-- How their journals are looked at. -/
def Duet.views [Value V] (q : Duet V) : Views σ V := .of q.through q.closer q.counted

/-- Settings that, with the senses and cutoffs, put the same question to the engine. -/
structure Settings.Matches [Value V] (q : Duet V) (set set' : Settings σ κ V) : Prop where
  rest : set' = { set with model := set'.model, checks := set'.checks, clock := set'.clock }
  model : set'.model.orient q.sense' = set.model.orient q.sense
  checks : (q.views : Views σ V).Watches set.checks set'.checks
  bears : (q.views : Views σ V).Bears set.model.problem
  stops : ∀ p : Standing V, q.cutoff (Standing.statistics { p with sense := q.sense } set.clock) =
    q.cutoff' (Standing.statistics { p with sense := q.sense' } set'.clock)
  turn : q.through.turn q.sense' = q.sense
  /-- What leaves the engine on the right is oriented to what leaves it on the left. -/
  leaves : ∀ v : V, q.through.orient (q.sense'.orient v) = q.sense.orient v

theorem Standing.statistics_orient [Value V] {p : Standing V} {τ sense' : Sense}
    (hleaves : ∀ v : V, τ.orient (sense'.orient v) = p.sense.orient v) (clock clock' : Nat → Nat) :
    (p.statistics clock).untimed =
      ((Standing.statistics { p with sense := sense' } clock').orient τ).untimed := by
  have hincumbent : p.incumbent =
      ({ p with sense := sense' } : Standing V).incumbent.map τ.orient := by
    unfold incumbent
    rw [Option.map_map]
    exact congrArg (p.solution.map ·) (funext fun _ => (hleaves p.lower).symm)
  have hbound : p.bound = ({ p with sense := sense' } : Standing V).bound.map τ.orient := by
    unfold bound
    dsimp only
    split
    · exact congrArg some (hleaves _).symm
    · rfl
  unfold statistics Statistics.orient Statistics.untimed
  dsimp only
  rw [hincumbent, hbound]

theorem Settings.Matches.variables [Value V] {q : Duet V} {set set' : Settings σ κ V}
    (h : set.Matches q set') : set'.model.problem.variables = set.model.problem.variables :=
  (congrArg (fun m : Model σ V => m.problem.variables) h.model :)

/-- Faults are oriented on their way out, too. -/
theorem Settings.Matches.fault [Value V] {q : Duet V} {set set' : Settings σ κ V}
    (h : set.Matches q set') (fault : Fault σ V) :
    fault.orient q.sense = (fault.orient q.sense').orient q.through := by
  cases fault with
  | nonDeterministic => rfl
  | inadmissible => simp only [Fault.orient, h.leaves]
  | unsound => simp only [Fault.orient, h.leaves]

/-- The engine is given the same root. -/
theorem Settings.Matches.root [Value V] {q : Duet V} {s t : Solver σ κ V}
    (h : s.settings.Matches q t.settings) : t.root q.sense' = s.root q.sense := by
  have hstate : t.settings.model.problem.initialState = s.settings.model.problem.initialState :=
    (congrArg (fun m : Model σ V => m.problem.initialState) h.model :)
  have hvalue : q.sense'.orient t.settings.model.problem.initialValue =
      q.sense.orient s.settings.model.problem.initialValue :=
    (congrArg (fun m : Model σ V => m.problem.initialValue) h.model :)
  unfold Solver.root
  rw [hstate, hvalue]

namespace Solver

variable [Value V]

/-- Two solvers whose users are told the same. -/
structure Attuned (q : Duet V) (s t : Solver σ κ V) : Prop where
  settings : s.settings.Matches q t.settings
  facing : s.standing.sense = q.sense
  standing : t.standing = { s.standing with sense := q.sense' }
  session : q.views.Related s.session t.session

/-- Two solvers between which a search makes no difference either: the last diagram is all
that they need not have in common. -/
structure Beside (q : Duet V) (s t : Solver σ κ V) : Prop extends Attuned q s t where
  cache : s.session.cache = t.session.cache
  queue : t.queue = s.queue
  openAt : t.openAt = s.openAt
  shallowest : t.shallowest = s.shallowest

/-- Two steps after which solvers are side by side and met the same fault, unless the left
one met one and may be watched more closely. -/
def Abreast (q : Duet V) (x y : Solver σ κ V × Option (Fault σ V)) : Prop :=
  (q.closer = true ∧ x.2 ≠ none) ∨ (Beside q x.1 y.1 ∧ x.2 = y.2)

variable {q : Duet V} {s t : Solver σ κ V}

namespace Attuned

theorem lower (h : Attuned q s t) : t.standing.lower = s.standing.lower :=
  (congrArg Standing.lower h.standing :)

theorem facing' (h : Attuned q s t) : t.standing.sense = q.sense' :=
  (congrArg Standing.sense h.standing :)

theorem leaves (h : Attuned q s t) (v : V) :
    q.through.orient (t.standing.sense.orient v) = s.standing.sense.orient v := by
  rw [h.facing, h.facing']
  exact h.settings.leaves v

theorem «variables» (h : Attuned q s t) : t.variables = s.variables := h.settings.variables

/-- Snapshots for the user differ in the time and the orientation. -/
theorem statistics (h : Attuned q s t) :
    s.statistics.untimed = (t.statistics.orient q.through).untimed := by
  have hleaves : ∀ v : V, q.through.orient (q.sense'.orient v) = s.standing.sense.orient v := by
    rw [h.facing]
    exact h.settings.leaves
  unfold Solver.statistics
  rw [h.standing]
  exact Standing.statistics_orient hleaves _ _

/-- So the same searches are stopped. -/
theorem stops (h : Attuned q s t) : q.cutoff s.statistics = q.cutoff' t.statistics := by
  have hstops := h.settings.stops s.standing
  rw [← h.facing, ← h.standing] at hstops
  exact hstops

theorem record (h : Attuned q s t) {e e' : Event σ V} (he : q.views.left e = q.views.right e') :
    Attuned q (s.record e) (t.record e') :=
  ⟨h.settings, h.facing, h.standing, h.session.record he⟩

theorem note (h : Attuned q s t) {n n' : Notice σ V}
    (hn : n.untimed = (n'.orient q.through).untimed) : Attuned q (s.note n) (t.note n') :=
  h.record (Views.of_notice hn)

theorem conclude (h : Attuned q s t) (exhausted : Bool) :
    Attuned q (s.conclude exhausted) (t.conclude exhausted) :=
  ⟨h.settings, h.facing, congrArg (Standing.conclude · exhausted) h.standing, h.session⟩

/-- The same solutions are taken over, -/
theorem improve (h : Attuned q s t) (value : Option V) (solution : Option Path) :
    Attuned q (s.improve value solution) (t.improve value solution) := by
  cases value with
  | none => exact h
  | some v =>
    cases solution with
    | none => exact h
    | some path =>
      unfold Solver.improve
      dsimp only
      rw [h.lower]
      split
      · have hadopted : Attuned q { s with standing := s.standing.adopt v path }
            { t with standing := t.standing.adopt v path } :=
          ⟨h.settings, h.facing, congrArg (Standing.adopt · v path) h.standing, h.session⟩
        exact hadopted.note (congrArg Notice.improved (h.leaves v).symm)
      · exact h

/-- and handed out. -/
theorem publish (h : Attuned q s t) (value : Option V) (solution : Option Path) :
    Attuned q (s.publish value solution) (t.publish value solution) := by
  cases value with
  | none => exact h
  | some v =>
    cases solution with
    | none => exact h
    | some path =>
      have himproved := h.improve (some v) (some path)
      unfold Solver.publish
      dsimp only
      rw [h.lower]
      split
      · exact himproved.record (Views.of_incumbent himproved.statistics path)
      · exact h

/-- The same is asked of a compilation, up to how closely it is watched. -/
theorem request (h : Attuned q s t) (kind : Kind) (width : Nat) (node : Subproblem σ V) :
    t.request kind width node =
      { s.request kind width node with checks := t.settings.checks } := by
  have hranking : t.settings.ranking = s.settings.ranking :=
    (congrArg Settings.ranking h.settings.rest :)
  have hbranching : t.settings.branching = s.settings.branching :=
    (congrArg Settings.branching h.settings.rest :)
  have hdominance : t.settings.dominance = s.settings.dominance :=
    (congrArg Settings.dominance h.settings.rest :)
  have hmerge : t.settings.mergeOrder = s.settings.mergeOrder :=
    (congrArg Settings.mergeOrder h.settings.rest :)
  have hdrop : t.settings.dropOrder = s.settings.dropOrder :=
    (congrArg Settings.dropOrder h.settings.rest :)
  have hcutset : t.settings.cutset = s.settings.cutset :=
    (congrArg Settings.cutset h.settings.rest :)
  unfold Solver.request
  rw [h.facing, h.facing', h.settings.model, h.lower, hranking, hbranching, hdominance, hmerge,
    hdrop, hcutset]

/-- **A compilation comes to the same on both sides**, if the caches are the same.  If it is
watched more closely on the left, tails may be known of its diagram there only, unless it is
a relaxed one. -/
theorem compile [BEq σ] [Hashable σ] [BEq κ] (h : Attuned q s t)
    (hcache : s.session.cache = t.session.cache) (kind : Kind) (width : Nat)
    (node : Subproblem σ V) :
    (q.closer = true ∧ ∃ fault, (s.compile kind width node).2 = .error fault) ∨
    (Attuned q (s.compile kind width node).1 (t.compile kind width node).1 ∧
      (Views.Tallies q.views (s.request kind width node) t.settings.checks
        ((s.request kind width node).compile s.session)
        ((t.request kind width node).compile t.session))) := by
  rcases Views.compile (r := s.request kind width node) h.settings.checks h.settings.bears
    ⟨h.session, hcache⟩ with hfault | htallies
  · exact .inl hfault
  · rw [← h.request] at htallies
    exact .inr ⟨⟨h.settings, h.facing, h.standing, htallies.session.toRelated⟩, htallies⟩

/-- A change of both standings that does not look at the sense. -/
theorem restand (h : Attuned q s t) {f : Standing V → Standing V}
    (hf : ∀ p sense, f { p with sense } = { f p with sense }) :
    Attuned q { s with standing := f s.standing } { t with standing := f t.standing } := by
  have hsense : (f s.standing).sense = s.standing.sense :=
    (congrArg Standing.sense (hf s.standing s.standing.sense) :)
  exact ⟨h.settings, hsense.trans h.facing, (congrArg f h.standing).trans (hf _ _), h.session⟩

/-- **The same is learned from a diagram of the whole problem.** -/
theorem learn (h : Attuned q s t) (hd : s.diagram = t.diagram) (kind : Kind) (c : Report V) :
    Attuned q (s.learn kind c) (t.learn kind c) := by
  unfold Solver.learn
  dsimp only
  rw [← hd]
  split
  · exact (h.publish _ _).conclude true
  · split
    · have hpublished := h.publish s.diagram.bestExactValue s.diagram.bestExactSolution
      cases c.bestValue with
      | none => exact hpublished.conclude true
      | some bound =>
        dsimp only
        generalize s.publish s.diagram.bestExactValue s.diagram.bestExactSolution = s₁ at hpublished
        generalize t.publish s.diagram.bestExactValue s.diagram.bestExactSolution = t₁ at hpublished
        by_cases hlt : s₁.standing.lower < bound
        · rw [if_pos hlt, if_pos (hpublished.lower ▸ hlt)]
          exact hpublished.restand (f := fun p => Standing.conclude { p with upper := bound } false)
            fun _ _ => rfl
        · rw [if_neg hlt, if_neg (hpublished.lower ▸ hlt)]
          exact hpublished.conclude true
    · exact (h.publish _ _).conclude false

end Attuned

/-- What is published is nothing to the queue and to the cache. -/
theorem publish_rest (s : Solver σ κ V) (value : Option V) (solution : Option Path) :
    (s.publish value solution).session.cache = s.session.cache ∧
      (s.publish value solution).queue = s.queue ∧
      (s.publish value solution).openAt = s.openAt ∧
      (s.publish value solution).shallowest = s.shallowest := by
  rcases s.publish_cases value solution with ⟨heq, _⟩ | ⟨_, _, _, _, _, heq⟩
  · rw [heq]
    exact ⟨rfl, rfl, rfl, rfl⟩
  · rw [heq]
    exact ⟨rfl, rfl, rfl, rfl⟩

namespace Beside

theorem akin (h : Beside q s t) : q.views.Akin s.session t.session := ⟨h.session, h.cache⟩

theorem note (h : Beside q s t) {n n' : Notice σ V}
    (hn : n.untimed = (n'.orient q.through).untimed) : Beside q (s.note n) (t.note n') :=
  ⟨h.toAttuned.note hn, h.cache, h.queue, h.openAt, h.shallowest⟩

theorem conclude (h : Beside q s t) (exhausted : Bool) :
    Beside q (s.conclude exhausted) (t.conclude exhausted) :=
  ⟨h.toAttuned.conclude exhausted, h.cache, h.queue, h.openAt, h.shallowest⟩

theorem publish (h : Beside q s t) (value : Option V) (solution : Option Path) :
    Beside q (s.publish value solution) (t.publish value solution) := by
  obtain ⟨hcache, hqueue, hopenAt, hshallowest⟩ := s.publish_rest value solution
  obtain ⟨hcache', hqueue', hopenAt', hshallowest'⟩ := t.publish_rest value solution
  refine ⟨h.toAttuned.publish value solution, ?_, ?_, ?_, ?_⟩
  · rw [hcache, hcache', h.cache]
  · rw [hqueue, hqueue', h.queue]
  · rw [hopenAt, hopenAt', h.openAt]
  · rw [hshallowest, hshallowest', h.shallowest]

/-- The diagram of the last compilation is nothing to a search. -/
theorem drain (h : Beside q s t) (d d' : Diagram σ V) :
    Beside q { s with diagram := d } { t with diagram := d' } :=
  ⟨⟨h.settings, h.facing, h.standing, h.session⟩, h.cache, h.queue, h.openAt,
    h.shallowest⟩

theorem push (h : Beside q s t) (node : Subproblem σ V) :
    Beside q (s.push node) (t.push node) := by
  have horder : t.settings.queueOrder = s.settings.queueOrder :=
    (congrArg Settings.queueOrder h.settings.rest :)
  have hattuned : Attuned q (s.push node) (t.push node) :=
    ⟨h.settings, h.facing, h.standing, h.session.record (q.views.inner (.pushed node) rfl)⟩
  refine ⟨hattuned, h.cache, ?_, congrArg (·.modify node.depth (· + 1)) h.openAt, h.shallowest⟩
  change t.queue.push t.settings.queueOrder node = s.queue.push s.settings.queueOrder node
  rw [horder, h.queue]

theorem clearQueue (h : Beside q s t) : Beside q s.clearQueue t.clearQueue :=
  ⟨⟨h.settings, h.facing, h.standing, h.session.record (q.views.inner .queueCleared rfl)⟩,
    h.cache, rfl, h.openAt, h.shallowest⟩

/-- A change of both standings that does not look at the sense. -/
theorem restand (h : Beside q s t) {f : Standing V → Standing V}
    (hf : ∀ p sense, f { p with sense } = { f p with sense }) :
    Beside q { s with standing := f s.standing } { t with standing := f t.standing } :=
  ⟨h.toAttuned.restand hf, h.cache, h.queue, h.openAt, h.shallowest⟩

theorem measureQueue (h : Beside q s t) : Beside q s.measureQueue t.measureQueue := by
  have hmeasured := h.restand (f := fun p => { p with queueMax := max p.queueMax s.queue.size })
    fun _ _ => rfl
  have hsize : t.measureQueue =
      { t with standing := { t.standing with
          queueMax := max t.standing.queueMax s.queue.size } } := by
    unfold Solver.measureQueue
    rw [h.queue]
  rw [hsize]
  exact hmeasured

/-- The same sub-problems are opened. -/
theorem openCutset (h : Beside q s t) (hd : s.diagram = t.diagram) (bound : V) :
    Beside q (s.openCutset bound) (t.openCutset bound) := by
  unfold Solver.openCutset
  rw [hd]
  refine measureQueue (List.foldl_rel (h.drain _ _) fun node _ s t h => ?_)
  dsimp only
  rw [h.lower]
  split
  · exact h.push _
  · exact h

section Visit

variable [BEq σ] [Hashable σ] [BEq κ]

/-- **A compilation comes to the same on both sides.** -/
theorem compile (h : Beside q s t) (kind : Kind) (width : Nat) (node : Subproblem σ V) :
    (q.closer = true ∧ ∃ s₁ fault, s.compile kind width node = (s₁, .error fault)) ∨
    ∃ s₁ t₁ outcome, s.compile kind width node = (s₁, outcome) ∧
      t.compile kind width node = (t₁, outcome) ∧ Beside q s₁ t₁ ∧
      s₁.diagram.bestValue = t₁.diagram.bestValue ∧
      s₁.diagram.bestSolution = t₁.diagram.bestSolution ∧
      (kind = .relaxed → s₁.diagram = t₁.diagram) := by
  rcases h.toAttuned.compile h.cache kind width node with ⟨hcloser, fault, hfault⟩ |
    ⟨hattuned, htallies⟩
  · exact .inl ⟨hcloser, _, fault, Prod.ext rfl hfault⟩
  · exact .inr ⟨_, _, _, rfl, Prod.ext rfl htallies.outcome.symm,
      ⟨hattuned, htallies.session.cache, h.queue, h.openAt, h.shallowest⟩, htallies.bestValue,
      htallies.bestSolution, fun hkind => htallies.diagram (.inl hkind)⟩

theorem bound (h : Beside q s t) (width : Nat) (node : Subproblem σ V) :
    Abreast q (s.bound width node) (t.bound width node) := by
  unfold Solver.bound
  rcases h.compile .relaxed width node with ⟨hcloser, s₁, fault, heq⟩ |
    ⟨s₁, t₁, outcome, heq, heq', h₁, _, _, hd⟩
  · rw [heq]
    exact .inl ⟨hcloser, Option.some_ne_none fault⟩
  · have hd := hd rfl
    rw [heq, heq']
    cases outcome with
    | error fault => exact .inr ⟨h₁, rfl⟩
    | ok c =>
      dsimp only
      rw [← hd]
      split
      · exact .inr ⟨h₁.publish _ _, rfl⟩
      · have hpublished := h₁.publish s₁.diagram.bestExactValue s₁.diagram.bestExactSolution
        rw [hpublished.lower]
        split
        · refine .inr ⟨hpublished.openCutset ?_ _, rfl⟩
          rw [(publish_frame _ _ _).1, (publish_frame _ _ _).1, hd]
        · exact .inr ⟨hpublished, rfl⟩

theorem explore (h : Beside q s t) (node : Subproblem σ V) :
    Abreast q (s.explore node) (t.explore node) := by
  have hwidth : t.settings.width = s.settings.width :=
    (congrArg Settings.width h.settings.rest :)
  have hnoted : Beside q
      (s.note (.exploring node.depth (s.standing.sense.orient node.value)
        (s.standing.sense.orient node.bound) (s.settings.width node) s.queue.size))
      (t.note (.exploring node.depth (t.standing.sense.orient node.value)
        (t.standing.sense.orient node.bound) (s.settings.width node) t.queue.size)) := by
    refine h.note ?_
    rw [h.queue]
    dsimp only [Notice.orient]
    rw [h.leaves, h.leaves]
  unfold Solver.explore
  dsimp only
  rw [hwidth]
  rcases hnoted.compile .restricted (s.settings.width node) node with
    ⟨hcloser, s₁, fault, heq⟩ | ⟨s₁, t₁, outcome, heq, heq', h₁, hvalue, hsolution, _⟩
  · rw [heq]
    exact .inl ⟨hcloser, Option.some_ne_none fault⟩
  · rw [heq, heq']
    cases outcome with
    | error fault => exact .inr ⟨h₁, rfl⟩
    | ok c =>
      dsimp only
      rw [← hvalue, ← hsolution]
      split
      · exact .inr ⟨h₁.publish _ _, rfl⟩
      · exact (h₁.publish _ _).bound _ node

/-- **A visit comes to the same on both sides.** -/
theorem visit (h : Beside q s t) (node : Subproblem σ V) :
    Abreast q (s.visit node) (t.visit node) := by
  have hcache : t.settings.useCache = s.settings.useCache :=
    (congrArg Settings.useCache h.settings.rest :)
  unfold Solver.visit
  dsimp only
  rw [hcache, ← h.cache]
  split
  · split
    · have hmarked : Beside q
          { s with session := s.session.remember node.state node.depth ⟨node.value, true⟩ }
          { t with session := t.session.remember node.state node.depth ⟨node.value, true⟩ } :=
        have hsession := h.akin.remember node.state node.depth ⟨node.value, true⟩
        ⟨⟨h.settings, h.facing, h.standing, hsession.toRelated⟩, hsession.cache, h.queue,
          h.openAt, h.shallowest⟩
      exact hmarked.explore node
    · exact .inr ⟨h.note rfl, rfl⟩
  · exact h.explore node

end Visit

/-! ### Whole searches -/

/-- The same depths are given up. -/
theorem retireLayers (h : Beside q s t) : Beside q s.retireLayers t.retireLayers := by
  have hcache : t.settings.useCache = s.settings.useCache :=
    (congrArg Settings.useCache h.settings.rest :)
  have hidle : t.idle = s.idle := by
    unfold idle
    rw [hcache, h.openAt, h.variables, h.shallowest]
  rw [retireLayers_eq_forget, retireLayers_eq_forget, hidle, h.shallowest]
  exact ⟨⟨h.settings, h.facing, h.standing, h.session.recache _ _⟩,
    congrArg ((List.range' s.shallowest s.idle).foldl Cache.forget) h.cache, h.queue, h.openAt, rfl⟩

/-- **The same is done next.** -/
theorem pick (h : Beside q s t) :
    Beside q (s.pick q.cutoff).1 (t.pick q.cutoff').1 ∧
      (s.pick q.cutoff).2 = (t.pick q.cutoff').2 := by
  unfold Solver.pick
  rw [h.queue, ← h.stops]
  cases s.queue.pop? with
  | none => exact ⟨h, rfl⟩
  | some popped =>
    obtain ⟨node, rest⟩ := popped
    dsimp only
    split
    · exact ⟨h, rfl⟩
    · have hcounted := h.restand (f := fun p => { p with iterations := p.iterations + 1 })
        fun _ _ => rfl
      have htaken : Beside q
          { s with
            queue := rest
            openAt := s.openAt.modify node.depth (· - 1)
            standing := { s.standing with iterations := s.standing.iterations + 1 }
            session := s.session.record (.popped node) }
          { t with
            queue := rest
            openAt := t.openAt.modify node.depth (· - 1)
            standing := { t.standing with iterations := t.standing.iterations + 1 }
            session := t.session.record (.popped node) } :=
        ⟨⟨h.settings, h.facing, hcounted.standing,
          h.session.record (q.views.inner (.popped node) rfl)⟩, h.cache, rfl,
          congrArg (·.modify node.depth (· - 1)) h.openAt, h.shallowest⟩
      have hbound : node.bound ≤ t.standing.lower ↔ node.bound ≤ s.standing.lower := by
        rw [h.lower]
      by_cases hle : node.bound ≤ s.standing.lower
      · rw [if_pos hle, if_pos (hbound.2 hle)]
        exact ⟨htaken.clearQueue, rfl⟩
      · rw [if_neg hle, if_neg (mt hbound.1 hle)]
        exact ⟨htaken.restand (f := fun p => { p with upper := node.bound }) fun _ _ => rfl, rfl⟩

section Search

variable [BEq σ] [Hashable σ] [BEq κ]

/-- **Two searches stay side by side**, unless the left one is watched more closely and meets
a fault. -/
theorem search (h : Beside q s t) (rounds : Nat) :
    (q.closer = true ∧ ∃ fault, (Solver.search q.cutoff rounds s).2 = some (.faulty fault)) ∨
      (Beside q (Solver.search q.cutoff rounds s).1 (Solver.search q.cutoff' rounds t).1 ∧
        (Solver.search q.cutoff rounds s).2 = (Solver.search q.cutoff' rounds t).2) := by
  induction rounds generalizing s t with
  | zero => exact .inr ⟨h, rfl⟩
  | succ rounds ih =>
    obtain ⟨hpicked, hmove⟩ := h.retireLayers.pick
    unfold Solver.search
    rw [nextMove_eq_pick, nextMove_eq_pick]
    generalize s.retireLayers.pick q.cutoff = moved at hpicked hmove
    generalize t.retireLayers.pick q.cutoff' = moved' at hpicked hmove
    obtain ⟨s₁, move⟩ := moved
    obtain ⟨t₁, move'⟩ := moved'
    obtain rfl : move = move' := hmove
    cases move with
    | exhausted => exact .inr ⟨hpicked, rfl⟩
    | stopped => exact .inr ⟨hpicked, rfl⟩
    | explore node =>
      dsimp only
      have hvisit := Beside.visit hpicked node
      dsimp only at hvisit
      generalize s₁.visit node = visited at hvisit
      generalize t₁.visit node = visited' at hvisit
      obtain ⟨s₂, fault⟩ := visited
      obtain ⟨t₂, fault'⟩ := visited'
      rcases hvisit with ⟨hcloser, hfault⟩ | ⟨hvisited, hfault⟩
      · obtain ⟨fault, rfl⟩ := Option.ne_none_iff_exists'.1 hfault
        exact .inl ⟨hcloser, fault, rfl⟩
      · obtain rfl : fault = fault' := hfault
        cases fault with
        | some fault => exact .inr ⟨hvisited, rfl⟩
        | none => exact ih hvisited

end Search

/-- The last word on the right, oriented, is that on the left, all but for the time. -/
theorem finish (h : Beside q s t) (ending : Ending σ V) :
    Beside q (s.finish q.sense ending).1 (t.finish q.sense' ending).1 ∧
      (s.finish q.sense ending).2.map Statistics.untimed =
        (orientOutcome q.through (t.finish q.sense' ending).2).map Statistics.untimed := by
  have hover : ∀ exhausted, Beside q
      ((s.conclude exhausted).note (.searchOver (s.conclude exhausted).statistics))
      ((t.conclude exhausted).note (.searchOver (t.conclude exhausted).statistics)) :=
    fun exhausted =>
      (h.conclude exhausted).note (congrArg Notice.searchOver (h.conclude exhausted).statistics)
  cases ending with
  | exhausted => exact ⟨hover true, congrArg Except.ok (h.conclude true).statistics⟩
  | stopped => exact ⟨hover false, congrArg Except.ok (h.conclude false).statistics⟩
  | faulty fault =>
    have hfault := h.settings.fault fault
    exact ⟨(h.clearQueue.conclude false).note (congrArg Notice.searchAborted hfault),
      congrArg Except.error hfault⟩

end Beside

end Solver
end DiagramSearch
