/-
# Giving up depths changes nothing

Before each of its moves a search forgets the thresholds of the depths above all open
sub-problems.  They would not be asked for again: what is open is no less deep, and a
visit leaves lesser depths aside.  So a search goes on as if nothing had been forgotten,
whatever the model, and this is seen by running it beside one that only counts the depths
that it could have given up.

* `Solver.passLayers`: counting them and forgetting nothing;
* `Solver.searchBy`, `Solver.solveBy`: searching with either, with a record of what every
  visit comes to;
* `Solver.visit_essence`, `Solver.pick_essence`: **no step of a search looks at what is
  forgotten**, nor at the time;
* `Solver.searchBy_alike`, `Solver.solve_keeping_alike`: **two such searches stay alike.**
-/

import DiagramSearch.Proofs.Distilling
import DiagramSearch.Proofs.Tallying

namespace DiagramSearch

variable {σ κ V : Type}

/-- A cutoff that does not look at the time. -/
def Cutoff.Timeless (cutoff : Cutoff V) : Prop :=
  ∀ (stats : Statistics V) (elapsed : Nat), cutoff { stats with elapsed } = cutoff stats

/-- A sub-problem that was taken up, and what compiling it came to.  Nothing was compiled if
it was skipped. -/
structure Visit (σ V : Type) where
  node : Subproblem σ V
  outcomes : List (Except (Fault σ V) (Report V))

/-- The sub-problems that were compiled, in order. -/
def Visit.compiled (visits : List (Visit σ V)) : List (Subproblem σ V) :=
  (visits.filter fun v => !v.outcomes.isEmpty).map Visit.node

theorem Visit.compiled_cons (v : Visit σ V) (visits : List (Visit σ V)) :
    compiled (v :: visits) =
      if v.outcomes.isEmpty then compiled visits else v.node :: compiled visits := by
  unfold compiled
  rw [List.filter_cons]
  cases v.outcomes.isEmpty <;> rfl

namespace Solver

/-! ### Searching, with or without forgetting -/

/-- Counts the depths above all open sub-problems, and forgets nothing. -/
def passLayers (s : Solver σ κ V) : Solver σ κ V :=
  { s.retireLayers with session := s.session }

/-- The same solver by another clock. -/
def retimed (s : Solver σ κ V) (clock : Nat → Nat) : Solver σ κ V :=
  { s with settings := { s.settings with clock } }

variable [BEq σ] [Hashable σ] [BEq κ] [Value V]

/-- What the compilations of an exploration come to. -/
def explorations (s : Solver σ κ V) (node : Subproblem σ V) :
    List (Except (Fault σ V) (Report V)) :=
  let width := s.settings.width node
  let sense := s.standing.sense
  let s := s.note
    (.exploring node.depth (sense.orient node.value) (sense.orient node.bound) width s.queue.size)
  match s.compile .restricted width node with
  | (_, .error fault) => [.error fault]
  | (s, .ok c) =>
    let s := s.publish s.diagram.bestValue s.diagram.bestSolution
    if c.isExact then [.ok c] else [.ok c, (s.compile .relaxed width node).2]

/-- What the compilations of a visit come to. -/
def outcomes (s : Solver σ κ V) (node : Subproblem σ V) : List (Except (Fault σ V) (Report V)) :=
  if s.settings.useCache then
    if s.session.cache.admits node then
      let session := s.session.remember node.state node.depth ⟨node.value, true⟩
      { s with session }.explorations node
    else []
  else s.explorations node

omit [BEq σ] [Hashable σ] [BEq κ] in
/-- Decides what to do next, once the depths are given up. -/
def pick (s : Solver σ κ V) (cutoff : Cutoff V) : Solver σ κ V × Move σ V :=
  match s.queue.pop? with
  | none => (s, .exhausted)
  | some (node, queue) =>
    if cutoff s.statistics then (s, .stopped)
    else
      let s := { s with
        queue
        openAt := s.openAt.modify node.depth (· - 1)
        standing := { s.standing with iterations := s.standing.iterations + 1 }
        session := s.session.record (.popped node) }
      if node.bound ≤ s.standing.lower then (s.clearQueue, .exhausted)
      else ({ s with standing := { s.standing with upper := node.bound } }, .explore node)

omit [BEq σ] [Hashable σ] [BEq κ] in
theorem nextMove_eq_pick (s : Solver σ κ V) (cutoff : Cutoff V) :
    s.nextMove cutoff = s.retireLayers.pick cutoff := rfl

/-- Searches, tidying up in a given way before each move, and keeps a record of the visits. -/
def searchBy (tidy : Solver σ κ V → Solver σ κ V) (cutoff : Cutoff V) :
    Nat → Solver σ κ V → List (Visit σ V) × Solver σ κ V × Option (Ending σ V)
  | 0, s => ([], s, none)
  | rounds + 1, s =>
    match (tidy s).pick cutoff with
    | (s, .exhausted) => ([], s, some .exhausted)
    | (s, .stopped) => ([], s, some .stopped)
    | (s, .explore node) =>
      match s.visit node with
      | (s', some fault) => ([⟨node, s.outcomes node⟩], s', some (.faulty fault))
      | (s', none) =>
        let run := searchBy tidy cutoff rounds s'
        (⟨node, s.outcomes node⟩ :: run.1, run.2)

/-- Solves the problem that way. -/
def solveBy (tidy : Solver σ κ V → Solver σ κ V) (s : Solver σ κ V) (rounds : Nat)
    (sense : Sense) (cutoff : Cutoff V) :
    List (Visit σ V) × Solver σ κ V × Option (Except (Fault σ V) (Statistics V)) :=
  match searchBy tidy cutoff rounds (s.openRoot sense) with
  | (visits, s, none) => (visits, s, none)
  | (visits, s, some ending) => (visits, (s.finish sense ending).1, some (s.finish sense ending).2)

theorem solveBy_visits (tidy : Solver σ κ V → Solver σ κ V) (s : Solver σ κ V) (rounds : Nat)
    (sense : Sense) (cutoff : Cutoff V) :
    (s.solveBy tidy rounds sense cutoff).1 =
      (searchBy tidy cutoff rounds (s.openRoot sense)).1 := by
  unfold solveBy
  split
  · rename_i heq
    rw [heq]
  · rename_i heq
    rw [heq]

/-- **A search is one that forgets.** -/
theorem search_eq_searchBy (cutoff : Cutoff V) (rounds : Nat) (s : Solver σ κ V) :
    search cutoff rounds s = (searchBy retireLayers cutoff rounds s).2 := by
  induction rounds generalizing s with
  | zero => rfl
  | succ rounds ih =>
    rw [search, searchBy, nextMove_eq_pick]
    generalize s.retireLayers.pick cutoff = moved
    obtain ⟨s₁, move⟩ := moved
    cases move with
    | exhausted => rfl
    | stopped => rfl
    | explore node =>
      dsimp only
      generalize s₁.visit node = visited
      obtain ⟨s₂, fault⟩ := visited
      cases fault with
      | some fault => rfl
      | none => exact ih s₂

theorem solve_eq_solveBy (s : Solver σ κ V) (rounds : Nat) (sense : Sense) (cutoff : Cutoff V) :
    s.solve rounds sense cutoff = (s.solveBy retireLayers rounds sense cutoff).2 := by
  unfold solve solveBy
  rw [search_eq_searchBy]
  generalize searchBy retireLayers cutoff rounds (s.openRoot sense) = run
  obtain ⟨visits, s', ending⟩ := run
  cases ending with
  | none => rfl
  | some ending => rfl

/-! ### What a search looks at -/

omit [BEq σ] [Hashable σ] [BEq κ] [Value V] in
/-- A solver without the thresholds of lesser depths, and without times. -/
def essence (k : Nat) (s : Solver σ κ V) : Solver σ κ V :=
  { s with
    settings := { s.settings with clock := fun _ => 0 }
    session := s.session.essence k }

variable {s t : Solver σ κ V} {k : Nat} {P : Subproblem σ V} {cutoff : Cutoff V}

omit [BEq σ] [Hashable σ] [BEq κ] [Value V] in
@[simp]
theorem standing_essence : (s.essence k).standing = s.standing := rfl

omit [BEq σ] [Hashable σ] [BEq κ] [Value V] in
@[simp]
theorem useCache_essence : (s.essence k).settings.useCache = s.settings.useCache := rfl

omit [BEq σ] [Hashable σ] [BEq κ] [Value V] in
@[simp]
theorem diagram_essence : (s.essence k).diagram = s.diagram := rfl

omit [BEq σ] [Hashable σ] [BEq κ] in
theorem publish_essence (value : Option V) (solution : Option Path) :
    (s.essence k).publish value solution = (s.publish value solution).essence k := by
  cases value with
  | none => rfl
  | some v =>
    cases solution with
    | none => rfl
    | some path =>
      by_cases hlt : s.standing.lower < v
      · rw [publish_of_lt hlt, publish_of_lt (s := s.essence k) hlt]
        rfl
      · exact (if_neg hlt).trans (congrArg (essence k) (if_neg hlt).symm)

omit [BEq σ] [Hashable σ] [BEq κ] [Value V] in
theorem foldl_essence {α : Type} {step : Solver σ κ V → α → Solver σ κ V}
    (h : ∀ t a, step (t.essence k) a = (step t a).essence k) (as : List α) (t : Solver σ κ V) :
    as.foldl step (t.essence k) = (as.foldl step t).essence k :=
  List.foldl_hom (essence k) h

omit [BEq σ] [Hashable σ] [BEq κ] in
theorem openCutset_essence (bound : V) :
    (s.essence k).openCutset bound = (s.openCutset bound).essence k := by
  refine congrArg measureQueue (foldl_essence (fun t node => ?_) _
    { s with diagram := s.diagram.handOut.2 })
  change (if t.standing.lower < min bound node.bound then (t.essence k).push _ else _) =
    essence k (if t.standing.lower < min bound node.bound then t.push _ else t)
  split
  · rfl
  · rfl

theorem compile_essence (h : k ≤ P.depth) (kind : Kind) (width : Nat) :
    (s.essence k).compile kind width P =
      ((s.compile kind width P).1.essence k, (s.compile kind width P).2) := by
  have hcompiled := (s.request kind width P).compile_essence s.session h
  unfold compile
  dsimp only
  rw [show (s.essence k).request kind width P = s.request kind width P from rfl,
    show (s.essence k).session = s.session.essence k from rfl, hcompiled]
  rfl

theorem bound_essence (h : k ≤ P.depth) (width : Nat) :
    (s.essence k).bound width P = ((s.bound width P).1.essence k, (s.bound width P).2) := by
  unfold bound
  rw [compile_essence h]
  generalize s.compile .relaxed width P = compiled
  obtain ⟨s₁, outcome⟩ := compiled
  cases outcome with
  | error fault => rfl
  | ok c =>
    dsimp only
    rw [diagram_essence, publish_essence, publish_essence]
    split
    · rfl
    · rw [openCutset_essence, standing_essence]
      split
      · rfl
      · rfl

theorem explore_essence (h : k ≤ P.depth) :
    (s.essence k).explore P = ((s.explore P).1.essence k, (s.explore P).2) := by
  unfold explore
  extract_lets width sense noted width' sense' noted'
  rw [show noted = noted'.essence k from rfl, show width = width' from rfl, compile_essence h]
  generalize noted'.compile .restricted width' P = compiled
  obtain ⟨s₁, outcome⟩ := compiled
  cases outcome with
  | error fault => rfl
  | ok c =>
    dsimp only
    rw [diagram_essence, publish_essence, bound_essence h]
    split
    · rfl
    · rfl

theorem explorations_essence (h : k ≤ P.depth) :
    (s.essence k).explorations P = s.explorations P := by
  unfold explorations
  extract_lets width sense noted width' sense' noted'
  rw [show noted = noted'.essence k from rfl, show width = width' from rfl, compile_essence h]
  generalize noted'.compile .restricted width' P = compiled
  obtain ⟨s₁, outcome⟩ := compiled
  cases outcome with
  | error fault => rfl
  | ok c =>
    dsimp only
    rw [diagram_essence, publish_essence, compile_essence h]

omit [Hashable σ] [BEq κ] in
theorem admits_essence (h : k ≤ P.depth) :
    (s.essence k).session.cache.admits P = s.session.cache.admits P := by
  change (s.session.cache.trim k).admits P = _
  unfold Cache.admits
  rw [Cache.get?_trim h]

omit [Hashable σ] [BEq κ] in
theorem remember_essence (h : k ≤ P.depth) :
    { s.essence k with
      session := (s.essence k).session.remember P.state P.depth ⟨P.value, true⟩ } =
    essence k { s with session := s.session.remember P.state P.depth ⟨P.value, true⟩ } := by
  rw [show (s.essence k).session = s.session.essence k from rfl, Session.remember_essence h]
  rfl

/-- **A visit leaves lesser depths and times aside.** -/
theorem visit_essence (h : k ≤ P.depth) :
    (s.essence k).visit P = ((s.visit P).1.essence k, (s.visit P).2) := by
  unfold visit
  dsimp only
  rw [useCache_essence, admits_essence h, remember_essence h, explore_essence h, explore_essence h]
  split
  · split
    · rfl
    · rfl
  · rfl

theorem outcomes_essence (h : k ≤ P.depth) : (s.essence k).outcomes P = s.outcomes P := by
  unfold outcomes
  dsimp only
  rw [useCache_essence, admits_essence h, remember_essence h, explorations_essence h,
    explorations_essence h]

omit [BEq σ] [Hashable σ] [BEq κ] in
/-- **So does the choice of the next move.** -/
theorem pick_essence (hcutoff : cutoff.Timeless) :
    (s.essence k).pick cutoff = ((s.pick cutoff).1.essence k, (s.pick cutoff).2) := by
  have hstop : cutoff (s.essence k).statistics = cutoff s.statistics := hcutoff s.statistics 0
  unfold pick
  rw [hstop, show (s.essence k).queue = s.queue from rfl]
  cases s.queue.pop? with
  | none => rfl
  | some popped =>
    obtain ⟨P, rest⟩ := popped
    dsimp only [standing_essence]
    split
    · rfl
    · split
      · rfl
      · rfl

omit [BEq σ] [Hashable σ] [BEq κ] in
theorem finish_essence (sense : Sense) (ending : Ending σ V) :
    (s.essence k).finish sense ending = ((s.finish sense ending).1.essence k,
      (s.finish sense ending).2.map Statistics.untimed) := by
  cases ending with
  | exhausted => rfl
  | stopped => rfl
  | faulty fault => rfl

/-! ### Two searches side by side -/

omit [BEq σ] [Hashable σ] [BEq κ] [Value V] in
theorem essence_essence {j : Nat} (h : j ≤ k) : (s.essence j).essence k = s.essence k :=
  congrArg (fun session => { s.essence k with session }) (Session.essence_essence h)

omit [BEq σ] [Hashable σ] [BEq κ] [Value V] in
theorem passLayers_essence :
    s.passLayers.essence k = { s.essence k with shallowest := s.shallowest + s.idle } := by
  unfold passLayers
  rw [retireLayers_eq_forget]
  rfl

omit [BEq σ] [Hashable σ] [BEq κ] [Value V] in
/-- **What is forgotten is of lesser depths.** -/
theorem trim_cache_retireLayers (s : Solver σ κ V) :
    s.retireLayers.session.cache.trim (s.shallowest + s.idle) =
      s.session.cache.trim (s.shallowest + s.idle) := by
  rw [retireLayers_eq_forget]
  exact Cache.trim_foldl_forget _ fun depth hdepth => (List.mem_range'_1.1 hdepth).2

omit [BEq σ] [Hashable σ] [BEq κ] [Value V] in
theorem retireLayers_essence : s.retireLayers.essence (s.shallowest + s.idle) =
    { s.essence (s.shallowest + s.idle) with shallowest := s.shallowest + s.idle } := by
  have htrim := s.trim_cache_retireLayers
  rw [retireLayers_eq_forget] at htrim ⊢
  unfold essence Session.essence
  dsimp only at htrim ⊢
  rw [htrim]

omit [BEq σ] [Hashable σ] [BEq κ] [Value V] in
/-- Two solvers that differ only in times, and in the thresholds of depths that were given
up. -/
def Alike (s t : Solver σ κ V) : Prop :=
  s.essence s.shallowest = t.essence s.shallowest

omit [BEq σ] [Hashable σ] [BEq κ] [Value V] in
/-- One may forget what the other only counts. -/
theorem Alike.retire (h : s.Alike t) : s.retireLayers.Alike t.passLayers := by
  have hidle : (s.essence s.shallowest).idle = (t.essence s.shallowest).idle := congrArg idle h
  have hshallowest : (s.essence s.shallowest).shallowest = (t.essence s.shallowest).shallowest :=
    congrArg shallowest h
  have hdepth : s.retireLayers.shallowest = s.shallowest + s.idle := by
    rw [retireLayers_eq_forget]
  have hagain := congrArg (essence (s.shallowest + s.idle)) h
  rw [essence_essence (Nat.le_add_right _ _), essence_essence (Nat.le_add_right _ _)] at hagain
  unfold Alike
  rw [hdepth, retireLayers_essence, passLayers_essence, hagain]
  change s.idle = t.idle at hidle
  change s.shallowest = t.shallowest at hshallowest
  rw [hidle, hshallowest]

omit [BEq σ] [Hashable σ] [BEq κ] in
theorem pick_shallowest (s : Solver σ κ V) (cutoff : Cutoff V) :
    (s.pick cutoff).1.shallowest = s.shallowest := by
  unfold pick
  cases s.queue.pop? with
  | none => rfl
  | some popped =>
    dsimp only
    split
    · rfl
    · split
      · rfl
      · rfl

omit [BEq σ] [Hashable σ] [BEq κ] in
/-- **Solvers that are alike do the same next.** -/
theorem Alike.pick (h : s.Alike t) (hcutoff : cutoff.Timeless) :
    (s.pick cutoff).1.Alike (t.pick cutoff).1 ∧ (s.pick cutoff).2 = (t.pick cutoff).2 := by
  have hpick : (s.essence s.shallowest).pick cutoff = (t.essence s.shallowest).pick cutoff :=
    congrArg (Solver.pick · cutoff) h
  rw [pick_essence hcutoff, pick_essence hcutoff] at hpick
  obtain ⟨hsolver, hmove⟩ := Prod.mk.inj hpick
  unfold Alike
  rw [pick_shallowest]
  exact ⟨hsolver, hmove⟩

/-- **Solvers that are alike find the same**, and stay alike. -/
theorem Alike.visit (h : s.Alike t) (hs : s.Tallied) (hP : s.shallowest ≤ P.depth) :
    (s.visit P).1.Alike (t.visit P).1 ∧ (s.visit P).2 = (t.visit P).2 ∧
      s.outcomes P = t.outcomes P := by
  have hvisit : (s.essence s.shallowest).visit P = (t.essence s.shallowest).visit P :=
    congrArg (Solver.visit · P) h
  have houtcomes : (s.essence s.shallowest).outcomes P = (t.essence s.shallowest).outcomes P :=
    congrArg (Solver.outcomes · P) h
  rw [visit_essence hP, visit_essence hP] at hvisit
  rw [outcomes_essence hP, outcomes_essence hP] at houtcomes
  obtain ⟨hsolver, hfault⟩ := Prod.mk.inj hvisit
  unfold Alike
  rw [((s.visit_tackles P).tallied hs hP).2]
  exact ⟨hsolver, hfault, houtcomes⟩

/-- **A search that forgets and one that does not stay alike.** -/
theorem searchBy_alike (hcutoff : cutoff.Timeless) (rounds : Nat) (hs : s.Tallied)
    (h : s.Alike t) :
    let run := searchBy retireLayers cutoff rounds s
    let keeping := searchBy passLayers cutoff rounds t
    run.1 = keeping.1 ∧ run.2.1.Alike keeping.2.1 ∧ run.2.2 = keeping.2.2 := by
  induction rounds generalizing s t with
  | zero => exact ⟨rfl, h, rfl⟩
  | succ rounds ih =>
    obtain ⟨hpicked, hmove⟩ := h.retire.pick hcutoff
    have htallied : ∀ P s₁, s.retireLayers.pick cutoff = (s₁, .explore P) →
        s₁.Tallied ∧ s₁.shallowest ≤ P.depth := fun P s₁ heq => hs.nextMove heq
    rw [searchBy, searchBy]
    generalize s.retireLayers.pick cutoff = moved at hpicked hmove htallied
    generalize t.passLayers.pick cutoff = moved' at hpicked hmove
    obtain ⟨s₁, move⟩ := moved
    obtain ⟨t₁, move'⟩ := moved'
    obtain rfl : move = move' := hmove
    cases move with
    | exhausted => exact ⟨rfl, hpicked, rfl⟩
    | stopped => exact ⟨rfl, hpicked, rfl⟩
    | explore P =>
      obtain ⟨hs₁, hP⟩ := htallied P s₁ rfl
      obtain ⟨hvisited, hfault, houtcomes⟩ := Alike.visit hpicked hs₁ hP
      have hs₂ := ((s₁.visit_tackles P).tallied hs₁ hP).1
      dsimp only
      rw [← houtcomes]
      generalize s₁.visit P = visited at hvisited hfault hs₂
      generalize t₁.visit P = visited' at hvisited hfault
      obtain ⟨s₂, fault⟩ := visited
      obtain ⟨t₂, fault'⟩ := visited'
      obtain rfl : fault = fault' := hfault
      cases fault with
      | some fault => exact ⟨rfl, hvisited, rfl⟩
      | none =>
        obtain ⟨hvisits, halike, hending⟩ := ih hs₂ hvisited
        exact ⟨congrArg (_ :: ·) hvisits, halike, hending⟩

omit [BEq σ] [Hashable σ] [BEq κ] [Value V] in
/-- What is left of a journal without times. -/
theorem journal_of_essence (h : s.essence k = t.essence k) :
    s.session.journal.map Event.untimed = t.session.journal.map Event.untimed := by
  have hevents : s.session.events.map Event.untimed = t.session.events.map Event.untimed :=
    congrArg (fun u : Solver σ κ V => u.session.events) h
  rw [Session.journal, Session.journal, List.map_reverse, List.map_reverse, hevents]

omit [BEq σ] [Hashable σ] [BEq κ] [Value V] in
/-- Two runs that come to the same, all but for the time. -/
structure Agree (run run' : List (Visit σ V) × Solver σ κ V ×
    Option (Except (Fault σ V) (Statistics V))) : Prop where
  /-- The same sub-problems were taken up, and compiling them came to the same. -/
  visits : run.1 = run'.1
  /-- The same sub-problems were opened, taken and skipped, and the same solutions handed
  out. -/
  journal : run.2.1.session.journal.map Event.untimed =
    run'.2.1.session.journal.map Event.untimed
  /-- The last word is the same. -/
  outcome : run.2.2.map (Except.map Statistics.untimed) =
    run'.2.2.map (Except.map Statistics.untimed)

/-- **Forgetting is not seen.**  A search that forgets the thresholds of the depths above all
open sub-problems goes on like one that keeps them: it takes up, skips and opens the same
sub-problems in the same order, its compilations come to the same, it hands out the same
solutions, and it ends with the same statistics, all but for the time.  For whenever it
forgets, the sub-problems that are open at each depth are counted right, and none is less
deep than what it forgets. -/
theorem solve_keeping_alike (s : Solver σ κ V) (clock : Nat → Nat) (rounds : Nat)
    (sense : Sense) (cutoff : Cutoff V) (hcutoff : cutoff.Timeless) :
    (s.solveBy retireLayers rounds sense cutoff).2 = s.solve rounds sense cutoff ∧
      Agree (s.solveBy retireLayers rounds sense cutoff)
        ((s.retimed clock).solveBy passLayers rounds sense cutoff) ∧
      ∀ s₁, (s.openRoot sense).Course cutoff s₁ → s₁.Tallied ∧ s₁.retireLayers.Tallied := by
  have halike : (s.openRoot sense).Alike ((s.retimed clock).openRoot sense) := rfl
  have htallied := s.openRoot_tallied sense
  refine ⟨(s.solve_eq_solveBy rounds sense cutoff).symm, ?_, fun s₁ hcourse =>
    ⟨Course.tallied htallied hcourse, (Course.tallied htallied hcourse).retireLayers⟩⟩
  obtain ⟨hvisits, hsolver, hending⟩ := searchBy_alike hcutoff rounds htallied halike
  unfold solveBy
  generalize searchBy retireLayers cutoff rounds (s.openRoot sense) = found at *
  generalize searchBy passLayers cutoff rounds ((s.retimed clock).openRoot sense) = found' at *
  obtain ⟨visits, s₁, ending⟩ := found
  obtain ⟨visits', t₁, ending'⟩ := found'
  obtain rfl : ending = ending' := hending
  cases ending with
  | none => exact ⟨hvisits, journal_of_essence hsolver, rfl⟩
  | some ending =>
    have hfinish : (s₁.essence s₁.shallowest).finish sense ending =
        (t₁.essence s₁.shallowest).finish sense ending := congrArg (finish · sense ending) hsolver
    rw [finish_essence, finish_essence] at hfinish
    obtain ⟨hfinished, hlast⟩ := Prod.mk.inj hfinish
    exact ⟨hvisits, journal_of_essence hfinished, congrArg some hlast⟩

/-- Three visits, after which less is remembered than was learned. -/
theorem solve_keeping_alike_restless :
    let s := Solver.ofSettings restlessSettings
    let run := s.solveBy retireLayers 20 .maximize (Cutoff.afterIterations 9)
    let keeping := (s.retimed (· + 1)).solveBy passLayers 20 .maximize (Cutoff.afterIterations 9)
    run.1.length = 3 ∧ run.2.1.session.cache.size < keeping.2.1.session.cache.size ∧
      Agree run keeping := by
  intro s run keeping
  obtain ⟨_, hagree, _⟩ := s.solve_keeping_alike (· + 1) 20 .maximize (Cutoff.afterIterations 9)
    fun _ _ => rfl
  exact ⟨by decide +kernel, by decide +kernel, hagree⟩

end Solver
end DiagramSearch
