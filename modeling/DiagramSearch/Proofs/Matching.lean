/-
# Two runs side by side

Solvers that put the same question to the engine, and start from the same incumbent, are side
by side at the start of a search, whatever was done with them before.  So they are at its
end, and so are those of a single diagram as far as their users are told.

* `Solver.Matched`: such solvers;
* `Solver.Matched.solve`, `Solver.Matched.solveOnce`: **two runs come to the same end**, up to a
  fault of the one that is watched more closely;
* `Solver.Attuned.observe`: what can be told from the journals is the same;
* `Duet.unison`: runs with the same sense and the same cutoff.
-/

import DiagramSearch.Proofs.Moves
import DiagramSearch.Proofs.Shadowing

namespace DiagramSearch

variable {σ κ V : Type}

namespace Solver

variable [Value V] {q : Duet V} {s t : Solver σ κ V}

/-! ### From the start -/

/-- Two solvers with settings that put the same question, whose first incumbents, if they
have any, are the same. -/
structure Matched (q : Duet V) (s t : Solver σ κ V) : Prop where
  settings : s.settings.Matches q t.settings
  primal : s.primal.map (fun p => (q.sense.orient p.1, p.2)) =
    t.primal.map fun p => (q.sense'.orient p.1, p.2)
  applications : (q.views : Views σ V).counted = true →
    s.session.applications = t.session.applications

namespace Matched

theorem primal_cases (h : Matched q s t) : (s.primal = none ∧ t.primal = none) ∨
    ∃ value value' path, s.primal = some (value, path) ∧ t.primal = some (value', path) ∧
      q.sense.orient value = q.sense'.orient value' := by
  have hprimal := h.primal
  cases hs : s.primal with
  | none =>
    rw [hs] at hprimal
    exact .inl ⟨rfl, Option.map_eq_none_iff.1 hprimal.symm⟩
  | some first =>
    rw [hs] at hprimal
    obtain ⟨first', ht, heq⟩ := Option.map_eq_some_iff.1 hprimal.symm
    obtain ⟨value, path⟩ := first
    obtain ⟨value', path'⟩ := first'
    obtain ⟨hvalue, rfl⟩ := Prod.mk.inj heq
    exact .inr ⟨value, value', path', rfl, ht, hvalue.symm⟩

/-- Whatever was done before, the users are told the same from the first notice on. -/
theorem renew (h : Matched q s t) {n n' : Notice σ V}
    (hn : n.untimed = (n'.orient q.through).untimed) :
    Attuned q (s.renew q.sense n) (t.renew q.sense' n') :=
  ⟨h.settings, rfl, rfl, rfl, h.applications,
    Views.filterMap_cons (q.views.inner .tableCleared rfl)
      (Views.filterMap_cons (Views.of_notice hn) rfl)⟩

/-- The solvers are side by side at the start of a search. -/
theorem openRoot (h : Matched q s t) :
    Beside q (s.openRoot q.sense) (t.openRoot q.sense') := by
  have hcache : t.settings.useCache = s.settings.useCache :=
    (congrArg Settings.useCache h.settings.rest :)
  have hvariables : t.variables = s.variables := h.settings.variables
  have hnotice : (Notice.searchStarted q.sense s.variables : Notice σ V).untimed =
      (Notice.orient q.through (.searchStarted q.sense' t.variables)).untimed := by
    rw [hvariables, ← h.settings.turn]
    rfl
  have hstarted := (h.renew hnotice).record (q.views.inner .queueCleared rfl)
  refine Beside.measureQueue ?_
  change Beside q (Solver.push _ (s.root q.sense)) (Solver.push _ (t.root q.sense'))
  rw [h.settings.root]
  refine Beside.push ?_ _
  refine ⟨⟨h.settings, ?facing, ?standing, hstarted.session.recache _ _⟩, ?cache, rfl, ?openAt, rfl⟩
  case facing =>
    dsimp only
    split <;> rfl
  case standing =>
    dsimp only [Solver.renew, Solver.clearQueue]
    rcases h.primal_cases with ⟨hs, ht⟩ | ⟨value, value', path, hs, ht, hvalue⟩
    · rw [hs, ht]
      rfl
    · rw [hs, ht]
      dsimp only
      rw [← hvalue]
      rfl
  case cache =>
    change (if s.settings.useCache then Cache.ofSize s.variables else .off) =
      if t.settings.useCache then Cache.ofSize t.variables else .off
    rw [hcache, hvariables]
  case openAt =>
    exact congrArg (fun count => Array.replicate (count + 1) 0) hvariables

section Solve

variable [BEq σ] [Hashable σ] [BEq κ]

/-- **Two whole searches stay side by side and come to the same end**, unless the left one is
watched more closely and meets a fault. -/
theorem solve (h : Matched q s t) (rounds : Nat) :
    (q.closer = true ∧ ∃ fault, (s.solve rounds q.sense q.cutoff).2 = some (.error fault)) ∨
      (Beside q (s.solve rounds q.sense q.cutoff).1 (t.solve rounds q.sense' q.cutoff').1 ∧
        (s.solve rounds q.sense q.cutoff).2.map (Except.map Statistics.untimed) =
          (t.solve rounds q.sense' q.cutoff').2.map fun outcome =>
            (orientOutcome q.through outcome).map Statistics.untimed) := by
  have hsearch := h.openRoot.search rounds
  unfold Solver.solve
  generalize Solver.search q.cutoff rounds (s.openRoot q.sense) = searched at hsearch
  generalize Solver.search q.cutoff' rounds (t.openRoot q.sense') = searched' at hsearch
  obtain ⟨s₁, ending⟩ := searched
  obtain ⟨t₁, ending'⟩ := searched'
  rcases hsearch with ⟨hcloser, fault, hfault⟩ | ⟨hbeside, hending⟩
  · obtain rfl : ending = some (.faulty fault) := hfault
    exact .inl ⟨hcloser, fault.orient q.sense, rfl⟩
  · obtain rfl : ending = ending' := hending
    cases ending with
    | none => exact .inr ⟨hbeside, rfl⟩
    | some ending =>
      obtain ⟨hfinished, houtcome⟩ := Beside.finish hbeside ending
      exact .inr ⟨hfinished, congrArg some houtcome⟩

/-- **Two compilations of the whole problem come to the same end.** -/
theorem solveOnce (h : Matched q s t) (hcloser : q.closer = false) (kind : Kind) :
    Attuned q (s.solveOnce kind q.sense q.cutoff).1 (t.solveOnce kind q.sense' q.cutoff').1 ∧
      (s.solveOnce kind q.sense q.cutoff).2.map Statistics.untimed =
        (orientOutcome q.through (t.solveOnce kind q.sense' q.cutoff').2).map
          Statistics.untimed := by
  have hvariables : t.variables = s.variables := h.settings.variables
  have hnotice : (Notice.compilationStarted kind q.sense s.variables : Notice σ V).untimed =
      (Notice.orient q.through (.compilationStarted kind q.sense' t.variables)).untimed := by
    rw [hvariables, ← h.settings.turn]
    rfl
  have hrenewed := h.renew hnotice
  unfold Solver.solveOnce
  extract_lets renewed adopted halted standing session ready root renewed' adopted' halted'
    standing' session' ready' root'
  have hadopted : Attuned q adopted adopted' := by
    unfold adopted adopted'
    have hprimal : renewed.primal = s.primal := rfl
    have hprimal' : renewed'.primal = t.primal := rfl
    rcases h.primal_cases with ⟨hs, ht⟩ | ⟨value, value', path, hs, ht, hvalue⟩
    · rw [hprimal, hprimal', hs, ht]
      exact hrenewed
    · rw [hprimal, hprimal', hs, ht]
      dsimp only
      rw [← hvalue]
      exact hrenewed.improve _ _
  have hready : Attuned q ready ready' :=
    have hcounted := hadopted.restand (f := fun p => { p with iterations := 1 }) fun _ _ => rfl
    ⟨hcounted.settings, hcounted.facing, hcounted.standing, hcounted.session.recache _ _⟩
  have hroot : root' = root := hready.settings.root
  have hwidth : ready'.settings.width = ready.settings.width :=
    (congrArg Settings.width hready.settings.rest :)
  have hhalted : Attuned q halted halted' := hadopted.conclude false
  rw [← hadopted.stops, hroot, hwidth]
  split
  · exact ⟨hhalted, congrArg Except.ok hhalted.statistics⟩
  · rcases hready.compile rfl kind (ready.settings.width root) root with ⟨hwatched, _⟩ |
      ⟨hcompiled, htallies⟩
    · cases hcloser.symm.trans hwatched
    · have houtcome : (ready.compile kind (ready.settings.width root) root).2 =
          (ready'.compile kind (ready.settings.width root) root).2 := htallies.outcome
      have hdiagram : (ready.compile kind (ready.settings.width root) root).1.diagram =
          (ready'.compile kind (ready.settings.width root) root).1.diagram := by
        refine htallies.diagram (.inr ?_)
        rcases hready.settings.checks with hsame | ⟨hwatched, _⟩
        · exact hsame
        · cases hcloser.symm.trans hwatched
      generalize ready.compile kind (ready.settings.width root) root = compiled at *
      generalize ready'.compile kind (ready.settings.width root) root = compiled' at *
      obtain ⟨s₁, outcome⟩ := compiled
      obtain ⟨t₁, outcome'⟩ := compiled'
      obtain rfl : outcome = outcome' := houtcome
      cases outcome with
      | error fault =>
        have hfault := hready.settings.fault fault
        exact ⟨(hcompiled.conclude false).note (congrArg Notice.compilationAborted hfault),
          congrArg Except.error hfault⟩
      | ok c =>
        have hlearned := Attuned.learn hcompiled hdiagram kind c
        exact ⟨hlearned.note (congrArg Notice.compilationOver hlearned.statistics),
          congrArg Except.ok hlearned.statistics⟩

end Solve

end Matched

/-! ### What was seen -/

namespace Attuned

/-- What both users were told, all but for the time, if neither was watched more closely. -/
theorem journal (h : Attuned q s t) (hcloser : q.closer = false) :
    s.session.journal.map Event.untimed =
      t.session.journal.map fun e => (e.orient q.through).untimed := by
  have hleft : q.views.left = some ∘ Event.untimed (σ := σ) (V := V) :=
    funext fun e => congrArg (Event.seen · e) hcloser
  have hright : q.views.right = some ∘ fun e : Event σ V => (e.orient q.through).untimed :=
    funext fun e => congrArg (Event.seen · (e.orient q.through)) hcloser
  have hevents := h.session.events
  rw [hleft, hright, List.filterMap_eq_map, List.filterMap_eq_map] at hevents
  unfold Session.journal
  rw [List.map_reverse, List.map_reverse, hevents]

/-- **What is told by neither notices nor times is told on both sides.** -/
theorem observe (h : Attuned q s t) {α : Type} {view : Event σ V → Option α}
    (hsilent : ∀ n, view (.notice n) = none) (huntimed : ∀ e, view e.untimed = view e)
    (horient : ∀ e, view (e.orient q.through) = view e) :
    s.session.journal.filterMap view = t.session.journal.filterMap view := by
  have hseen : ∀ e, (e.seen q.closer).bind view = view e := by
    intro e
    unfold Event.seen
    split
    · rename_i hmuted
      cases e with
      | notice n => exact (hsilent n).symm
      | _ => exact absurd hmuted (by simp [Event.isNotice])
    · exact huntimed e
  have hleft : (fun e => (q.views.left e).bind view) = view := funext hseen
  have hright : (fun e => (q.views.right e).bind view) = view :=
    funext fun e => (hseen (e.orient q.through)).trans (horient e)
  have hevents := congrArg (List.filterMap view) h.session.events
  rw [List.filterMap_filterMap, List.filterMap_filterMap, hleft, hright] at hevents
  unfold Session.journal
  rw [List.filterMap_reverse, List.filterMap_reverse, hevents]

/-- The same sub-problems were taken. -/
theorem popped_eq (h : Attuned q s t) : s.session.popped = t.session.popped :=
  h.observe (fun _ => rfl) (fun e => by cases e <;> rfl) fun e => by cases e <;> rfl

end Attuned

/-! ### In one space -/

end Solver

section Unison

variable [Value V] {sense : Sense} {cutoff : Cutoff V} {closer : Bool}

/-- Two searches with the same sense and the same cutoff. -/
def Duet.unison (sense : Sense) (cutoff : Cutoff V) (closer : Bool) : Duet V :=
  ⟨sense, sense, cutoff, cutoff, .maximize, closer, false⟩

/-- If the cutoff does not look at the time, the clocks make no difference. -/
theorem Settings.matches_unison (set : Settings σ κ V) {checks' : Checks}
    (hpure : set.model.problem.Pure) (hcutoff : cutoff.Timeless) (clock : Nat → Nat)
    (hchecks : checks' = set.checks ∨ closer = true ∧ checks' = .off) :
    set.Matches (.unison sense cutoff closer) { set with checks := checks', clock } where
  rest := rfl
  model := rfl
  checks := hchecks
  bears := .inl hpure
  stops p := (hcutoff (Standing.statistics { p with sense } set.clock) (clock p.iterations)).symm
  turn := rfl
  leaves _ := rfl

/-- Where both stand is the same. -/
theorem Solver.Attuned.unison {s t : Solver σ κ V}
    (h : Attuned (.unison sense cutoff closer) s t) : t.standing = s.standing := by
  have hsense : s.standing.sense = sense := h.facing
  have hstanding : t.standing = { s.standing with sense } := h.standing
  rw [hstanding, ← hsense]

variable [BEq σ] [Hashable σ] [BEq κ] {s t : Solver σ κ V}

/-- Their last words are the same, -/
theorem Solver.Matched.solve_unison (h : Matched (.unison sense cutoff closer) s t) (rounds : Nat) :
    (closer = true ∧ ∃ fault, (s.solve rounds sense cutoff).2 = some (.error fault)) ∨
      (Beside (.unison sense cutoff closer) (s.solve rounds sense cutoff).1
          (t.solve rounds sense cutoff).1 ∧
        (s.solve rounds sense cutoff).2.map (Except.map Statistics.untimed) =
          (t.solve rounds sense cutoff).2.map (Except.map Statistics.untimed)) := by
  refine (h.solve rounds).imp_right fun ⟨hbeside, houtcome⟩ => ⟨hbeside, ?_⟩
  exact houtcome.trans (congrArg (Option.map · _)
    (funext fun outcome => congrArg (Except.map _) (orientOutcome_maximize outcome)))

end Unison
end DiagramSearch
