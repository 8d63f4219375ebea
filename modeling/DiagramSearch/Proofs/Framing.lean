/-
# A search frames the optimum at any time

Whenever a search is stopped, what it knows is on the right side of the optimum: its
incumbent is not better, and the bound of the last sub-problem that was taken up is not
worse.  The latter is the point: that bound is the greatest of all open ones, and while
the incumbent falls short some open sub-problem carries the optimum.

* `Statistics.Frames`: what that means for the numbers that a user is shown;
* `Framed`: what holds of a solver at every moment, and of all that it has reported;
  `Framed.publish` is the step at which a solution is reported, `Framed.nextMove` the one
  at which a new bound is taken over, `Solver.visit_framed` all that lies between;
* `Solver.search_framed`: **all of it holds however long a search goes on**, and a search
  that exhausts what is open has found the optimum;
* `Solver.solve_frames`: what a search reports, from the first solution to the last word,
  under every cutoff.
-/

import DiagramSearch.Proofs.Accounting
import DiagramSearch.Proofs.Terminating

namespace DiagramSearch

open Extended

variable {σ κ : Type}

/-! ### Numbers around an optimum -/

/-- The optimum, as a user sees it. -/
abbrev Settings.optimum (set : Settings σ κ Extended) (sense : Sense) : Extended :=
  sense.orient ((set.oriented sense).total set.branching)

/-- The numbers that a user is shown are on the right side of an optimum. -/
structure Statistics.Frames (st : Statistics Extended) (sense : Sense) (optimum : Extended) :
    Prop where
  /-- The incumbent is not better. -/
  incumbent : ∀ v, st.incumbent = some v → sense.prefers v optimum = false
  /-- The bound is not worse. -/
  bound : ∀ b, st.bound = some b → sense.prefers optimum b = false

/-- The same as the engine sees it. -/
structure Standing.Frames (p : Standing Extended) (total : Extended) : Prop where
  lower : p.lower ≤ total
  upper : total ≤ max p.upper p.lower

theorem Standing.Frames.statistics {p : Standing Extended} {total : Extended} (h : p.Frames total)
    (clock : Nat → Nat) : (p.statistics clock).Frames p.sense (p.sense.orient total) where
  incumbent v hv := by
    obtain ⟨_, _, rfl⟩ := Option.map_eq_some_iff.1 hv
    exact Bool.eq_false_iff.2 fun hlt => not_lt.2 h.lower ((Sense.prefers_orient _).1 hlt)
  bound b hb := by
    change (if _ then some (p.sense.orient (max p.upper p.lower)) else none) = some b at hb
    split at hb
    · obtain rfl := Option.some.inj hb
      exact Bool.eq_false_iff.2 fun hlt => not_lt.2 h.upper ((Sense.prefers_orient _).1 hlt)
    · cases hb

/-- A better solution makes the frame tighter. -/
theorem Standing.Frames.adopt {p : Standing Extended} {total v : Extended} (h : p.Frames total)
    (hbetter : p.lower < v) (hv : v ≤ total) (path : Path) : (p.adopt v path).Frames total where
  lower := hv
  upper := h.upper.trans (max_le_max le_rfl hbetter.le)

/-- So does the end of a search, if the incumbent is the optimum then. -/
theorem Standing.Frames.conclude {p : Standing Extended} {total : Extended} (h : p.Frames total)
    {exhausted : Bool} (hbest : exhausted = true → total ≤ p.lower) :
    (p.conclude exhausted).Frames total where
  lower := h.lower
  upper := by
    cases exhausted with
    | true => exact (hbest rfl).trans (le_max_right _ _)
    | false => exact h.upper

/-! ### Last words -/

namespace Standing

variable {p : Standing Extended} {set : Settings σ κ Extended} {sense : Sense}
  {primal : Option (Extended × Path)}

/-- An exhaustive search says which of the two it is: its incumbent is the optimum, which
is that of a solution, or there is none. -/
theorem Genuine.conclude_exhausted (h : p.Genuine sense (set.Vouches sense primal))
    (hbest : (set.oriented sense).total set.branching ≤ p.lower) (clock : Nat → Nat) :
    (((p.conclude true).statistics clock).status = .optimal ∧
        ((p.conclude true).statistics clock).incumbent = some (set.optimum sense) ∧
        ∃ path, (set.oriented sense).Completes set.branching
          ((set.oriented sense).total set.branching) path) ∨
      (((p.conclude true).statistics clock).status = .infeasible ∧
        (set.oriented sense).total set.branching = negInf) := by
  have htotal := le_antisymm (h.lower_le fun _ _ hv => hv.le_total) hbest
  rcases h.incumbent with ⟨hlower, hnone⟩ | ⟨path, hpath, hvouches⟩
  · refine .inr ⟨?_, htotal.symm.trans hlower⟩
    simp [statistics, conclude, hnone]
  · refine .inl ⟨?_, ?_, htotal ▸ hvouches.exists_completes⟩
    · simp [statistics, conclude, hpath]
    · simp [statistics, conclude, Standing.incumbent, hpath, h.facing, htotal]

/-- A search that was told to stop makes no claim. -/
theorem status_conclude_false (p : Standing Extended) (clock : Nat → Nat) :
    ((p.conclude false).statistics clock).status = .sat ∨
      ((p.conclude false).statistics clock).status = .unknown := by
  cases hsolution : p.solution with
  | some path =>
    left
    simp [statistics, conclude, hsolution]
  | none =>
    right
    simp [statistics, conclude, hsolution]

end Standing

/-! ### What holds at every moment -/

/-- Something holds of all that was reported with a solution. -/
def Session.Told (good : Statistics Extended → Prop) (s : Session σ κ Extended) : Prop :=
  ∀ path st, .incumbent path st ∈ s.events → good st

theorem Session.Told.silent {good : Statistics Extended → Prop} {s s' : Session σ κ Extended}
    (h : s.Told good) (hsilent : s.Silent s') : s'.Told good := by
  intro path st hmem
  obtain ⟨new, heq, hnew⟩ := hsilent
  rw [heq] at hmem
  exact h path st ((List.mem_append.1 hmem).resolve_left (hnew path st))

/-- A solver that frames an optimum, as did all that it has reported. -/
structure Framed (total : Extended) (sense : Sense) (s : Solver σ κ Extended) : Prop where
  facing : s.standing.sense = sense
  standing : s.standing.Frames total
  told : s.session.Told (·.Frames sense (sense.orient total))

namespace Framed

variable {total : Extended} {sense : Sense} {s s' : Solver σ κ Extended}

/-- Steps that neither find a solution nor take up a sub-problem. -/
theorem idles (h : Framed total sense s) (hi : s.Idles s')
    (hupper : s'.standing.upper = s.standing.upper) : Framed total sense s' where
  facing := hi.sense.trans h.facing
  standing := by
    refine ⟨?_, ?_⟩
    · rw [hi.lower]
      exact h.standing.lower
    · rw [hi.lower, hupper]
      exact h.standing.upper
  told := h.told.silent hi.session

/-- **Reporting a solution.** -/
theorem publish (h : Framed total sense s) {value : Option Extended} {solution : Option Path}
    (hvalue : ∀ v path, value = some v → solution = some path → v ≤ total) :
    Framed total sense (s.publish value solution) := by
  rcases s.publish_silent value solution with heq | ⟨v, path, hv, hpath, hlt, session, hsilent, heq⟩
  · rw [heq]
    exact h
  · rw [heq]
    have hadopted := h.standing.adopt hlt (hvalue v path hv hpath) path
    refine ⟨h.facing, hadopted, fun path' st hmem => ?_⟩
    rcases List.mem_cons.1 hmem with heq | hmem
    · obtain ⟨rfl, rfl⟩ := Event.incumbent.inj heq
      rw [← h.facing]
      exact hadopted.statistics s.settings.clock
    · exact h.told.silent hsilent path' st hmem

/-- Opening sub-problems. -/
theorem openCutset (h : Framed total sense s) (bound : Extended) :
    Framed total sense (s.openCutset bound) := by
  refine s.openCutset_induction bound (M := Framed total sense) ⟨h.facing, h.standing, h.told⟩ ?_ ?_
  · intro t ht z _
    exact ⟨ht.facing, ht.standing, ht.told.silent (Session.silent_record nofun)⟩
  · intro t ht
    exact ⟨ht.facing, ⟨ht.standing.lower, ht.standing.upper⟩, ht.told⟩

/-- **Taking up a sub-problem**: its bound is the greatest of the open ones, and one of
these leaves room for the optimum as long as the incumbent falls short. -/
theorem nextMove (h : Framed total sense s) (hsorted : BestFirst s.queue.entries)
    (hopen : s.standing.lower < total → ∃ N ∈ s.queue.entries, total ≤ N.bound)
    (cutoff : Cutoff Extended) : Framed total sense (s.nextMove cutoff).1 := by
  have hidles := Solver.Idles.retireLayers s
  have hupper : s.retireLayers.standing.upper = s.standing.upper := by
    rw [Solver.retireLayers_eq_forget]
  have hretired := h.idles hidles hupper
  rcases s.nextMove_cases cutoff with ⟨_, heq⟩ | ⟨P, rest, hqueue, hcases⟩
  · rw [heq]
    exact hretired
  · have hpopped := hretired.told.silent (Session.silent_record (e := .popped P) nofun)
    rcases hcases with ⟨_, heq⟩ | ⟨_, heq⟩ | ⟨_, heq⟩
    · rw [heq]
      exact hretired
    · rw [heq]
      exact ⟨hretired.facing, ⟨hretired.standing.lower, hretired.standing.upper⟩,
        hpopped.silent (Session.silent_record nofun)⟩
    · rw [heq]
      refine ⟨hretired.facing, ⟨hretired.standing.lower, ?_⟩, hpopped⟩
      change total ≤ max P.bound s.retireLayers.standing.lower
      rw [hidles.lower]
      rw [hqueue] at hsorted hopen
      rcases lt_or_ge s.standing.lower total with hlt | hge
      · obtain ⟨N, hN, hbound⟩ := hopen hlt
        refine (hbound.trans ?_).trans (le_max_left _ _)
        rcases List.mem_cons.1 hN with rfl | hN
        · exact le_rfl
        · exact (List.pairwise_cons.1 hsorted).1 N hN
      · exact hge.trans (le_max_right _ _)

end Framed

/-! ### Visiting a sub-problem -/

section Visit

variable [BEq σ] [LawfulBEq σ] [Hashable σ] [BEq κ] {set : Settings σ κ Extended} {sense : Sense}
  {start s : Solver σ κ Extended} {P : Subproblem σ Extended}

/-- Bounding a sub-problem. -/
theorem Solver.bound_framed (hset : set.Lawful sense) (hs : Steady set sense start s)
    (hP : set.Admits sense P) (h : Framed ((set.oriented sense).total set.branching) sense s)
    (width : Nat) :
    Framed ((set.oriented sense).total set.branching) sense (s.bound width P).1 := by
  obtain ⟨c, hc, hcompile⟩ := hs.poses.compile_eq hset.regular hP .relaxed width
  have hidles := Solver.Idles.compile s .relaxed width P
  unfold Solver.bound
  rw [hcompile] at hidles ⊢
  have hcompiled := h.idles hidles rfl
  dsimp only
  split
  · rename_i hexact
    exact hcompiled.publish fun v path hv hpath =>
      (hs.completes_best hP hc (.inr hexact) hv hpath).le_total
  · have hpublished := hcompiled.publish fun v path hv hpath =>
      (hs.completes_bestExact hP hc hv hpath).le_total
    split
    · exact hpublished.openCutset P.bound
    · exact hpublished

/-- Exploring a sub-problem. -/
theorem Solver.explore_framed (hset : set.Lawful sense) (hs : Steady set sense start s)
    (hP : set.Admits sense P) (h : Framed ((set.oriented sense).total set.branching) sense s) :
    Framed ((set.oriented sense).total set.branching) sense (s.explore P).1 := by
  unfold Solver.explore
  extract_lets width sense' noted
  have hs₁ : Steady set sense start noted := hs.quiet (Session.quiet_note _)
  have hnoted : Framed ((set.oriented sense).total set.branching) sense noted :=
    h.idles (.note s _) rfl
  obtain ⟨c, hc, hcompile⟩ := hs₁.poses.compile_eq hset.regular hP .restricted width
  have hidles := Solver.Idles.compile noted .restricted width P
  rw [hcompile] at hidles ⊢
  dsimp only
  have hbest : ∀ v path, c.diagram.bestValue = some v → c.diagram.bestSolution = some path →
      (set.oriented sense).Completes set.branching v path :=
    fun v path => hs₁.completes_best hP hc (.inl Kind.noConfusion)
  have hpublished := (hnoted.idles hidles rfl).publish fun v path hv hpath =>
    (hbest v path hv hpath).le_total
  split
  · exact hpublished
  · have hs₂ := (hs₁.compiled hP hc).published (publish_published _ _ _) hbest
    exact bound_framed hset hs₂ hP hpublished width

/-- **A visit keeps the frame.** -/
theorem Solver.visit_framed (hset : set.Lawful sense) (hs : Steady set sense start s)
    (hP : set.Admits sense P) (h : Framed ((set.oriented sense).total set.branching) sense s) :
    Framed ((set.oriented sense).total set.branching) sense (s.visit P).1 := by
  unfold Solver.visit
  split
  · rename_i hcached
    rw [hs.settings] at hcached
    split
    · have hidles : s.Idles { s with
          session := s.session.remember P.state P.depth ⟨P.value, true⟩ } :=
        ⟨rfl, rfl, rfl, rfl, Session.silent_remember _ _ _, fun _ hn => hn⟩
      exact explore_framed hset (hs.remember hcached P) hP (h.idles hidles rfl)
    · exact h.idles (.note s _) rfl
  · exact explore_framed hset hs hP h

end Visit

/-! ### Searching -/

section Search

variable [BEq σ] [LawfulBEq σ] [Hashable σ] [BEq κ] {set : Settings σ κ Extended} {sense : Sense}
  {start s : Solver σ κ Extended}

/-- What holds of a search before each of its moves: it is steady, it frames the optimum,
and while its incumbent falls short the optimum is secured. -/
structure Underway (set : Settings σ κ Extended) (sense : Sense)
    (start s : Solver σ κ Extended) : Prop where
  steady : Steady set sense start s
  framed : Framed ((set.oriented sense).total set.branching) sense s
  secured : ∀ safe, set.Quest sense safe →
    s.standing.lower < (set.oriented sense).total set.branching →
      set.Secured sense safe s.queue.entries s.session.cache

omit [BEq σ] [LawfulBEq σ] [Hashable σ] [BEq κ] in
/-- A value below the optimum leaves something to look for. -/
theorem Settings.exists_quest {v : Extended}
    (h : v < (set.oriented sense).total set.branching) : ∃ safe, set.Quest sense safe :=
  ⟨_, Problem.thread_all (ne_of_gt ((negInf_le v).trans_lt h)) le_rfl, fun _ _ _ _ h => h⟩

omit [LawfulBEq σ] [Hashable σ] in
/-- While the incumbent falls short, an open sub-problem leaves room for the optimum. -/
theorem Underway.exists_open (h : Underway set sense start s)
    (hlt : s.standing.lower < (set.oriented sense).total set.branching) :
    ∃ N ∈ s.queue.entries, (set.oriented sense).total set.branching ≤ N.bound := by
  obtain ⟨safe, hq⟩ := Settings.exists_quest hlt
  obtain ⟨N, hN, _, hbound, _⟩ := (h.secured safe hq hlt).carried
  exact ⟨N, hN, hbound⟩

variable {s₀ : Solver σ κ Extended}

/-- **A search is underway until it ends**, and it ends with the optimum unless it is told
to stop. -/
theorem Solver.search_framed (hset : s₀.settings.Lawful sense)
    (hdom : s₀.settings.dominance = none) (cutoff : Cutoff Extended) (rounds : Nat)
    (h : Underway s₀.settings sense (s₀.openRoot sense) s) :
    Steady s₀.settings sense (s₀.openRoot sense) (search cutoff rounds s).1 ∧
    Framed ((s₀.settings.oriented sense).total s₀.settings.branching) sense
      (search cutoff rounds s).1 ∧
    ∀ ending, (search cutoff rounds s).2 = some ending → ending = .stopped ∨
      ending = .exhausted ∧ (s₀.settings.oriented sense).total s₀.settings.branching ≤
        (search cutoff rounds s).1.standing.lower := by
  induction rounds generalizing s with
  | zero => exact ⟨h.steady, h.framed, nofun⟩
  | succ rounds ih =>
    have hframed := h.framed.nextMove h.steady.sorted h.exists_open cutoff
    rw [search]
    rcases h.steady.nextMove cutoff with ⟨s', hmove, hs', hlower, _, hbeaten⟩ |
      ⟨s', hmove, hs', _⟩ | ⟨s₁, P, hmove, hs₁, hqueue, hlower, _, hcache⟩
    · rw [hmove] at hframed ⊢
      refine ⟨hs', hframed, fun ending hending => .inr ⟨(Option.some.inj hending).symm, ?_⟩⟩
      refine le_of_not_gt fun hlt => ?_
      rw [hlower] at hlt
      obtain ⟨N, hN, hbound⟩ := h.exists_open hlt
      exact absurd (hbound.trans (hbeaten N hN)) (not_le.2 hlt)
    · rw [hmove] at hframed ⊢
      exact ⟨hs', hframed, fun ending hending => .inl (Option.some.inj hending).symm⟩
    · rw [hmove] at hframed ⊢
      have hP : s₀.settings.Admits sense P := h.steady.admitted P (hqueue ▸ List.mem_cons_self)
      obtain ⟨hfault, hv⟩ := Solver.visit_visits hset hs₁ hP
      have hvisit : s₁.visit P = ((s₁.visit P).1, none) := Prod.ext rfl hfault
      dsimp only
      rw [hvisit]
      refine ih ⟨hv.steady, Solver.visit_framed hset hs₁ hP hframed, fun safe hq hlt => ?_⟩
      have hsecured := h.secured safe hq (hlower ▸ hv.lower.trans_lt hlt)
      rw [hqueue] at hsecured
      exact hv.secures safe hq (hv.steady.clean_of_undominated hdom safe _) hlt
        (hsecured.le_bound (hqueue ▸ h.steady.sorted))
        ⟨hsecured.carried, fun state k t ht => hsecured.backed state k t (hcache state k t ht)⟩

omit [LawfulBEq σ] [Hashable σ] in
/-- Opening the root starts a search. -/
theorem Solver.openRoot_underway (h : Steady s.settings sense (s.openRoot sense)
    (s.openRoot sense)) : Underway s.settings sense (s.openRoot sense) (s.openRoot sense) := by
  obtain ⟨_, hupper, _⟩ := s.standing_openRoot sense
  refine ⟨h, ⟨h.facing, ⟨h.lower_le fun _ _ hv => hv.le_total, ?_⟩, fun path st hmem => ?_⟩,
    fun safe hq _ => s.openRoot_secured hq⟩
  · rw [hupper]
    exact (le_posInf _).trans (le_max_left _ _)
  · change _ ∈ [Event.pushed (s.root sense), .queueCleared, .tableCleared, .notice _] at hmem
    simp at hmem

/-- **A search frames the optimum, whenever it is stopped.**  It ends without a fault; with
every solution that it reports, and with its last word, it shows an incumbent that is not
better and a bound that is not worse than the optimum.  One that is told to stop claims
neither that its incumbent is the optimum nor that there is no solution, and one that is
not claims what is right. -/
theorem Solver.solve_frames (s : Solver σ κ Extended) (sense : Sense) (cutoff : Cutoff Extended)
    (hset : s.settings.Lawful sense) (hdom : s.settings.dominance = none)
    (hprimal : ∀ value path, s.primal = some (value, path) → ∃ path',
      (s.settings.oriented sense).Completes s.settings.branching (sense.orient value) path') :
    ∃ s' stats ending enough,
      (∀ rounds, enough ≤ rounds → (search cutoff rounds (s.openRoot sense)).2 = some ending ∧
        s.solve rounds sense cutoff = (s', some (.ok stats))) ∧
      stats.Frames sense (s.settings.optimum sense) ∧
      (∀ path st, .incumbent path st ∈ s'.session.events →
        st.Frames sense (s.settings.optimum sense)) ∧
      ((ending = .stopped ∧ (stats.status = .sat ∨ stats.status = .unknown)) ∨
        (ending = .exhausted ∧
          ((stats.status = .optimal ∧ stats.incumbent = some (s.settings.optimum sense)) ∨
            (stats.status = .infeasible ∧
              (s.settings.oriented sense).total s.settings.branching = negInf)))) := by
  obtain ⟨s₁, ending, enough, hsearch⟩ :=
    Solver.search_terminates cutoff (s.openRoot sense) hset.focused (s.openRoot_level sense)
  have hrun := Solver.search_framed hset hdom cutoff enough
    (s.openRoot_underway (s.openRoot_steady hprimal))
  rw [hsearch enough le_rfl] at hrun
  obtain ⟨hsteady, hframed, hends⟩ := hrun
  have hsolve : ∀ rounds, enough ≤ rounds → (search cutoff rounds (s.openRoot sense)).2 =
      some ending ∧ s.solve rounds sense cutoff =
        ((s₁.finish sense ending).1, some (s₁.finish sense ending).2) := by
    intro rounds hrounds
    unfold Solver.solve
    rw [hsearch rounds hrounds]
    exact ⟨rfl, rfl⟩
  -- The last word is that of the standing, and nothing more is reported.
  have hlast : ∀ exhausted, (exhausted = true →
      (s.settings.oriented sense).total s.settings.branching ≤ s₁.standing.lower) →
      (s₁.conclude exhausted).statistics.Frames sense (s.settings.optimum sense) := by
    intro exhausted hbest
    have hframes := (hframed.standing.conclude hbest).statistics s₁.settings.clock
    rwa [show (s₁.standing.conclude exhausted).sense = sense from hframed.facing] at hframes
  have htold : ∀ exhausted, ((s₁.conclude exhausted).note
      (.searchOver (s₁.conclude exhausted).statistics)).session.Told
        (·.Frames sense (s.settings.optimum sense)) :=
    fun exhausted => hframed.told.silent (Session.silent_note _)
  rcases hends ending rfl with rfl | ⟨rfl, hbest⟩
  · exact ⟨_, (s₁.conclude false).statistics, _, enough, hsolve, hlast false nofun, htold false,
      .inl ⟨rfl, s₁.standing.status_conclude_false _⟩⟩
  · exact ⟨_, (s₁.conclude true).statistics, _, enough, hsolve, hlast true fun _ => hbest,
      htold true, .inr ⟨rfl, (hsteady.toGenuine.conclude_exhausted hbest _).imp_left
        fun ⟨hstatus, hincumbent, _⟩ => ⟨hstatus, hincumbent⟩⟩⟩

end Search

/-- Picking nought and then one is a solution of value one. -/
theorem twoPicks_completes : (twoPicks.orient .maximize).Completes .least (finite 1)
    [⟨1, 1⟩, ⟨0, 0⟩] := by
  have hfirst : (twoPicks.orient .maximize).Leads .least (.all 2) 0 0 [⟨0, 0⟩] _ _ _ :=
    .step (x := ⟨0, by decide⟩) .refl rfl List.mem_cons_self
  have hboth : (twoPicks.orient .maximize).Leads .least (.all 2) 0 0 [⟨1, 1⟩, ⟨0, 0⟩] _ _ _ :=
    .step (x := ⟨1, by decide⟩) hfirst rfl (List.mem_cons_of_mem _ List.mem_cons_self)
  have hvalue : (0 : Extended) + (twoPicks.orient .maximize).cost 0 ⟨0, 0⟩ +
      (twoPicks.orient .maximize).cost ((twoPicks.orient .maximize).transition 0 0 ⟨0, 0⟩) ⟨1, 1⟩ =
        finite 1 := by
    decide +kernel
  rw [hvalue] at hboth
  exact ⟨_, _, _, .refl _, hboth, by decide +kernel⟩

/-- From a value of one that is known without its decisions, in at most one iteration. -/
theorem Solver.solve_frames_twoPicks :
    let s := (Solver.ofSettings (twoPicksSettings true none)).startFrom (finite 1) []
    ∃ s' stats enough,
      (∀ rounds, enough ≤ rounds →
        s.solve rounds .maximize (Cutoff.afterIterations 1) = (s', some (.ok stats))) ∧
      stats.Frames .maximize (finite 2) ∧
      (∀ path st, .incumbent path st ∈ s'.session.events → st.Frames .maximize (finite 2)) := by
  intro s
  obtain ⟨s', stats, ending, enough, hsolve, hframes, htold, _⟩ := s.solve_frames .maximize
    (Cutoff.afterIterations 1) (twoPicks_lawful _ _ _) rfl fun value path hsome => by
      obtain ⟨rfl, rfl⟩ := Prod.mk.inj (Option.some.inj hsome)
      exact ⟨_, twoPicks_completes⟩
  have hoptimum : s.settings.optimum .maximize = finite 2 := total_twoPicks_maximize
  rw [hoptimum] at hframes htold
  exact ⟨s', stats, enough, fun rounds hrounds => (hsolve rounds hrounds).2, hframes, htold⟩

end DiagramSearch
