/-
# No false alarms

A model that bears its checks is never found at fault.  Bounds are compared with what the
diagrams of a sub-problem reach, whatever was pruned from them, and merges with what
compilations on the side tell of the merged node and of its parts; a sub-problem is reached
by trails of the problem, so that none of this exceeds the optimum.  This does not depend on
what the dominance relation is worth, nor on the order of the queue, the incumbent to start
from or the cutoff.

* `Unblamed`: a solver whose open sub-problems are reached by trails;
* `Solver.visit_unblamed`: **a visit meets no fault**, and opens such sub-problems only;
* `Solver.search_unblamed`: so a search does not end with a fault;
* `Solver.run_unblamed`: **no run does**: each comes to an answer.
-/

import DiagramSearch.Proofs.Moves
import DiagramSearch.Proofs.Optimality
import DiagramSearch.Search.OneDiagram

namespace DiagramSearch

open Extended

variable {σ κ : Type} [BEq σ] [BEq κ] {set : Settings σ κ Extended} {sense : Sense}
  {s s' : Solver σ κ Extended} {P : Subproblem σ Extended} {cutoff : Cutoff Extended}

omit [BEq σ] [BEq κ] in
theorem Solver.admits_root (s : Solver σ κ Extended) (sense : Sense) :
    s.settings.Admits sense (s.root sense) :=
  ⟨⟨[], .refl _, rfl, .refl⟩, fun _ => rfl⟩

/-- A solver in the course of a search, all of whose open sub-problems may be open. -/
structure Unblamed (set : Settings σ κ Extended) (sense : Sense) (s : Solver σ κ Extended) :
    Prop extends s.Poses set sense where
  admitted : ∀ N ∈ s.queue.entries, set.Admits sense N

namespace Unblamed

omit [BEq σ] [BEq κ] in
theorem published {value : Option Extended} {solution : Option Path} (hs : Unblamed set sense s)
    (h : Published s value solution s') : Unblamed set sense s' :=
  ⟨⟨h.settings.trans hs.settings, h.sense.trans hs.facing⟩, h.queue ▸ hs.admitted⟩

omit [BEq σ] [BEq κ] in
theorem opened (hs : Unblamed set sense s) {bound : Extended}
    {subs : List (Subproblem σ Extended)} (h : Opened bound subs s s')
    (hsubs : ∀ z ∈ subs, set.Admits sense { z with bound := min bound z.bound }) :
    Unblamed set sense s' :=
  ⟨⟨h.settings.trans hs.settings, h.sense.trans hs.facing⟩,
    h.forall_entries hs.admitted hsubs⟩

omit [BEq σ] [BEq κ] in
/-- What is told to a session and what is drawn is nothing to the open sub-problems. -/
theorem told (hs : Unblamed set sense s) (session : Session σ κ Extended)
    (diagram : Diagram σ Extended) : Unblamed set sense { s with session, diagram } :=
  ⟨⟨hs.settings, hs.facing⟩, hs.admitted⟩

omit [BEq σ] [BEq κ] in
/-- The root may be open. -/
theorem openRoot (s : Solver σ κ Extended) (sense : Sense) :
    Unblamed s.settings sense (s.openRoot sense) := by
  refine ⟨⟨rfl, (s.standing_openRoot sense).1⟩, fun N hN => ?_⟩
  obtain rfl := List.mem_singleton.1 hN
  exact s.admits_root sense

omit [BEq σ] [BEq κ] in
/-- What is taken up was open. -/
theorem nextMove (hs : Unblamed set sense s) (cutoff : Cutoff Extended) :
    Unblamed set sense (s.nextMove cutoff).1 ∧
      ∀ P, (s.nextMove cutoff).2 = .explore P → set.Admits sense P := by
  rcases s.nextMove_cases cutoff with ⟨_, heq⟩ | ⟨P, rest, hqueue, hcases⟩
  · rw [heq, Solver.retireLayers_eq_forget]
    exact ⟨⟨⟨hs.settings, hs.facing⟩, hs.admitted⟩, nofun⟩
  · have hrest : ∀ N ∈ rest, set.Admits sense N := fun N hN =>
      hs.admitted N (hqueue ▸ List.mem_cons_of_mem P hN)
    rcases hcases with ⟨_, heq⟩ | ⟨_, heq⟩ | ⟨_, heq⟩
    · rw [heq, Solver.retireLayers_eq_forget]
      exact ⟨⟨⟨hs.settings, hs.facing⟩, hs.admitted⟩, nofun⟩
    · rw [heq, Solver.retireLayers_eq_forget]
      exact ⟨⟨⟨hs.settings, hs.facing⟩, nofun⟩, nofun⟩
    · rw [heq, Solver.retireLayers_eq_forget]
      refine ⟨⟨⟨hs.settings, hs.facing⟩, hrest⟩, fun Q hQ => ?_⟩
      obtain rfl := Move.explore.inj hQ
      exact hs.admitted P (hqueue ▸ List.mem_cons_self)

end Unblamed

variable [LawfulBEq σ] [Hashable σ]

/-- Bounding a sub-problem. -/
theorem Solver.bound_unblamed (hset : set.Regular sense) (hs : Unblamed set sense s)
    (hP : set.Admits sense P) (width : Nat) :
    (s.bound width P).2 = none ∧ Unblamed set sense (s.bound width P).1 := by
  obtain ⟨c, hc, hcompile⟩ := hs.compile_eq hset hP .relaxed width
  have hs₁ := hs.told c.session c.diagram
  obtain ⟨hfault, hcurbed⟩ := bound_curbed hcompile
  refine ⟨hfault, ?_⟩
  cases hcurbed with
  | settled hexact hpub => exact hs₁.published hpub
  | passed hpub hopen hsubs hall =>
    exact (hs₁.published hpub).opened hopen fun z hz =>
      (hs.admits_handOut hset hP hc (hsubs z hz) _).1

/-- Exploring a sub-problem. -/
theorem Solver.explore_unblamed (hset : set.Regular sense) (hs : Unblamed set sense s)
    (hP : set.Admits sense P) :
    (s.explore P).2 = none ∧ Unblamed set sense (s.explore P).1 := by
  unfold Solver.explore
  extract_lets width sense' noted
  have hnoted : Unblamed set sense noted := hs.told _ _
  obtain ⟨c, hc, hcompile⟩ := hnoted.compile_eq hset hP .restricted width
  rw [hcompile]
  dsimp only
  have hpublished := (hnoted.told c.session c.diagram).published
    (publish_published _ c.diagram.bestValue c.diagram.bestSolution)
  split
  · exact ⟨rfl, hpublished⟩
  · exact bound_unblamed hset hpublished hP width

/-- **A visit meets no fault.** -/
theorem Solver.visit_unblamed (hset : set.Regular sense) (hs : Unblamed set sense s)
    (hP : set.Admits sense P) : (s.visit P).2 = none ∧ Unblamed set sense (s.visit P).1 := by
  unfold Solver.visit
  split
  · split
    · exact explore_unblamed hset (hs.told _ _) hP
    · exact ⟨rfl, hs.told _ _⟩
  · exact explore_unblamed hset hs hP

/-- **A search does not end with a fault.** -/
theorem Solver.search_unblamed (hset : set.Regular sense) (hs : Unblamed set sense s)
    (cutoff : Cutoff Extended) (rounds : Nat) (fault : Fault σ Extended) :
    (search cutoff rounds s).2 ≠ some (.faulty fault) := by
  induction rounds generalizing s with
  | zero => exact (Option.some_ne_none _).symm
  | succ rounds ih =>
    obtain ⟨hmoved, hadmits⟩ := hs.nextMove cutoff
    unfold search
    generalize s.nextMove cutoff = moved at hmoved hadmits
    obtain ⟨s₁, move⟩ := moved
    cases move with
    | exhausted | stopped =>
      intro hending
      cases hending
    | explore P =>
      obtain ⟨hfault, hvisited⟩ := visit_unblamed hset hmoved (hadmits P rfl)
      dsimp only
      generalize s₁.visit P = visited at hfault hvisited
      obtain ⟨s₂, found⟩ := visited
      obtain rfl : found = none := hfault
      exact ih hvisited

omit [BEq σ] [BEq κ] [LawfulBEq σ] [Hashable σ] in
theorem Solver.finish_answers (s : Solver σ κ Extended) (sense : Sense)
    {ending : Ending σ Extended} (h : ∀ fault, ending ≠ .faulty fault) :
    ∃ stats, (s.finish sense ending).2 = .ok stats := by
  cases ending with
  | faulty fault => exact absurd rfl (h fault)
  | exhausted => exact ⟨_, rfl⟩
  | stopped => exact ⟨_, rfl⟩

/-- **Nor does the compilation of a single diagram.** -/
theorem Solver.solveOnce_unblamed (s : Solver σ κ Extended) (sense : Sense)
    (hset : s.settings.Regular sense) (cutoff : Cutoff Extended) (kind : Kind) :
    ∃ stats, (s.solveOnce kind sense cutoff).2 = .ok stats := by
  have himprove : ∀ {t : Solver σ κ Extended} value solution, t.Poses s.settings sense →
      (t.improve value solution).Poses s.settings sense := by
    intro t value solution ht
    unfold improve
    split
    · split
      · exact ⟨ht.settings, ht.facing⟩
      · exact ht
    · exact ht
  unfold solveOnce
  extract_lets renewed adopted halted standing session ready root
  split
  · exact ⟨_, rfl⟩
  · have hrenewed : renewed.Poses s.settings sense := ⟨rfl, rfl⟩
    have hadopted : adopted.Poses s.settings sense := by
      unfold adopted
      split
      · exact himprove _ _ hrenewed
      · exact hrenewed
    have hready : ready.Poses s.settings sense := ⟨hadopted.settings, hadopted.facing⟩
    have hroot : s.settings.Admits sense root := by
      rw [← hready.settings]
      exact ready.admits_root sense
    obtain ⟨c, _, hcompile⟩ := hready.compile_eq hset hroot kind (ready.settings.width root)
    rw [hcompile]
    exact ⟨_, rfl⟩

/-- **No run of a regular model ends with a fault.**  A search comes to an answer, sooner or
later, and so does the compilation of a single diagram of any kind. -/
theorem Solver.run_unblamed (s : Solver σ κ Extended) (sense : Sense)
    (hset : s.settings.Regular sense) (cutoff : Cutoff Extended) :
    (∀ rounds fault, (s.solve rounds sense cutoff).2 ≠ some (.error fault)) ∧
    (∃ s' stats enough, ∀ rounds, enough ≤ rounds →
      s.solve rounds sense cutoff = (s', some (.ok stats))) ∧
    ∀ kind, ∃ stats, (s.solveOnce kind sense cutoff).2 = .ok stats := by
  have hsearch := Solver.search_unblamed hset (.openRoot s sense) cutoff
  refine ⟨fun rounds fault => ?_, ?_, s.solveOnce_unblamed sense hset cutoff⟩
  · have hfault := hsearch rounds
    unfold solve
    generalize search cutoff rounds (s.openRoot sense) = searched at hfault
    obtain ⟨s', ending⟩ := searched
    cases ending with
    | none => exact nofun
    | some ending =>
      obtain ⟨stats, hanswer⟩ := s'.finish_answers sense fun fault heq =>
        hfault fault (congrArg some heq)
      dsimp only
      rw [hanswer]
      exact nofun
  · obtain ⟨s', ending, enough, hends⟩ := Solver.search_terminates cutoff (s.openRoot sense)
      hset.focused (s.openRoot_level sense)
    have hfault := hsearch enough
    rw [hends enough le_rfl] at hfault
    obtain ⟨stats, hanswer⟩ := s'.finish_answers sense fun fault heq =>
      hfault fault (congrArg some heq)
    refine ⟨(s'.finish sense ending).1, stats, enough, fun rounds hrounds => ?_⟩
    unfold solve
    rw [hends rounds hrounds, ← hanswer]

/-- Two picks of nought, one or two.  The first is worth itself, and the second is worth the
more the less was picked first. -/
def patientPicks : Problem Nat Extended where
  «variables» := 2
  initialState := 3
  initialValue := 0
  transition _ _ d := d.value.toNat
  cost s d := finite ([5, 1, 0, 1].getD s 0 * d.value)
  domain v _ := [⟨v, 0⟩, ⟨v, 1⟩, ⟨v, 2⟩]

/-- Having picked one is taken to be as good as having picked nought, which is wrong. -/
def oneForNought : Dominance Nat Unit where
  key _ := some ()
  le a b := a == 0 && b == 1

/-- All that is in excess is taken for a pick of nought. -/
def patientSettings : Settings Nat Unit Extended :=
  { twoPicksSettings true (some oneForNought) with
    model :=
      { problem := patientPicks
        relaxation :=
          { merge := fun _ => 0
            relax := fun _ _ _ _ c => c
            upperBound := fun _ _ => posInf
            lowerBound := fun _ _ => negInf } } }

/-- No state is better than that after a pick of nought. -/
theorem patientPicks_optimum_le (free : Variables) (s : Nat) :
    (patientPicks.orient .maximize).optimum .least free s ≤
      (patientPicks.orient .maximize).optimum .least free 0 := by
  have hcost : ∀ v, ∀ d ∈ patientPicks.domain v s,
      patientPicks.cost s d ≤ patientPicks.cost 0 d := by
    intro v d hd
    have hweight : ([5, 1, 0, 1] : List ℚ).getD s 0 ≤ 5 := by
      rcases s with _ | _ | _ | _ | s <;> norm_num
    have hvalue : (0 : ℚ) ≤ d.value := by
      simp only [patientPicks, List.mem_cons, List.not_mem_nil, or_false] at hd
      rcases hd with rfl | rfl | rfl <;> norm_num
    exact finite_le_finite.2 (mul_le_mul_of_nonneg_right hweight hvalue)
  cases hpick : Branching.least free [] with
  | none => rw [Problem.optimum_of_none hpick, Problem.optimum_of_none hpick]
  | some v =>
    by_cases hreach : (patientPicks.orient .maximize).optimum .least free s = negInf
    · rw [hreach]
      exact negInf_le _
    · -- What was picked before is nothing to what is picked later.
      obtain ⟨d, hd, heq⟩ := Problem.exists_optimum_eq hpick hreach
      rw [← heq]
      exact (add_le_add (hcost v d hd) le_rfl).trans (Problem.le_optimum hpick hd)

theorem patientSettings_regular : patientSettings.Regular .maximize where
  isPure _ _ _ _ := rfl
  focused v s d hd := by
    simp only [patientSettings, patientPicks, List.mem_cons, List.not_mem_nil, or_false] at hd
    rcases hd with rfl | rfl | rfl <;> rfl
  finite_cost _ _ := rfl
  static _ _ _ := rfl
  sound := ⟨fun _ _ => le_posInf _, fun _ free _ _ _ _ _ =>
    add_le_add le_rfl (patientPicks_optimum_le free _)⟩

/-- Checked as closely as can be, the search misses the optimum of ten, but finds no fault. -/
theorem Solver.run_unblamed_patient :
    let s := Solver.ofSettings patientSettings
    let after := (s.solve 20 .maximize Cutoff.never).1
    s.settings.checks = .extended ∧ after.statistics.incumbent = some (finite 3) ∧
      (s.settings.oriented .maximize).total .least = finite 10 ∧
      ∀ rounds fault, (s.solve rounds .maximize Cutoff.never).2 ≠ some (.error fault) := by
  intro s after
  refine ⟨rfl, by decide +kernel, by decide +kernel, ?_⟩
  exact (s.run_unblamed .maximize patientSettings_regular Cutoff.never).1

end DiagramSearch
