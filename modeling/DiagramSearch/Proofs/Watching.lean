/-
# Watching changes nothing

A model may be watched: its transitions are applied twice, the bounds of all diagrams are
compared with what was found, and with extended checks every merge is compared with what it
stands for, by compilations on the side.  A search that is watched and comes to an answer
would have come to it unwatched, by the same steps.

* `Solver.unwatched`: the same solver without checks;
* `Solver.Follows`: two searches that differ in nothing but their notices;
* `Solver.solve_unwatched`: **a watched search that meets no fault goes as if it were not
  watched.**
-/

import DiagramSearch.Proofs.Optimality
import DiagramSearch.Proofs.Matching

namespace DiagramSearch

variable {σ κ V : Type}

/-- The calls by which solutions were handed out, in order, all but for the time. -/
def Session.handed (s : Session σ κ V) : List (Path × Statistics V) :=
  s.journal.filterMap fun
    | .incumbent path stats => some (path, stats.untimed)
    | _ => none

namespace Solver

/-- The same solver without checks, by another clock. -/
def unwatched (s : Solver σ κ V) (clock : Nat → Nat) : Solver σ κ V :=
  { s with settings := { s.settings with checks := .off, clock } }

/-- Two searches that did the same, and know the same. -/
structure Follows (s t : Solver σ κ V) : Prop where
  standing : t.standing = s.standing
  handed : t.session.handed = s.session.handed
  popped : t.session.popped = s.session.popped
  /-- All that happened but the notices, all but for the time. -/
  journal : t.session.journal.filterMap (Event.seen true) =
    s.session.journal.filterMap (Event.seen true)
  cache : t.session.cache = s.session.cache
  table : t.session.table = s.session.table

variable [Value V] {sense : Sense} {cutoff : Cutoff V} {s t : Solver σ κ V}

theorem Beside.follows (h : Beside (.unison sense cutoff true) s t) : s.Follows t where
  standing := h.toAttuned.unison
  handed := by
    refine (h.observe (fun _ => rfl) (fun e => ?_) fun e => ?_).symm
    · cases e <;> rfl
    · rw [show (Duet.unison sense cutoff true).through = .maximize from rfl, e.orient_maximize]
  popped := h.popped_eq.symm
  journal := by
    refine (h.observe (fun _ => rfl) (fun e => ?_) fun e => ?_).symm
    · cases e <;> rfl
    · exact congrArg (Event.seen true) e.orient_maximize
  cache := h.cache.symm
  table := h.session.table.symm

variable [BEq σ] [Hashable σ] [BEq κ]

/-- **Watching changes nothing.**  If a search comes to an answer while its model is watched,
with whatever checks, then it comes to the same one unwatched: it takes the same
sub-problems, hands out the same solutions, and leaves the same thresholds and the same
dominance entries behind. -/
theorem solve_unwatched (s : Solver σ κ V) (hpure : s.settings.model.problem.Pure)
    (clock : Nat → Nat) (rounds : Nat) (sense : Sense) {cutoff : Cutoff V}
    (hcutoff : cutoff.Timeless) {stats : Statistics V}
    (hok : (s.solve rounds sense cutoff).2 = some (.ok stats)) :
    ∃ stats', ((s.unwatched clock).solve rounds sense cutoff).2 = some (.ok stats') ∧
      stats'.untimed = stats.untimed ∧
      (s.solve rounds sense cutoff).1.Follows
        ((s.unwatched clock).solve rounds sense cutoff).1 := by
  have hmatched : Matched (.unison sense cutoff true) s (s.unwatched clock) :=
    ⟨s.settings.matches_unison hpure hcutoff clock (.inr ⟨rfl, rfl⟩), rfl, nofun⟩
  rcases hmatched.solve_unison rounds with ⟨_, fault, hfault⟩ | ⟨hbeside, houtcome⟩
  · cases hok.symm.trans hfault
  · rw [hok] at houtcome
    obtain ⟨outcome, hlast, hsame⟩ := Option.map_eq_some_iff.1 houtcome.symm
    cases outcome with
    | error fault => cases hsame
    | ok stats' => exact ⟨stats', hlast, Except.ok.inj hsame, hbeside.follows⟩

open Extended

/-- Watched, twice as many transitions are applied, and merges are compiled on the side. -/
theorem solve_unwatched_twoPicks :
    let s := ofSettings (twoPicksSettings true (some moreOnes))
    let watched := s.solve 20 .minimize (Cutoff.afterIterations 9)
    let free := (s.unwatched id).solve 20 .minimize (Cutoff.afterIterations 9)
    watched.1.session.applications = 2 * free.1.session.applications ∧
      free.1.session.journal.length < watched.1.session.journal.length ∧
      watched.1.Follows free.1 := by
  intro s watched free
  have hwatched : watched.2.map Except.toBool = some true := by decide +kernel
  obtain ⟨outcome, hlast, hok⟩ := Option.map_eq_some_iff.1 hwatched
  cases outcome with
  | error fault => cases hok
  | ok stats =>
    have hcutoff : (Cutoff.afterIterations 9 : Cutoff Extended).Timeless := fun _ _ => rfl
    obtain ⟨_, _, _, hfollows⟩ := s.solve_unwatched (fun _ _ _ _ => rfl) id 20 .minimize hcutoff
      hlast
    exact ⟨by decide +kernel, by decide +kernel, hfollows⟩

end Solver
end DiagramSearch
