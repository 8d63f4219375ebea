/-
# How a search advances

What a solver does between two diagrams, each said once, whatever the model and the values:
later modules ask what is kept, and need not ask again what happens.

* `Solver.publish_cases`: a solution is taken over, reported and handed out if it is better
  than all that were known;
* `Solver.retireLayers_eq_forget`: before each move thresholds are forgotten, and nothing
  else changes;
* `Solver.nextMove_cases`: **what the next move may be**.
-/

import DiagramSearch.Search.BranchAndBound

namespace DiagramSearch

namespace Solver

variable {σ κ V : Type}

/-! ### Taking over a solution -/

section Publish

variable [Value V]

/-- A solution that is better is taken over, reported and handed out. -/
theorem publish_of_lt {s : Solver σ κ V} {v : V} (h : s.standing.lower < v) (path : Path) :
    s.publish (some v) (some path) = ({ s with standing := s.standing.adopt v path }.note
      (.improved (s.standing.sense.orient v))).record
        (.incumbent path ((s.standing.adopt v path).statistics s.settings.clock)) := by
  unfold publish improve
  dsimp only
  rw [if_pos h, if_pos h]
  rfl

/-- **A solution is published if there is one and it is better**, and else nothing changes. -/
theorem publish_cases (s : Solver σ κ V) (value : Option V) (solution : Option Path) :
    (s.publish value solution = s ∧
      ∀ v path, value = some v → solution = some path → ¬s.standing.lower < v) ∨
    ∃ v path, value = some v ∧ solution = some path ∧ s.standing.lower < v ∧
      s.publish value solution = ({ s with standing := s.standing.adopt v path }.note
        (.improved (s.standing.sense.orient v))).record
          (.incumbent path ((s.standing.adopt v path).statistics s.settings.clock)) := by
  cases value with
  | none => exact .inl ⟨rfl, nofun⟩
  | some v =>
    cases solution with
    | none => exact .inl ⟨rfl, nofun⟩
    | some path =>
      by_cases hlt : s.standing.lower < v
      · exact .inr ⟨v, path, rfl, rfl, hlt, publish_of_lt hlt path⟩
      · refine .inl ⟨if_neg hlt, fun w q hw _ => ?_⟩
        rwa [← Option.some.inj hw]

end Publish

/-! ### The next move -/

/-- Takes a sub-problem from the queue, and the rest is left. -/
def take (s : Solver σ κ V) (P : Subproblem σ V) (rest : List (Subproblem σ V)) :
    Solver σ κ V :=
  { s with
    queue := ⟨rest⟩
    openAt := s.openAt.modify P.depth (· - 1)
    standing := { s.standing with iterations := s.standing.iterations + 1 }
    session := s.session.record (.popped P) }

/-- Takes up a sub-problem, whose bound is then that of the search. -/
def takeUp (s : Solver σ κ V) (P : Subproblem σ V) (rest : List (Subproblem σ V)) :
    Solver σ κ V :=
  let s := s.take P rest
  { s with standing := { s.standing with upper := P.bound } }

/-- How many more depths lie above all open sub-problems, as far as was counted. -/
def idle (s : Solver σ κ V) : Nat :=
  if s.settings.useCache then
    (((s.openAt.toList.take s.variables).drop s.shallowest).takeWhile (· == 0)).length
  else 0

/-- The thresholds of these depths are forgotten, and nothing else changes. -/
theorem retireLayers_eq_forget (s : Solver σ κ V) : s.retireLayers = { s with
    session := { s.session with
      cache := (List.range' s.shallowest s.idle).foldl Cache.forget s.session.cache }
    shallowest := s.shallowest + s.idle } := by
  unfold retireLayers idle
  split
  · rfl
  · rfl

variable [Value V]

/-- **What the next move may be.**  Nothing is open; or the search is told to stop; or the
first of the open sub-problems is taken, and then it is of no use, nor is any other, or it
is taken up. -/
theorem nextMove_cases (s : Solver σ κ V) (cutoff : Cutoff V) :
    (s.queue.entries = [] ∧ s.nextMove cutoff = (s.retireLayers, .exhausted)) ∨
    ∃ P rest, s.queue.entries = P :: rest ∧
      ((cutoff s.statistics = true ∧ s.nextMove cutoff = (s.retireLayers, .stopped)) ∨
      (P.bound ≤ s.standing.lower ∧
        s.nextMove cutoff = ((s.retireLayers.take P rest).clearQueue, .exhausted)) ∨
      (¬P.bound ≤ s.standing.lower ∧
        s.nextMove cutoff = (s.retireLayers.takeUp P rest, .explore P))) := by
  unfold nextMove Frontier.pop?
  rw [retireLayers_eq_forget]
  dsimp only
  cases s.queue.entries with
  | nil => exact .inl ⟨rfl, rfl⟩
  | cons P rest =>
    refine .inr ⟨P, rest, rfl, ?_⟩
    dsimp only
    split
    · rename_i hcut
      exact .inl ⟨hcut, rfl⟩
    · split
      · rename_i hle
        exact .inr (.inl ⟨hle, rfl⟩)
      · rename_i hle
        exact .inr (.inr ⟨hle, rfl⟩)

/-- A move that takes up a sub-problem takes the first one. -/
theorem takeUp_of_explore {s s₁ : Solver σ κ V} {cutoff : Cutoff V} {P : Subproblem σ V}
    (h : s.nextMove cutoff = (s₁, .explore P)) : ∃ rest, s.queue.entries = P :: rest ∧
      ¬P.bound ≤ s.standing.lower ∧ s₁ = s.retireLayers.takeUp P rest := by
  rcases s.nextMove_cases cutoff with
    ⟨_, heq⟩ | ⟨Q, rest, hqueue, ⟨_, heq⟩ | ⟨_, heq⟩ | ⟨hlt, heq⟩⟩
  · rw [h] at heq
    cases heq
  · rw [h] at heq
    cases heq
  · rw [h] at heq
    cases heq
  · rw [h] at heq
    obtain ⟨rfl, hmove⟩ := Prod.mk.inj heq
    obtain rfl := Move.explore.inj hmove
    exact ⟨rest, hqueue, hlt, rfl⟩

end Solver
end DiagramSearch
