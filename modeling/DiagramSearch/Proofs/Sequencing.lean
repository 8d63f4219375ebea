/-
# Best first, from the first sub-problem to the last

The queue hands out the sub-problem with the greatest bound, and what a visit opens has a
bound that is no greater than that of the sub-problem that is visited.  So what was taken
from the queue and what is open, one after the other, make up a list in decreasing order of
the bounds at all times.  Bounds need not be right for that, and values may be undefined.

* `InOrder`: that list is in order;
* `InOrder.push`: what is opened goes to the second part of it;
* `Solver.upholds_inOrder`, `Solver.solve_best_first`: what follows for whole searches.
-/

import DiagramSearch.Proofs.Moves
import DiagramSearch.Proofs.Queueing

namespace DiagramSearch

variable {σ κ V : Type} [Value V]

/-- What was taken from the queue and what is open are in decreasing order of the bounds. -/
structure InOrder (taken entries : List (Subproblem σ V)) : Prop where
  sorted : (taken ++ entries).Pairwise fun P Q => Q.bound ≤ P.bound
  defined : ∀ N ∈ taken ++ entries, N.bound ≤ N.bound

namespace InOrder

variable {taken entries : List (Subproblem σ V)} {P z : Subproblem σ V}

/-- The sub-problems that were taken are no worse than those that are open. -/
theorem le_taken (h : InOrder taken entries) (hP : P ∈ taken) :
    ∀ N ∈ entries, N.bound ≤ P.bound :=
  fun N hN => (List.pairwise_append.1 h.sorted).2.2 P hP N hN

/-- The last one that was taken is no better than those before it. -/
theorem last_le (h : InOrder (taken ++ [P]) entries) :
    ∀ R ∈ taken ++ [P], P.bound ≤ R.bound := by
  have htaken := List.pairwise_append.1 (List.pairwise_append.1 h.sorted).1
  intro R hR
  rcases List.mem_append.1 hR with hR | hR
  · exact htaken.2.2 R hR P (List.mem_singleton.2 rfl)
  · obtain rfl := List.mem_singleton.1 hR
    exact h.defined R (by simp)

variable [Value.Ranked V]

/-- **What is opened is no better than what was taken**, and put in its place. -/
theorem push {ranking : σ → σ → Ordering} (h : InOrder (taken ++ [P]) entries) :
    InOrder (taken ++ [P]) (Ordered.place (fun a b => Subproblem.byBound ranking a b == .gt)
      { z with bound := min P.bound z.bound } entries) := by
  obtain ⟨htaken, hopen, hacross⟩ := List.pairwise_append.1 h.sorted
  have hle : min P.bound z.bound ≤ P.bound := Value.Ranked.min_le (h.defined P (by simp))
  have hdefined : min P.bound z.bound ≤ min P.bound z.bound := Value.Ranked.defined_of_le hle
  refine ⟨List.pairwise_append.2 ⟨htaken, ?_, fun R hR N hN => ?_⟩, fun N hN => ?_⟩
  · exact place_pairwise hopen (fun N hN => h.defined N (List.mem_append_right _ hN)) hdefined
  · rcases Ordered.mem_place.1 hN with rfl | hN
    · exact Value.Ranked.le_trans hle (h.last_le R hR)
    · exact hacross R hR N hN
  · rcases List.mem_append.1 hN with hN | hN
    · exact h.defined N (List.mem_append_left _ hN)
    · rcases Ordered.mem_place.1 hN with rfl | hN
      · exact hdefined
      · exact h.defined N (List.mem_append_right _ hN)

end InOrder

namespace Solver

variable [Value.Ranked V] [BEq σ] [Hashable σ] [BEq κ] {s : Solver σ κ V}

/-- **The order is kept at each step.**  A move takes the first of the open sub-problems, if
it takes any. -/
theorem upholds_inOrder (horder : ∃ ranking, s.settings.queueOrder = Subproblem.byBound ranking) :
    s.Upholds InOrder where
  take {taken P rest} h := by
    refine ⟨?_, ?_⟩
    · rw [List.append_assoc]
      exact h.sorted
    · rw [List.append_assoc]
      exact h.defined
  clear {taken entries} h := by
    refine ⟨?_, ?_⟩
    · rw [List.append_nil]
      exact (List.pairwise_append.1 h.sorted).1
    · rw [List.append_nil]
      exact fun N hN => h.defined N (List.mem_append_left _ hN)
  push _ h := by
    obtain ⟨ranking, hranking⟩ := horder
    rw [hranking]
    exact h.push

omit [BEq σ] [Hashable σ] [BEq κ] in
theorem openRoot_inOrder (s : Solver σ κ V) (sense : Sense) :
    InOrder (s.openRoot sense).session.popped (s.openRoot sense).queue.entries := by
  refine ⟨List.pairwise_singleton _ _, fun N hN => ?_⟩
  obtain rfl := List.mem_singleton.1 hN
  exact Value.Ranked.posInf_defined

/-- **Best first, from the first sub-problem to the last.**  The bounds of the sub-problems
that are taken from the queue never increase; at all times no open sub-problem has a greater
bound than the last one that was taken; and if a search ends since the bound of a sub-problem
does not beat the incumbent, then neither does that of any other that is open. -/
theorem solve_best_first (s : Solver σ κ V) (sense : Sense) (cutoff : Cutoff V)
    (horder : ∃ ranking, s.settings.queueOrder = Subproblem.byBound ranking) :
    (∀ rounds, (s.solve rounds sense cutoff).1.session.popped.Pairwise
      fun P Q => Q.bound ≤ P.bound) ∧
    (∀ t P, (s.openRoot sense).Moment cutoff t → t.session.popped.getLast? = some P →
      ∀ N ∈ t.queue.entries, N.bound ≤ P.bound) ∧
    ∀ s₁ s₂, (s.openRoot sense).Course cutoff s₁ → s₁.nextMove cutoff = (s₂, .exhausted) →
      ∀ N ∈ s₁.queue.entries, N.bound ≤ s₁.standing.lower := by
  have hroot := s.openRoot_inOrder sense
  have hkept : (s.openRoot sense).Upholds InOrder := upholds_inOrder horder
  refine ⟨fun rounds => ?_, fun t P ht hP => ?_, fun s₁ s₂ hcourse hmove N hN => ?_⟩
  · obtain ⟨t, ht, hpopped⟩ := s.exists_moment_popped rounds sense cutoff
    rw [hpopped]
    exact (List.pairwise_append.1 (hkept.moment hroot ht).sorted).1
  · exact (hkept.moment hroot ht).le_taken (List.mem_of_getLast? hP)
  · have hsorted := (List.pairwise_append.1 (hkept.course hroot hcourse).sorted).2.1
    rcases s₁.nextMove_cases cutoff with ⟨hempty, _⟩ |
      ⟨P, rest, hqueue, ⟨_, heq⟩ | ⟨hle, _⟩ | ⟨_, heq⟩⟩
    · rw [hempty] at hN
      exact absurd hN List.not_mem_nil
    · rw [hmove] at heq
      cases heq
    · rw [hqueue] at hN hsorted
      rcases List.mem_cons.1 hN with rfl | hN
      · exact hle
      · exact Value.Ranked.le_trans ((List.pairwise_cons.1 hsorted).1 N hN) hle
    · rw [hmove] at heq
      cases heq

end Solver

open Extended in
/-- Bounds that are wrong throughout, taken in order. -/
theorem Solver.solve_best_first_restless :
    let s := Solver.ofSettings restlessSettings
    let popped := (s.solve 20 .maximize Cutoff.never).1.session.popped
    popped.map (·.bound) = [posInf, finite 4, finite 3] ∧
      popped.Pairwise (fun P Q => Q.bound ≤ P.bound) ∧
      ∀ t P, (s.openRoot .maximize).Moment Cutoff.never t → t.session.popped.getLast? = some P →
        ∀ N ∈ t.queue.entries, N.bound ≤ P.bound := by
  intro s popped
  obtain ⟨hpopped, hopen, _⟩ := s.solve_best_first .maximize Cutoff.never ⟨compare, rfl⟩
  exact ⟨by decide +kernel, hpopped 20, hopen⟩

end DiagramSearch
