/-
# From the root to the answer

A search opens the root, goes on until nothing is left to explore, and reports
what it found.  `Problem.Solves` and `Settings.Answers` say what a right answer is
in the user's terms: decisions on all variables, each possible when it is taken,
that add up to the value reported, which is the optimum.

* `Solver.openRoot_orderly`, `Solver.openRoot_secured`: the root is all there is to
  explore;
* `Standing.Genuine.concludes`: whatever was lost on the way, what is reported is a
  solution of the value reported;
* `Solver.solve_ends`, `Ends.answers`: **a search ends, and one that loses nothing
  on the way answers right.**
-/

import DiagramSearch.Proofs.Searching

namespace DiagramSearch

open Extended

variable {σ κ : Type}

/-! ### Right answers -/

/-- Decisions that solve a problem: put in order they are possible one after the
other, they give a value to each variable once, and they add up to a value. -/
def Problem.Solves (p : Problem σ Extended) (path : Path) (value : Extended) : Prop :=
  ∃ ds s, ds.Perm path ∧ (ds.map (·.var)).Perm (List.range p.variables) ∧
    p.replay ds p.initialState p.initialValue = some (s, value)

/-- A search ended with a solution as its last word. -/
structure Solver.Reports (s : Solver σ κ Extended) (stats : Statistics Extended)
    (value : Extended) : Prop where
  status : stats.status = .optimal
  incumbent : stats.incumbent = some value
  bound : stats.bound = some value
  solution : ∃ path, s.standing.solution = some path ∧
    s.settings.model.problem.Solves path value

/-- A search ended without a solution. -/
structure Solver.Denies (s : Solver σ κ Extended) (stats : Statistics Extended) : Prop where
  status : stats.status = .infeasible
  incumbent : stats.incumbent = none
  bound : stats.bound = none
  solution : s.standing.solution = none

/-- The right answer: the optimum, if there is one. -/
structure Settings.Answers (set : Settings σ κ Extended) (sense : Sense)
    (s : Solver σ κ Extended) (stats : Statistics Extended) : Prop where
  feasible : (set.oriented sense).total set.branching ≠ negInf →
    s.Reports stats (sense.orient ((set.oriented sense).total set.branching))
  infeasible : (set.oriented sense).total set.branching = negInf → s.Denies stats

/-- Turning around keeps sums, unless they are of opposite ends. -/
theorem Sense.orient_add (sense : Sense) (v : Extended) {c : Extended}
    (hc : Value.isFinite c = true) : sense.orient (v + c) = sense.orient v + sense.orient c := by
  obtain ⟨q, rfl⟩ := isFinite_iff.1 hc
  cases sense with
  | maximize => rfl
  | minimize =>
    rw [orient_minimize, orient_minimize, orient_minimize]
    cases v with
    | negInf => rfl
    | posInf => rfl
    | finite a => simp [neg, add_comm]

/-- Decisions lead to the same state whichever way one looks at it. -/
theorem Problem.replay_orient {p : Problem σ Extended}
    (hcost : ∀ s d, Value.isFinite (p.cost s d) = true) (sense : Sense) (ds : Path) (s : σ)
    (v : Extended) : (p.orient sense).replay ds s (sense.orient v) =
      (p.replay ds s v).map fun end' => (end'.1, sense.orient end'.2) := by
  induction ds generalizing s v with
  | nil => rfl
  | cons d ds ih =>
    rw [replay, replay]
    by_cases hd : d ∈ p.domain d.var s
    · rw [if_pos hd, if_pos (show d ∈ (p.orient sense).domain d.var s from hd), ← ih,
        Sense.orient_add sense v (hcost s d)]
      rfl
    · rw [if_neg hd, if_neg (show d ∉ (p.orient sense).domain d.var s from hd)]
      rfl

/-- **Decisions on all variables are a solution in the user's terms**, whatever the order
in which they were taken. -/
theorem Problem.Wanders.solves {p : Problem σ Extended} {sense : Sense} {ds path : Path}
    {free : Variables} {s : σ} {v : Extended}
    (h : (p.orient sense).Wanders (.all p.variables) p.initialState
      (sense.orient p.initialValue) ds free s v) (hfocus : p.Focused)
    (hcost : ∀ s d, Value.isFinite (p.cost s d) = true) (hfree : free.size = 0)
    (hperm : ds.Perm path) : p.Solves path (sense.orient v) := by
  have hfocus' : (p.orient sense).Focused := hfocus
  have hreplay := h.replay_reverse hfocus'
  have hvars := h.map_var_perm hfocus'
  rw [List.length_eq_zero_iff.1 hfree, List.append_nil] at hvars
  refine ⟨ds.reverse, s, (List.reverse_perm ds).trans hperm, ?_, ?_⟩
  · rw [List.map_reverse]
    exact (List.reverse_perm _).trans hvars
  · rw [Problem.replay_orient hcost sense] at hreplay
    obtain ⟨⟨s', w⟩, hw, heq⟩ := Option.map_eq_some_iff.1 hreplay
    obtain ⟨rfl, rfl⟩ := Prod.mk.inj heq
    rw [hw, Sense.orient_orient]

section Lawful

variable {set : Settings σ κ Extended} {sense : Sense} {v : Extended} {path : Path}

theorem Problem.Completes.isFinite (hset : set.Lawful sense)
    (h : (set.oriented sense).Completes set.branching v path) : Value.isFinite v = true := by
  obtain ⟨ds, s, free, _, hds, _⟩ := h
  exact hds.wanders.isFinite hset.cost_oriented hset.start_oriented

/-- **A trail to the end is a solution in the user's terms.** -/
theorem Problem.Completes.solves (hset : set.Lawful sense)
    (h : (set.oriented sense).Completes set.branching v path) :
    set.model.problem.Solves path (sense.orient v) := by
  obtain ⟨ds, s, free, hperm, hds, hnone⟩ := h
  exact hds.wanders.solves hset.focused hset.finite_cost (hset.total.size_eq_zero hnone) hperm

/-- So is what is vouched for, if there was no solution to start from. -/
theorem Settings.Vouches.solves (hset : set.Lawful sense) {primal : Option (Extended × Path)}
    (hprimal : primal = none) (h : set.Vouches sense primal v path) :
    Value.isFinite v = true ∧ set.model.problem.Solves path (sense.orient v) := by
  rcases h with hcompletes | ⟨hsome, _⟩
  · exact ⟨hcompletes.isFinite hset, hcompletes.solves hset⟩
  · cases hprimal.symm.trans hsome

end Lawful

/-! ### Opening the root -/

section Root

variable {sense : Sense} {s : Solver σ κ Extended}

theorem Solver.table_openRoot : (s.openRoot sense).session.table = .empty := rfl

/-- Nothing was asked of the dominance table yet. -/
theorem Solver.checked_openRoot {state : σ} {depth : Nat} {value : Extended}
    {verdict : Dominance.Verdict Extended} :
    .checked state depth value verdict ∉ (s.openRoot sense).session.events := by
  intro hmem
  change _ ∈ [Event.pushed (s.root sense), .queueCleared, .tableCleared, .notice _] at hmem
  simp at hmem

/-- The incumbent is the solution to start from, if there is one. -/
theorem Solver.standing_openRoot (s : Solver σ κ Extended) (sense : Sense) :
    (s.openRoot sense).standing.sense = sense ∧ (s.openRoot sense).standing.upper = posInf ∧
      ((s.primal = none ∧ (s.openRoot sense).standing.lower = negInf ∧
        (s.openRoot sense).standing.solution = none) ∨
      ∃ value path, s.primal = some (value, path) ∧
        (s.openRoot sense).standing.lower = sense.orient value ∧
        (s.openRoot sense).standing.solution = some path) := by
  unfold Solver.openRoot
  dsimp only [Solver.renew, Solver.clearQueue, Solver.push, Solver.measureQueue]
  cases s.primal with
  | none => exact ⟨rfl, rfl, .inl ⟨rfl, rfl, rfl⟩⟩
  | some primal => exact ⟨rfl, rfl, .inr ⟨primal.1, primal.2, rfl, rfl, rfl⟩⟩

theorem Solver.cache_openRoot : (s.openRoot sense).session.cache =
    if s.settings.useCache then .ofSize s.variables else .off := rfl

variable [BEq σ]

theorem Cache.get?_ofSize (n : Nat) (state : σ) (depth : Nat) :
    (ofSize n : Cache σ Extended).get? state depth = none := by
  unfold ofSize get?
  rw [Array.getElem?_replicate]
  split
  · rfl
  · rfl

variable [BEq κ]

omit [BEq σ] [BEq κ] in
/-- **The root is all that is open**, and a solution to start from is the incumbent. -/
theorem Solver.openRoot_orderly {Stands : Extended → Path → Prop}
    {Open : Subproblem σ Extended → Prop} (hroot : Open (s.root sense))
    (hprimal : ∀ value path, s.primal = some (value, path) → Stands (sense.orient value) path) :
    Orderly s.settings sense Stands Open (s.openRoot sense) := by
  obtain ⟨hsense, _, hincumbent⟩ := s.standing_openRoot sense
  refine ⟨⟨hsense, ?_⟩, rfl, fun N hN => ?_, List.pairwise_singleton _ _, fun huse => ?_⟩
  · rcases hincumbent with ⟨_, hnone⟩ | ⟨value, path, heq, hlower, hsolution⟩
    · exact .inl hnone
    · refine .inr ⟨path, hsolution, ?_⟩
      rw [hlower]
      exact hprimal value path heq
  · obtain rfl := List.mem_singleton.1 hN
    exact hroot
  · rw [Solver.cache_openRoot, huse]
    rfl

/-- The root is reached.  A solution to start from has the value of some solution. -/
theorem Solver.openRoot_steady (hprimal : ∀ value path, s.primal = some (value, path) →
      ∃ path', (s.settings.oriented sense).Completes s.settings.branching (sense.orient value)
        path') :
    Steady s.settings sense (s.openRoot sense) (s.openRoot sense) := by
  refine ⟨s.openRoot_orderly ⟨⟨[], .refl _, rfl, .refl⟩, fun _ => rfl⟩
    fun value path hsome => .inr ⟨?_, hprimal value path hsome⟩, .refl⟩
  rw [Sense.orient_orient]
  exact hsome

omit [BEq κ] in
/-- The root carries the optimum. -/
theorem Solver.openRoot_secured {safe : Nat → σ → Extended → Prop}
    (hq : s.settings.Quest sense safe) : s.settings.Secured sense safe
      (s.openRoot sense).queue.entries (s.openRoot sense).session.cache where
  carried := ⟨s.root sense, List.mem_singleton.2 rfl, hq.thread.start, le_posInf _, le_rfl⟩
  backed state k t ht := by
    rw [Solver.cache_openRoot] at ht
    split at ht
    · rw [Cache.get?_ofSize] at ht
      cases ht
    · cases ht

end Root

/-! ### The last word -/

section Conclude

variable [BEq σ] [BEq κ] {set : Settings σ κ Extended} {sense : Sense}
  {start s : Solver σ κ Extended}

/-- The solver after an exhaustive search. -/
def Solver.concluded (s : Solver σ κ Extended) : Solver σ κ Extended :=
  (s.conclude true).note (.searchOver (s.conclude true).statistics)

omit [BEq σ] [BEq κ] in
theorem Solver.bound_conclude (s : Solver σ κ Extended) : (s.conclude true).statistics.bound =
    if Value.isFinite s.standing.lower then some (s.standing.sense.orient s.standing.lower)
    else none := by
  change (if Value.isFinite (max s.standing.lower s.standing.lower) then
    some (s.standing.sense.orient (max s.standing.lower s.standing.lower)) else none) = _
  rw [max_self]

omit [BEq σ] [BEq κ] in
/-- Without an incumbent there is no solution to report. -/
theorem Solver.concluded_denies (hlower : s.standing.lower = negInf)
    (hnone : s.standing.solution = none) :
    s.concluded.Denies (s.conclude true).statistics := by
  refine ⟨?_, ?_, ?_, hnone⟩
  · simp [Solver.statistics, Standing.statistics, Solver.conclude, Standing.conclude, hnone]
  · simp [Solver.statistics, Standing.statistics, Solver.conclude, Standing.conclude,
      Standing.incumbent, hnone]
  · rw [s.bound_conclude, hlower]
    rfl

omit [BEq σ] [BEq κ] in
/-- An incumbent that solves the problem is reported. -/
theorem Solver.concluded_reports {path : Path} (hpath : s.standing.solution = some path)
    (hfinite : Value.isFinite s.standing.lower = true)
    (hsolves : s.settings.model.problem.Solves path
      (s.standing.sense.orient s.standing.lower)) :
    s.concluded.Reports (s.conclude true).statistics
      (s.standing.sense.orient s.standing.lower) := by
  refine ⟨?_, ?_, ?_, path, hpath, hsolves⟩
  · simp [Solver.statistics, Standing.statistics, Solver.conclude, Standing.conclude, hpath]
  · simp [Solver.statistics, Standing.statistics, Solver.conclude, Standing.conclude,
      Standing.incumbent, hpath]
  · rw [s.bound_conclude, if_pos hfinite]

omit [BEq σ] [BEq κ] in
/-- **What is reported is a solution of the value reported**, which is that of the
incumbent. -/
theorem Standing.Genuine.concludes {Stands : Extended → Path → Prop}
    (h : s.standing.Genuine sense Stands) (hstands : ∀ v path, Stands v path →
      Value.isFinite v = true ∧ s.settings.model.problem.Solves path (sense.orient v)) :
    (s.standing.lower = negInf ∧ s.concluded.Denies (s.conclude true).statistics) ∨
      (Value.isFinite s.standing.lower = true ∧
        s.concluded.Reports (s.conclude true).statistics (sense.orient s.standing.lower)) := by
  obtain rfl := h.facing
  rcases h.incumbent with ⟨hlower, hnone⟩ | ⟨path, hpath, hpresent⟩
  · exact .inl ⟨hlower, Solver.concluded_denies hlower hnone⟩
  · obtain ⟨hfinite, hsolves⟩ := hstands _ path hpresent
    exact .inr ⟨hfinite, Solver.concluded_reports hpath hfinite hsolves⟩

omit [BEq σ] [BEq κ] in
/-- An incumbent that is as good as the optimum, and no better, is the right answer. -/
theorem Settings.answers_of_found
    (hconcludes : (s.standing.lower = negInf ∧ s.concluded.Denies (s.conclude true).statistics) ∨
      (Value.isFinite s.standing.lower = true ∧
        s.concluded.Reports (s.conclude true).statistics (sense.orient s.standing.lower)))
    (hle : s.standing.lower ≤ (set.oriented sense).total set.branching)
    (hfound : (set.oriented sense).total set.branching ≠ negInf →
      (set.oriented sense).total set.branching ≤ s.standing.lower) :
    set.Answers sense s.concluded (s.conclude true).statistics := by
  rcases hconcludes with ⟨hlower, hdenies⟩ | ⟨hfinite, hreports⟩
  · refine ⟨fun hne => absurd (hfound hne) ?_, fun _ => hdenies⟩
    rw [hlower, le_negInf_iff]
    exact hne
  · refine ⟨fun hne => ?_, fun heq => ?_⟩
    · rwa [← le_antisymm hle (hfound hne)]
    · rw [heq, le_negInf_iff] at hle
      exact absurd hle (ne_negInf_of_isFinite hfinite)

/-- Whatever was lost on the way, the incumbent of a search that had no solution to start
from is that of a trail to the end. -/
theorem Steady.concludes (hset : set.Lawful sense) (hs : Steady set sense start s)
    (hprimal : start.primal = none) :
    (s.standing.lower = negInf ∧ s.concluded.Denies (s.conclude true).statistics) ∨
      (s.standing.lower ≤ (set.oriented sense).total set.branching ∧
        s.concluded.Reports (s.conclude true).statistics (sense.orient s.standing.lower)) := by
  refine (hs.toGenuine.concludes fun v path hvouches => ?_).imp_right fun ⟨_, hreports⟩ =>
    ⟨hs.lower_le fun _ _ hv => hv.le_total, hreports⟩
  rw [hs.settings]
  exact hvouches.solves hset hprimal

variable [LawfulBEq σ] [Hashable σ]

/-- **A search from the root ends**, and its last word is that of its incumbent. -/
theorem Solver.solve_ends {s : Solver σ κ Extended} (hset : s.settings.Lawful sense)
    (hprimal : s.primal = none) : ∃ s' enough,
      Ends s.settings sense (s.openRoot sense) (s.openRoot sense) s' ∧
        ∀ rounds, enough ≤ rounds → s.solve rounds sense Cutoff.never =
          (s'.concluded, some (.ok (s'.conclude true).statistics)) := by
  have hblank : (s.openRoot sense).primal = none := hprimal
  obtain ⟨s', enough, hends, hsearch⟩ := Solver.search_ends hset hblank _
    (s.openRoot_steady fun _ _ hsome => nomatch hprimal.symm.trans hsome)
  refine ⟨s', enough, hends, fun rounds hrounds => ?_⟩
  unfold Solver.solve
  rw [hsearch rounds hrounds]
  rfl

omit [LawfulBEq σ] [Hashable σ] in
/-- **A search that loses nothing on the way answers right.** -/
theorem Ends.answers {s s' : Solver σ κ Extended} (hset : s.settings.Lawful sense)
    (hends : Ends s.settings sense (s.openRoot sense) (s.openRoot sense) s')
    (hclean : (s.settings.oriented sense).total s.settings.branching ≠ negInf → ∃ safe,
      s.settings.Quest sense safe ∧ Clean (s.settings.oriented sense) s.settings.branching safe
        (s.settings.useCache = true) s'.session.events) :
    s.settings.Answers sense s'.concluded (s'.conclude true).statistics := by
  refine Settings.answers_of_found (hends.steady.toGenuine.concludes fun v path hv => ?_)
    (hends.steady.lower_le fun _ _ hv => hv.le_total) fun hne => ?_
  · rw [hends.steady.settings]
    exact hv.solves hset hends.primal
  · obtain ⟨safe, hq, hc⟩ := hclean hne
    exact hends.found safe hq hc fun _ => s.openRoot_secured hq

end Conclude
end DiagramSearch
