/-
# Accounts of a run

A run is given a model that may be wrong in every respect but one: its transitions
are pure.  Its bounds, merges and dominance may be unsound, and the branching rule,
the cut-set, the width, the cache, the checks and the cutoff are whatever they are.
Still every solution it hands out is one, and is worth what is said.

* `Solver.Accountable`: the solutions handed out are genuine, each is better than
  those before it and than the starting solution, and the last one is the answer;
* `Candid.accountable`: what is true of a run in the engine's terms is true in the
  user's;
* `Solver.openRoot_candid`, `Solver.renew_candid`: where the runs start;
* `Solver.run_accountable`: **every run can be accounted for**, be it a search or a
  single diagram.
-/

import DiagramSearch.Proofs.Announcing
import DiagramSearch.Proofs.Optimality
import DiagramSearch.Search.OneDiagram

namespace DiagramSearch

variable {σ κ V : Type} [Value V]

/-- A solution stays one in the user's terms, with the same value. -/
theorem Problem.Delivers.of_orient [Value.Lawful V] {p : Problem σ V} {sense : Sense}
    {b : Branching σ} {ends : Path → Prop} {path : Path} {v : V} (hsum : p.Summable)
    (h : (p.orient sense).Delivers b ends path v) (hdef : v ≤ v) :
    ∃ total, (total == sense.orient v) = true ∧ p.Delivers b ends path total := by
  obtain ⟨state, hattests⟩ := h.attests
  obtain ⟨total, hattests', heq⟩ := hattests.of_orient hsum hdef
  exact ⟨total, heq, ⟨state, hattests'⟩, h.complete⟩

namespace Solver

/-- What a run owes its user, whose terms these are. -/
structure Accountable (s : Solver σ κ V) (sense : Sense) (after : Solver σ κ V) : Prop where
  /-- What is handed out can be done, and is worth the value reported. -/
  genuine : ∀ entry ∈ after.session.announced, ∃ reported total, entry.2 = some reported ∧
    (total == reported) = true ∧
    s.settings.model.problem.Delivers s.settings.branching after.session.Opened entry.1 total
  /-- Each value is better than all before it, and than the one to start from. -/
  improving :
    (s.primal.toList.map (fun q => some q.1) ++ after.session.announced.map (·.2)).Pairwise
      fun a b => ∃ x y, a = some x ∧ b = some y ∧ sense.prefers y x = true
  /-- The answer is what was handed out last; if nothing was, it is the solution to
  start from, if any. -/
  final : match after.session.announced.getLast? with
    | some entry => after.standing.solution = some entry.1 ∧ after.standing.incumbent = entry.2
    | none => after.standing.solution = none ∧ after.standing.incumbent = none ∨
        ∃ value path, s.primal = some (value, path) ∧ after.standing.solution = some path ∧
          after.standing.incumbent = some value

/-- A standing that a run starts from. -/
structure Starts (s : Solver σ κ V) (sense : Sense) (start : Standing V) : Prop where
  /-- What beats the standing beats the solution to start from. -/
  below : ∀ value path, s.primal = some (value, path) →
    ∀ v, start.lower < v → sense.orient value < v
  solution : start.solution = none ∨ ∃ value path, s.primal = some (value, path) ∧
    start.solution = some path ∧ start.lower = sense.orient value

end Solver

section Account

variable [Value.Lawful V] {set : Settings σ κ V} {sense : Sense} {start : Standing V}
  {s after : Solver σ κ V} {found : List (Path × V)}

/-- A greater value is a better one for the user. -/
theorem Sense.prefers_orient (sense : Sense) {a b : V} :
    sense.prefers (sense.orient b) (sense.orient a) = true ↔ a < b := by
  rw [prefers, sense.orient_involutive, sense.orient_involutive, decide_eq_true_iff]

theorem Found.improving (h : Found set sense start after found) (hstart : s.Starts sense start) :
    (s.primal.toList.map (fun q => some q.1) ++ after.session.announced.map (·.2)).Pairwise
      fun a b => ∃ x y, a = some x ∧ b = some y ∧ sense.prefers y x = true := by
  obtain ⟨hbelow, hincreasing⟩ := List.pairwise_cons.1 h.increasing
  rw [h.announced, List.map_map]
  refine List.pairwise_append.2 ⟨?_, ?_, ?_⟩
  · cases s.primal with
    | none => exact .nil
    | some q => exact List.pairwise_singleton _ _
  · refine List.pairwise_map.2 ((List.pairwise_map.1 hincreasing).imp fun hlt => ?_)
    exact ⟨_, _, rfl, rfl, sense.prefers_orient.2 hlt⟩
  · intro a ha b hb
    obtain ⟨⟨value, path⟩, hq, rfl⟩ := List.mem_map.1 ha
    obtain ⟨f, hf, rfl⟩ := List.mem_map.1 hb
    have hlt := hbelow f.2 (List.mem_map_of_mem hf)
    have hprimal := hstart.below value path (Option.mem_toList.1 hq) f.2 hlt
    refine ⟨value, sense.orient f.2, rfl, rfl, ?_⟩
    rw [Sense.prefers, sense.orient_involutive]
    exact decide_eq_true hprimal

/-- **A run that is candid can be accounted for.** -/
theorem Candid.accountable (h : Candid s.settings sense start after)
    (hstart : s.Starts sense start) (hsum : s.settings.model.problem.Summable) :
    s.Accountable sense after := by
  obtain ⟨found, hfound⟩ := h.found
  have hincumbent : after.standing.incumbent =
      after.standing.solution.map fun _ => sense.orient after.standing.lower := by
    rw [Standing.incumbent, h.oriented]
  refine ⟨fun entry hentry => ?_, hfound.improving hstart, ?_⟩
  · rw [hfound.announced] at hentry
    obtain ⟨f, hf, rfl⟩ := List.mem_map.1 hentry
    obtain ⟨hdef, hdelivers⟩ := hfound.delivers f hf
    obtain ⟨total, heq, htotal⟩ := hdelivers.of_orient hsum hdef
    exact ⟨sense.orient f.2, total, rfl, heq, htotal⟩
  · rw [hincumbent, hfound.announced, List.getLast?_map]
    have hlast := hfound.last
    cases hf : found.getLast? with
    | some f =>
      rw [hf] at hlast
      obtain ⟨hsolution, hlower⟩ := Prod.mk.inj hlast
      rw [hsolution, hlower]
      exact ⟨rfl, rfl⟩
    | none =>
      rw [hf] at hlast
      obtain ⟨hsolution, hlower⟩ := Prod.mk.inj hlast
      rw [hsolution, hlower]
      rcases hstart.solution with hnone | ⟨value, path, hprimal, hpath, hvalue⟩
      · rw [hnone]
        exact .inl ⟨rfl, rfl⟩
      · rw [hpath, hvalue, sense.orient_involutive]
        exact .inr ⟨value, path, hprimal, rfl, rfl⟩

end Account

/-! ### Where runs start -/

/-- Nothing was found yet. -/
theorem Candid.fresh {set : Settings σ κ V} {sense : Sense} {start : Standing V}
    {s : Solver σ κ V} (hsettings : s.settings = set) (hsense : s.standing.sense = sense)
    (hnone : s.session.announced = [])
    (hstanding : (s.standing.solution, s.standing.lower) = (start.solution, start.lower)) :
    Candid set sense start s :=
  ⟨hsettings, hsense, [], hnone, fun _ hf => absurd hf List.not_mem_nil,
    List.pairwise_singleton _ _, hstanding⟩

namespace Solver

variable (s : Solver σ κ V) (sense : Sense)

theorem root_founded (ends : Path → Prop) :
    (s.root sense).Founded (s.settings.model.problem.orient sense) ends where
  attests := .root _ _
  assigned _ := List.nil_subperm

variable {s sense}

theorem Starts.none (hprimal : s.primal = none) : s.Starts sense (.start sense) where
  below value path h := by
    rw [hprimal] at h
    cases h
  solution := .inl rfl

theorem Starts.adopt {value : V} {path : Path} (hprimal : s.primal = some (value, path)) :
    s.Starts sense ((Standing.start sense).adopt (sense.orient value) path) where
  below value' path' h v hlt := by
    rw [hprimal] at h
    cases h
    exact hlt
  solution := .inr ⟨value, path, hprimal, rfl, rfl⟩

/-- A solution that does not beat the worst value is beaten by all that do. -/
theorem Starts.ignore [Value.Lawful V] {value : V} {path : Path}
    (hprimal : s.primal = some (value, path)) (hdef : value ≤ value)
    (hworst : ¬Value.negInf < sense.orient value) : s.Starts sense (.start sense) where
  below value' path' h v hlt := by
    rw [hprimal] at h
    cases h
    exact Value.Lawful.lt_of_not_lt (sense.orient_defined hdef) hworst hlt
  solution := .inl rfl

variable (s sense)

/-- **A search starts with the root open**, and the solution to start from as
incumbent. -/
theorem openRoot_candid : ∃ start, s.Starts sense start ∧
    Candid s.settings sense start (s.openRoot sense) ∧
      Stocked s.settings sense (s.openRoot sense) := by
  have hstock : Stocked s.settings sense (s.openRoot sense) := by
    intro n hn _
    obtain rfl := List.mem_singleton.1 hn
    exact s.root_founded sense _
  rcases s with ⟨settings, _ | ⟨value, path⟩, _, _, _, _, _, _⟩
  · exact ⟨_, .none rfl, .fresh rfl rfl rfl rfl, hstock⟩
  · exact ⟨_, .adopt rfl, .fresh rfl rfl rfl rfl, hstock⟩

/-- A single diagram starts with the solution to start from as incumbent, unless it
is of the worst value. -/
theorem renew_candid [Value.Lawful V] (n : Notice σ V)
    (hprimal : ∀ value path, s.primal = some (value, path) → value ≤ value) :
    ∃ start, s.Starts sense start ∧ Candid s.settings sense start
      (match s.primal with
      | some (value, solution) =>
        (s.renew sense n).improve (some (sense.orient value)) (some solution)
      | none => s.renew sense n) := by
  split
  · rename_i value path heq
    unfold improve
    dsimp only
    split
    · exact ⟨_, .adopt heq, .fresh rfl rfl rfl rfl⟩
    · rename_i hworst
      exact ⟨_, .ignore heq (hprimal value path heq) hworst, .fresh rfl rfl rfl rfl⟩
  · rename_i heq
    exact ⟨_, .none heq, .fresh rfl rfl rfl rfl⟩

end Solver

/-! ### Runs -/

namespace Solver

variable {set : Settings σ κ V} {sense : Sense} {start : Standing V} {s : Solver σ κ V}

theorem finish_candid (h : Candid set sense start s) (ending : Ending σ V) :
    Candid set sense start (s.finish sense ending).1 := by
  cases ending with
  | exhausted => exact h.idles (.trans (.conclude s true) (.note _ _))
  | stopped => exact h.idles (.trans (.conclude s false) (.note _ _))
  | faulty fault => exact h.idles (.trans (.clearQueue s) (.trans (.conclude _ false) (.note _ _)))

/-- **What a diagram of the whole problem tells is handed out.** -/
theorem learn_candid [Value.Lawful V] {kind : Kind} {node : Subproblem σ V}
    (h : Candid set sense start s) (hpicked : Picked set sense s node)
    (hdraws : Draws set sense kind node s) :
    Candid set sense start (s.learn kind ⟨s.diagram.isExact, s.diagram.bestValue⟩) := by
  unfold learn
  extract_lets d
  dsimp only
  split
  · rename_i hexact
    exact (h.publish_best hpicked hdraws (.inr hexact)).idles (.conclude _ true)
  · split
    · have hpublished := h.publish_bestExact hpicked hdraws
      split
      · split
        · exact hpublished.idles ⟨rfl, rfl, rfl, rfl, .refl _, fun _ hn => hn⟩
        · exact hpublished.idles (.conclude _ true)
      · exact hpublished.idles (.conclude _ true)
    · rename_i hkind
      exact (h.publish_best hpicked hdraws (.inl hkind)).idles (.conclude _ false)

variable [BEq σ] [LawfulBEq σ] [Hashable σ] [BEq κ] [Value.Lawful V]

theorem solve_candid (s : Solver σ κ V) (hpure : s.settings.model.problem.Pure) (rounds : Nat)
    (sense : Sense) (cutoff : Cutoff V) :
    ∃ start, s.Starts sense start ∧
      Candid s.settings sense start (s.solve rounds sense cutoff).1 := by
  obtain ⟨start, hstart, hcandid, hstock⟩ := s.openRoot_candid sense
  have hsearch := search_candid hpure cutoff rounds hcandid hstock
  refine ⟨start, hstart, ?_⟩
  unfold solve
  split
  · rename_i heq
    rw [heq] at hsearch
    exact hsearch
  · rename_i heq
    rw [heq] at hsearch
    exact finish_candid hsearch _

theorem solveOnce_candid (s : Solver σ κ V) (hpure : s.settings.model.problem.Pure)
    (hprimal : ∀ value path, s.primal = some (value, path) → value ≤ value) (kind : Kind)
    (sense : Sense) (cutoff : Cutoff V) :
    ∃ start, s.Starts sense start ∧
      Candid s.settings sense start (s.solveOnce kind sense cutoff).1 := by
  obtain ⟨start, hstart, hcandid⟩ :=
    s.renew_candid sense (.compilationStarted kind sense s.variables) hprimal
  refine ⟨start, hstart, ?_⟩
  unfold solveOnce
  extract_lets renewed adopted halted standing session ready root
  have hready : Candid s.settings sense start ready :=
    hcandid.idles ⟨rfl, rfl, rfl, rfl, .of_events_eq rfl, fun _ hn => hn⟩
  have hpicked : Picked s.settings sense ready root := by
    refine ⟨fun _ => ?_, .inl rfl⟩
    rw [← hready.settings]
    exact ready.root_founded sense _
  have hidles := Solver.Idles.compile ready kind (ready.settings.width root) root
  split
  · exact hcandid.idles (.conclude adopted false)
  · split
    · rename_i heq
      rw [heq] at hidles
      exact hready.idles (hidles.trans (.trans (.conclude _ false) (.note _ _)))
    · rename_i heq
      obtain ⟨hdraws, rfl⟩ := hready.draws hpure heq
      rw [heq] at hidles
      exact (learn_candid (hready.idles hidles) (hpicked.idles hidles) hdraws).idles (.note _ _)

/-- **Every run can be accounted for**, whatever bounds, merges and dominance are
worth: the solutions handed out can be carried out and are worth what is reported,
they get better and better, and the last one is the answer.  This holds of a search,
however long it is watched, and of a single diagram of each kind. -/
theorem run_accountable (s : Solver σ κ V) (hpure : s.settings.model.problem.Pure)
    (hsum : s.settings.model.problem.Summable)
    (hprimal : ∀ value path, s.primal = some (value, path) → value ≤ value)
    (sense : Sense) (cutoff : Cutoff V) :
    (∀ rounds, s.Accountable sense (s.solve rounds sense cutoff).1) ∧
      ∀ kind, s.Accountable sense (s.solveOnce kind sense cutoff).1 := by
  refine ⟨fun rounds => ?_, fun kind => ?_⟩
  · obtain ⟨start, hstart, hcandid⟩ := s.solve_candid hpure rounds sense cutoff
    exact hcandid.accountable hstart hsum
  · obtain ⟨start, hstart, hcandid⟩ := s.solveOnce_candid hpure hprimal kind sense cutoff
    exact hcandid.accountable hstart hsum

end Solver

open Extended

/-- The two picks once more, with a relaxation that is wrong throughout: merging leads
nowhere, its costs are made up, and the optimum is claimed to be one. -/
def carelessSettings : Settings Nat Unit Extended :=
  { twoPicksSettings true (some moreOnes) with
    model :=
      { problem := twoPicks
        relaxation :=
          { merge := fun _ => 7
            relax := fun _ _ _ _ _ => finite 3
            upperBound := fun _ _ => finite 1
            lowerBound := fun _ _ => finite 1 } }
    checks := .off }

theorem twoPicks_summable : twoPicks.Summable := by
  rintro ds s v - x - d - ⟨-, hinfinite, -⟩
  exact absurd hinfinite Bool.false_ne_true

/-- From a known solution of value three, both picks of nought are handed out. -/
theorem Solver.run_accountable_careless :
    let s := (Solver.ofSettings carelessSettings).startFrom (finite 3) [⟨0, 1⟩]
    let after := (s.solve 20 .minimize Cutoff.never).1
    let after' := (s.solveOnce .restricted .minimize Cutoff.never).1
    after.session.announced = [([⟨1, 0⟩, ⟨0, 0⟩], some (finite 0))] ∧
      s.Accountable .minimize after ∧ s.Accountable .minimize after' := by
  intro s after after'
  have hrun := Solver.run_accountable s (fun _ _ _ _ => rfl) twoPicks_summable
    (fun _ _ _ => le_rfl) .minimize Cutoff.never
  refine ⟨by decide +kernel, hrun.1 20, hrun.2 .restricted⟩

end DiagramSearch
