/-
# Open sub-problems can be replayed

The nodes of a cut-set are exact, and none of the nodes above an exact one was merged.  So
the path of a sub-problem that is handed out can be taken again, decision by decision, from
the sub-problem that was compiled, and leads to the same state and the same value.  Nothing
but pure transitions is asked for: bounds, merges and dominance may be wrong.

* `Subproblem.Continues`: a sub-problem that further decisions lead to from another one;
  `Tells.continues_handOut`: **what is handed out is such a one**;
* `Request.exists_ok_of_mem_handOut`: a compilation that meets a fault hands out nothing;
* `Subproblem.Replays`: a sub-problem that is replayed from the root, by way of others;
  `Solver.upholds_replayed`: **what was taken from the queue and what is open can be
  replayed**, at each step of a search;
* `subproblems_replay`: both, and what is handed out is handed out once.
-/

import DiagramSearch.Proofs.Gaining
import DiagramSearch.Proofs.Moves
import DiagramSearch.Proofs.Stacking

namespace DiagramSearch

open Diagram

variable {σ κ V : Type}

/-! ### Handing out -/

section HandOut

variable [Value V] {d : Diagram σ V}

theorem Diagram.handOut_of_cutset_eq_nil (h : d.cutset = []) : d.handOut.1 = [] := by
  unfold handOut
  split
  · rfl
  · rw [h]
    rfl

/-- **What is handed out is handed out once.** -/
theorem Diagram.handOut_handOut (d : Diagram σ V) : d.handOut.2.handOut.1 = [] := by
  cases hbest : d.bestValue with
  | none =>
    have heq : d.handOut = ([], d) := by rw [handOut, hbest]
    rw [heq, heq]
  | some best =>
    refine handOut_of_cutset_eq_nil ?_
    rw [handOut, hbest]

variable [BEq σ] [Hashable σ] [BEq κ] {r : Request σ κ V} {session : Session σ κ V}

/-- Unrolling collects no cut-set. -/
theorem unroll_cutset (audit : Audit σ κ V) (r : Request σ κ V) (rounds : Nat)
    (free : Variables) (session : Session σ κ V) (d : Diagram σ V) :
    (unroll audit r rounds free session d).diagram.cutset = d.cutset := by
  fun_induction unroll audit r rounds free session d with
  -- In the third case another round follows.
  | case3 =>
    rename_i ih
    exact ih
  | _ => rfl

/-- **A compilation that meets a fault hands out nothing.** -/
theorem Request.handOut_of_error {fault : Fault σ V}
    (h : (r.compile session).outcome = .error fault) :
    (r.compile session).diagram.handOut.1 = [] := by
  have hunrolled : (r.unroll r.audit session).diagram.cutset = [] := unroll_cutset ..
  refine Diagram.handOut_of_cutset_eq_nil ?_
  unfold compile compileWith at h ⊢
  dsimp only at h ⊢
  split
  · exact hunrolled
  · rename_i hnone
    rw [hnone] at h
    obtain ⟨_, _, _, _, heq, _, hcutset⟩ :=
      r.evaluate_diagram (r.unroll r.audit session).session (r.unroll r.audit session).diagram
    rw [heq]
    refine (hcutset.resolve_right ?_).trans hunrolled
    -- A relaxed diagram is evaluated without a fault.
    rintro ⟨_, hkind, _⟩
    unfold evaluate at h
    simp [hkind] at h

theorem Request.exists_ok_of_mem_handOut {z : Subproblem σ V}
    (hz : z ∈ (r.compile session).diagram.handOut.1) :
    ∃ report, (r.compile session).outcome = .ok report := by
  cases h : (r.compile session).outcome with
  | ok report => exact ⟨report, rfl⟩
  | error fault =>
    rw [handOut_of_error h] at hz
    exact absurd hz List.not_mem_nil

end HandOut

/-! ### From one sub-problem to another -/

variable [Value V]

/-- A sub-problem that further decisions, at least one, lead to from another one.  Its path
goes on with them, the last one first, and its depth counts them. -/
def Subproblem.Continues (z : Subproblem σ V) (p : Problem σ V) (root : Subproblem σ V) : Prop :=
  ∃ ds : Path, ds ≠ [] ∧ z.path = root.path ++ ds ∧
    p.Follows ds.reverse root.state root.value z.state z.value ∧ z.depth = root.depth + ds.length

variable [Value.Lawful V]

theorem Subproblem.Continues.defined {p : Problem σ V} {root z : Subproblem σ V}
    (h : z.Continues p root) (hdef : z.value ≤ z.value) : root.value ≤ root.value := by
  obtain ⟨_, _, _, hfollows, _⟩ := h
  exact hfollows.defined hdef

/-- **What is handed out goes on from the sub-problem that was compiled.** -/
theorem Tells.continues_handOut {r : Request σ κ V} {free : Variables} {d : Diagram σ V}
    (h : Tells r free d) (htiered : d.Tiered r.residual.depth) {z : Subproblem σ V}
    (hz : z ∈ d.handOut.1) (hdef : z.value ≤ z.value) :
    z.Continues r.model.problem r.residual := by
  obtain ⟨a, ha, n, layer, above, free', hnode, hlength, hn, htrust, hlineal, hstate, hvalue,
    hdepth, hpath⟩ := h.exists_of_mem_handOut hz
  rw [hvalue] at hdef
  have hcount := (hlineal.length_climb hn htrust hdef).trans hlength
  refine ⟨climb (layer :: above) a.position, ?_, hpath, ?_, ?_⟩
  · refine List.length_pos_iff.1 ?_
    rw [hcount]
    exact (htiered.cutset a ha).1
  · rw [hstate, hvalue]
    exact hlineal.follows hn htrust hdef
  · rw [hdepth, hcount]
    exact htiered.depth_eq ha hnode

variable [BEq σ] [Hashable σ] [BEq κ]

theorem Request.continues_handOut [LawfulBEq σ] {r : Request σ κ V}
    (hpure : r.model.problem.Pure) {session : Session σ κ V} {z : Subproblem σ V}
    (hz : z ∈ (r.compile session).diagram.handOut.1) (hdef : z.value ≤ z.value) :
    z.Continues r.model.problem r.residual := by
  obtain ⟨report, hok⟩ := exists_ok_of_mem_handOut hz
  obtain ⟨free, htells, _⟩ := Request.compile_tells hpure hok
  exact htells.continues_handOut (compile_tiered hok) hz hdef

omit [Value.Lawful V] in
/-- No state is handed out twice at the same depth, fault or not. -/
theorem Request.pairwise_handOut [LawfulBEq σ] (r : Request σ κ V) (session : Session σ κ V) :
    (r.compile session).diagram.handOut.1.Pairwise
      fun y z => ¬(y.state = z.state ∧ y.depth = z.depth) := by
  cases h : (r.compile session).outcome with
  | ok report => exact (compile_tiered h).pairwise_handOut (compile_distinct h)
  | error fault =>
    rw [handOut_of_error h]
    exact .nil

/-! ### From the root -/

omit [Value.Lawful V] [BEq σ] [Hashable σ] [BEq κ]

/-- A sub-problem that is replayed from the root: its path leads to its state and value, by
way of some of the given sub-problems, and its depth counts the decisions. -/
structure Subproblem.Replays (p : Problem σ V) (stops : List (Subproblem σ V))
    (z : Subproblem σ V) : Prop where
  attests : p.Attests (fun path => ∃ Q ∈ stops, Q.path = path) z.path z.state z.value
  depth : z.depth = z.path.length

/-- Sub-problems that were taken and those that are open can be replayed, by way of those
that were taken. -/
def Replayed (p : Problem σ V) (taken entries : List (Subproblem σ V)) : Prop :=
  ∀ z ∈ taken ++ entries, z.value ≤ z.value → z.Replays p taken

section Replays

variable {p : Problem σ V} {stops stops' : List (Subproblem σ V)} {P z : Subproblem σ V}

theorem Subproblem.Replays.mono (h : z.Replays p stops) (hsub : ∀ Q ∈ stops, Q ∈ stops') :
    z.Replays p stops' :=
  ⟨h.attests.mono fun _ ⟨Q, hQ, hpath⟩ => ⟨Q, hsub Q hQ, hpath⟩, h.depth⟩

/-- **What goes on from a sub-problem that is replayed is replayed**, by way of it. -/
theorem Subproblem.Continues.replays (h : z.Continues p P) (hP : P.Replays p stops)
    (hmem : P ∈ stops) : z.Replays p stops := by
  obtain ⟨ds, _, hpath, hfollows, hdepth⟩ := h
  refine ⟨?_, ?_⟩
  · rw [hpath]
    exact hP.attests.extend ⟨P, hmem, rfl⟩ hfollows
  · rw [hdepth, hP.depth, hpath, List.length_append]

end Replays

namespace Solver

variable [Value.Lawful V] [BEq σ] [Hashable σ] [BEq κ] {s : Solver σ κ V}

omit [Value.Lawful V] [BEq σ] [Hashable σ] [BEq κ] in
theorem sense_openRoot (s : Solver σ κ V) (sense : Sense) :
    (s.openRoot sense).standing.sense = sense := by
  unfold openRoot
  dsimp only
  split
  · rfl
  · rfl

omit [Value.Lawful V] [BEq σ] [Hashable σ] [BEq κ] in
theorem openRoot_replayed (s : Solver σ κ V) (sense : Sense) :
    Replayed (s.settings.model.problem.orient sense) (s.openRoot sense).session.popped
      (s.openRoot sense).queue.entries := by
  intro z hz _
  obtain rfl := List.mem_singleton.1 hz
  exact ⟨.root _ _, rfl⟩

/-- **What was taken from the queue and what is open can be replayed**, at each step. -/
theorem upholds_replayed [LawfulBEq σ] (hpure : s.settings.model.problem.Pure) :
    s.Upholds (Replayed (s.settings.model.problem.orient s.standing.sense)) where
  take {taken P rest} h z hz hdef := by
    rw [List.append_assoc] at hz
    exact (h z hz hdef).mono fun Q hQ => List.mem_append_left _ hQ
  clear {taken entries} h z hz hdef := by
    rw [List.append_nil] at hz
    exact h z (List.mem_append_left _ hz) hdef
  push {taken P entries z} hz h N hN hdef := by
    have hold : N ∈ (taken ++ [P]) ++ entries ∨ N = { z with bound := min P.bound z.bound } := by
      rcases List.mem_append.1 hN with hN | hN
      · exact .inl (List.mem_append_left _ hN)
      · exact (Ordered.mem_place.1 hN).symm.imp_left (List.mem_append_right _)
    rcases hold with hold | rfl
    · exact h N hold hdef
    · obtain ⟨r, session, report, hmodel, _, rfl, _, hmem⟩ := hz
      have hproblem : r.model.problem = s.settings.model.problem.orient s.standing.sense :=
        congrArg Model.problem hmodel
      have hcontinues := Request.continues_handOut (hproblem ▸ hpure) hmem hdef
      rw [hproblem] at hcontinues
      have hP : r.residual ∈ taken ++ [r.residual] := by simp
      have hstop := h r.residual (List.mem_append_left _ hP) (hcontinues.defined hdef)
      have hreplays := hcontinues.replays hstop hP
      exact ⟨hreplays.attests, hreplays.depth⟩

end Solver

variable [BEq σ] [Hashable σ] [BEq κ] [LawfulBEq σ]

/-- **Every open sub-problem is exact, deeper and unique.**  What a compiled diagram hands out
goes on from the sub-problem that was compiled, no state is handed out twice at the same
depth, and nothing is handed out a second time.  Hence every sub-problem that a search takes
from the queue is replayed from the root, by way of others that it has taken. -/
theorem subproblems_replay [Value.Lawful V] :
    (∀ (r : Request σ κ V) (session : Session σ κ V), r.model.problem.Pure →
      (∀ z ∈ (r.compile session).diagram.handOut.1, z.value ≤ z.value →
        z.Continues r.model.problem r.residual) ∧
      (r.compile session).diagram.handOut.1.Pairwise
        (fun y z => ¬(y.state = z.state ∧ y.depth = z.depth)) ∧
      (r.compile session).diagram.handOut.2.handOut.1 = []) ∧
    ∀ (s : Solver σ κ V) (rounds : Nat) (sense : Sense) (cutoff : Cutoff V),
      s.settings.model.problem.Pure →
      ∀ P ∈ (s.solve rounds sense cutoff).1.session.popped, P.value ≤ P.value →
        P.Replays (s.settings.model.problem.orient sense)
          (s.solve rounds sense cutoff).1.session.popped := by
  refine ⟨fun r session hpure => ⟨fun z => Request.continues_handOut hpure, ?_,
    Diagram.handOut_handOut _⟩, fun s rounds sense cutoff hpure P hP => ?_⟩
  · exact Request.pairwise_handOut r session
  · obtain ⟨t, ht, hpopped⟩ := s.exists_moment_popped rounds sense cutoff
    rw [hpopped] at hP ⊢
    have hkept := Solver.upholds_replayed (s := s.openRoot sense) hpure
    rw [s.sense_openRoot sense] at hkept
    exact hkept.moment (s.openRoot_replayed sense) ht P (List.mem_append_left _ hP)

open Extended in
/-- Sub-problems two decisions below the root, of a relaxation that is wrong throughout, and
a search that takes seven. -/
theorem subproblems_replay_detour :
    let s := Solver.ofSettings detourSettings
    let r := s.request .relaxed 2 (s.root .maximize)
    let d := (r.compile .fresh).diagram
    let popped := (s.solve 20 .maximize Cutoff.never).1.session.popped
    (d.handOut.1.map fun z => (z.state, z.value, z.path)) =
        [(3, finite 5, [⟨1, 0⟩, ⟨0, 1⟩]), (4, finite 5, [⟨1, 1⟩, ⟨0, 1⟩])] ∧
      (∀ z ∈ d.handOut.1, z.Continues r.model.problem r.residual) ∧
      d.handOut.1.Pairwise (fun y z => ¬(y.state = z.state ∧ y.depth = z.depth)) ∧
      d.handOut.2.handOut.1 = [] ∧ popped.map (·.state) = [0, 1, 4, 3, 2, 4, 3] ∧
      ∀ P ∈ popped, P.Replays (s.settings.model.problem.orient .maximize) popped := by
  intro s r d popped
  obtain ⟨hcompiled, hsolved⟩ := subproblems_replay (σ := Nat) (κ := Unit) (V := Extended)
  obtain ⟨hcontinues, hdistinct, honce⟩ := hcompiled r .fresh fun _ _ _ _ => rfl
  refine ⟨by decide +kernel, fun z hz => hcontinues z hz le_rfl, hdistinct, honce,
    by decide +kernel, fun P hP => ?_⟩
  exact hsolved s 20 .maximize Cutoff.never (fun _ _ _ _ => rfl) P hP le_rfl

end DiagramSearch
