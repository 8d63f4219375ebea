/-
# How many sub-problems are open at each depth

A search counts the open sub-problems of each depth, and on these counts rests which
thresholds it forgets.  The counts are right before every move, whatever the model: a
sub-problem that is taken was counted, one that is skipped or not opened never was, and
what a visit opens is deeper than what is visited.  So no open sub-problem is ever less
deep than the depths that were given up.

* `Solver.Tallied`: the counts are right, and nothing open was given up;
* `Solver.Tallied.retireLayers`: giving up the depths above all open sub-problems;
* `Solver.Tackles.tallied`, `Solver.Course.tallied`: **visits and whole searches keep the
  counts**.
-/

import DiagramSearch.Proofs.Moves
import DiagramSearch.Proofs.Stacking

namespace DiagramSearch

variable {σ κ V : Type}

namespace Solver

/-- The counts of open sub-problems are right, and no open sub-problem is less deep than the
depths that were given up. -/
structure Tallied (s : Solver σ κ V) : Prop where
  counts : ∀ d ≤ s.variables,
    s.openAt[d]? = some (s.queue.entries.countP fun N => N.depth == d)
  shallowest_le : s.shallowest ≤ s.variables
  deep : ∀ N ∈ s.queue.entries, s.shallowest ≤ N.depth

variable {s s' : Solver σ κ V} {P : Subproblem σ V}

theorem Tallied.congr (h : s.Tallied) (hsettings : s'.settings = s.settings)
    (hqueue : s'.queue = s.queue) (hopen : s'.openAt = s.openAt)
    (hshallowest : s'.shallowest = s.shallowest) : s'.Tallied := by
  have hvariables : s'.variables = s.variables :=
    congrArg (fun set => set.model.problem.variables) hsettings
  refine ⟨?_, ?_, ?_⟩
  · rw [hvariables, hqueue, hopen]
    exact h.counts
  · rw [hvariables, hshallowest]
    exact h.shallowest_le
  · rw [hqueue, hshallowest]
    exact h.deep

/-- The depths that are given up were counted as zero. -/
theorem getElem?_of_idle {d : Nat} (hd : s.shallowest ≤ d)
    (hlt : d < s.shallowest + s.idle) : s.openAt[d]? = some 0 := by
  unfold idle at hlt
  split at hlt
  · obtain ⟨k, rfl⟩ := Nat.exists_eq_add_of_le hd
    have hmem := List.getElem_mem (l := ((s.openAt.toList.take s.variables).drop
      s.shallowest).takeWhile (· == 0)) (n := k) (by omega)
    have hzero := beq_iff_eq.1 (List.all_eq_true.1 (List.all_takeWhile (p := (· == 0))) _ hmem)
    have hfront := List.takeWhile_prefix
      (l := (s.openAt.toList.take s.variables).drop s.shallowest) (· == 0)
    rw [hfront.getElem, List.getElem_drop, List.getElem_take, Array.getElem_toList] at hzero
    rw [← hzero]
    exact Array.getElem?_eq_getElem _
  · omega

/-- A depth that no sub-problem is open at is counted as such, so the depths that are given
up are those above all open sub-problems. -/
theorem Tallied.retireLayers (h : s.Tallied) : s.retireLayers.Tallied := by
  rw [retireLayers_eq_forget]
  have hle : s.shallowest + s.idle ≤ s.variables := by
    have hlen := (List.takeWhile_sublist (l := (s.openAt.toList.take s.variables).drop
      s.shallowest) (· == 0)).length_le
    have hshallow := h.shallowest_le
    rw [List.length_drop, List.length_take] at hlen
    unfold idle
    split
    · omega
    · exact hshallow
  refine ⟨h.counts, hle, fun N hN => Nat.le_of_not_lt fun hlt => ?_⟩
  -- Otherwise the depth of an open sub-problem was counted as zero.
  have hdeep := h.deep N hN
  change N.depth < s.shallowest + s.idle at hlt
  have hcount := h.counts N.depth (by omega)
  rw [getElem?_of_idle hdeep hlt] at hcount
  have hpos : 0 < s.queue.entries.countP fun M => M.depth == N.depth :=
    List.countP_pos_iff.2 ⟨N, hN, beq_self_eq_true _⟩
  rw [← Option.some.inj hcount] at hpos
  exact absurd hpos (Nat.lt_irrefl 0)

/-- What is taken was counted. -/
theorem Tallied.takeUp (h : s.Tallied) {rest : List (Subproblem σ V)}
    (hqueue : s.queue.entries = P :: rest) : (s.takeUp P rest).Tallied := by
  refine ⟨fun d hd => ?_, h.shallowest_le, fun N hN => ?_⟩
  · have hcount := h.counts d hd
    rw [hqueue, List.countP_cons] at hcount
    change (s.openAt.modify P.depth (· - 1))[d]? = some (rest.countP fun N => N.depth == d)
    rw [Array.getElem?_modify]
    split
    · rename_i heq
      rw [hcount, Option.map_some, if_pos (beq_iff_eq.2 heq), Nat.add_sub_cancel]
    · rename_i hne
      rw [hcount, if_neg (by simpa using hne), Nat.add_zero]
  · exact h.deep N (hqueue ▸ List.mem_cons_of_mem P hN)

/-- What is opened is counted. -/
theorem Tallied.push (h : s.Tallied) {z : Subproblem σ V} (hz : s.shallowest ≤ z.depth) :
    (s.push z).Tallied := by
  have hperm : (s.push z).queue.entries.Perm (z :: s.queue.entries) :=
    s.queue.entries_push_perm s.settings.queueOrder z
  refine ⟨fun d hd => ?_, h.shallowest_le, fun N hN => ?_⟩
  · rw [hperm.countP_eq, List.countP_cons]
    change (s.openAt.modify z.depth (· + 1))[d]? = _
    rw [Array.getElem?_modify]
    have hcount := h.counts d hd
    split
    · rename_i heq
      rw [hcount, Option.map_some, if_pos (beq_iff_eq.2 heq)]
    · rename_i hne
      rw [hcount, if_neg (by simpa using hne), Nat.add_zero]
  · rcases List.mem_cons.1 (hperm.mem_iff.1 hN) with rfl | hN
    · exact hz
    · exact h.deep N hN

variable [Value V]

/-- **A search starts with the root counted.** -/
theorem openRoot_tallied (s : Solver σ κ V) (sense : Sense) : (s.openRoot sense).Tallied := by
  refine ⟨fun d hd => ?_, Nat.zero_le _, fun N _ => Nat.zero_le _⟩
  change ((Array.replicate (s.variables + 1) 0).modify 0 (· + 1))[d]? =
    some ([s.root sense].countP fun N => N.depth == d)
  have hd' : d < s.variables + 1 := Nat.lt_succ_of_le hd
  rw [Array.getElem?_modify, Array.getElem?_replicate, if_pos hd', List.countP_singleton]
  cases d with
  | zero => rfl
  | succ d => rfl

variable [BEq σ] [Hashable σ] [BEq κ]

/-- **A visit keeps the counts**: what it opens is deeper than what is visited. -/
theorem Tackles.tallied (h : s.Tackles P s') (hs : s.Tallied) (hP : s.shallowest ≤ P.depth) :
    s'.Tallied ∧ s'.shallowest = s.shallowest := by
  induction h with
  | start => exact ⟨hs, rfl⟩
  | marked _ ih => exact ⟨ih.1.congr rfl rfl rfl rfl, ih.2⟩
  | noted _ _ ih => exact ⟨ih.1.congr rfl rfl rfl rfl, ih.2⟩
  | compiled _ _ _ ih => exact ⟨ih.1.congr rfl rfl rfl rfl, ih.2⟩
  | published _ value solution ih =>
    rcases publish_cases _ value solution with ⟨heq, _⟩ | ⟨v, path, _, _, _, heq⟩
    · rw [heq]
      exact ih
    · rw [heq]
      exact ⟨ih.1.congr rfl rfl rfl rfl, ih.2⟩
  | drained _ ih => exact ⟨ih.1.congr rfl rfl rfl rfl, ih.2⟩
  | @opened s' _ z hz ih =>
    obtain ⟨r, session, report, _, _, rfl, hok, hz⟩ := hz
    have hdeeper := (Request.compile_tiered hok).deeper hz
    refine ⟨ih.1.push ?_, ih.2⟩
    rw [ih.2]
    exact hP.trans hdeeper.le
  | measured _ ih => exact ⟨ih.1.congr rfl rfl rfl rfl, ih.2⟩

variable {cutoff : Cutoff V} {s₁ : Solver σ κ V}

omit [BEq σ] [Hashable σ] [BEq κ] in
/-- A move that takes up a sub-problem keeps the counts, and the sub-problem was not given
up. -/
theorem Tallied.nextMove (h : s.Tallied) (hmove : s.nextMove cutoff = (s₁, .explore P)) :
    s₁.Tallied ∧ s₁.shallowest ≤ P.depth := by
  obtain ⟨rest, hqueue, _, rfl⟩ := takeUp_of_explore hmove
  have hqueue' : s.retireLayers.queue.entries = P :: rest := by
    rw [retireLayers_eq_forget]
    exact hqueue
  exact ⟨h.retireLayers.takeUp hqueue',
    h.retireLayers.deep P (hqueue' ▸ List.mem_cons_self)⟩

/-- **The counts are right before every move.** -/
theorem Course.tallied (hs : s.Tallied) (h : s.Course cutoff s₁) : s₁.Tallied := by
  induction h with
  | start => exact hs
  | @next s₁ s₂ s₃ P _ hmove hvisit ih =>
    obtain ⟨htallied, hP⟩ := ih.nextMove hmove
    have hvisited := (s₂.visit_tackles P).tallied htallied hP
    rw [hvisit] at hvisited
    exact hvisited.1

end Solver
end DiagramSearch
