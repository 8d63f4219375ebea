/-
# No state is explored again without a gain

With the cache, a sub-problem that is about to be explored is marked with its value.
Thresholds are only tightened after that, until their depth is given up, and then no
sub-problem of that depth is left.  So whatever is explored later in the same state and at
the same depth has a greater value, and the model need not be sound for it.

* `Cache.Bars`: a cache that turns a value away;
* `Threshold.admits_tighter`: **the tighter of two thresholds turns away what either does**;
* `Session.Works.tightens`, `Solver.Tackles.tightens`: what is turned away stays so in the
  course of a visit, and until its depth is given up (`Solver.Done.nextMove`);
* `Solver.searchBy_gaining`, `Solver.solve_gains`: what follows for whole searches.
-/

import DiagramSearch.Proofs.Retiring
import DiagramSearch.Proofs.Searching

namespace DiagramSearch

open Extended

variable {σ κ : Type}

/-! ### Thresholds that turn away -/

namespace Threshold

variable {t u : Threshold Extended} {v w : Extended}

theorem admits_eq_true (h : t.admits v = true) :
    t.value < v ∨ v = t.value ∧ t.explored = false := by
  unfold admits at h
  rw [Bool.or_eq_true, Bool.and_eq_true, Bool.not_eq_true'] at h
  exact h.imp of_decide_eq_true fun ⟨hvalue, hexplored⟩ => ⟨of_decide_eq_true hvalue, hexplored⟩

theorem admits_of_lt (h : v < t.value) : t.admits v = false := by
  refine Bool.eq_false_iff.2 fun hadmits => ?_
  rcases admits_eq_true hadmits with hlt | ⟨rfl, _⟩
  · exact lt_asymm h hlt
  · exact lt_irrefl _ h

/-- What is turned away is less than what is let pass. -/
theorem lt_of_admits (hv : t.admits v = false) (hw : t.admits w = true) : v < w := by
  obtain ⟨hle, hexplored⟩ := admits_eq_false hv
  rcases admits_eq_true hw with hlt | ⟨rfl, hopen⟩
  · exact hle.trans_lt hlt
  · refine lt_of_le_of_ne hle fun heq => ?_
    exact Bool.false_ne_true (hopen.symm.trans (hexplored heq))

/-- What a threshold turns away, a greater one does. -/
theorem admits_of_order_gt (h : u.admits v = false) (horder : t.order u = .gt) :
    t.admits v = false := by
  obtain ⟨hle, hexplored⟩ := admits_eq_false h
  refine admits_of_lt ?_
  rcases Ordering.then_eq_gt.1 horder with hgt | ⟨heq, hmarked⟩
  · exact hle.trans_lt (order_eq_gt_iff.1 hgt)
  · -- Of equal values the explored one is the greater, so the other was not.
    refine lt_of_le_of_ne (hle.trans (order_eq_eq_iff.1 heq).ge) fun hsame => ?_
    rw [hexplored (hsame.trans (order_eq_eq_iff.1 heq))] at hmarked
    revert hmarked
    cases t.explored <;> decide

theorem admits_of_order_ne_gt (h : t.admits v = false) (horder : t.order u ≠ .gt) :
    u.admits v = false := by
  obtain ⟨hle, hexplored⟩ := admits_eq_false h
  obtain ⟨hvalue, hmarked⟩ := not_or.1 (mt Ordering.then_eq_gt.2 horder)
  have htu : t.value ≤ u.value := le_of_not_gt (mt order_eq_gt_iff.2 hvalue)
  refine Bool.eq_false_iff.2 fun hadmits => ?_
  rcases admits_eq_true hadmits with hlt | ⟨rfl, hopen⟩
  · exact absurd (hle.trans htu) (not_le.2 hlt)
  · have hsame := le_antisymm hle htu
    refine hmarked ⟨order_eq_eq_iff.2 hsame.symm, ?_⟩
    rw [hexplored hsame, hopen]
    rfl

/-- **The tighter of two thresholds turns away what either does.** -/
theorem admits_tighter (h : t.admits v = false ∨ u.admits v = false) :
    (t.tighter u).admits v = false := by
  unfold tighter
  split
  · rename_i horder
    exact h.elim id fun hu => admits_of_order_gt hu horder
  · rename_i horder
    exact h.elim (fun ht => admits_of_order_ne_gt ht horder) id

/-- A marked value is turned away. -/
theorem admits_marked (v : Extended) : (Threshold.mk v true).admits v = false := by
  simp [admits]

end Threshold

namespace Cache

variable [BEq σ] [LawfulBEq σ] {c : Cache σ Extended} {state other : σ} {depth k : Nat}
  {v : Extended} {t : Threshold Extended}

omit [LawfulBEq σ] in
/-- A cache that turns a value away. -/
def Bars (c : Cache σ Extended) (state : σ) (depth : Nat) (v : Extended) : Prop :=
  ∃ t, c.get? state depth = some t ∧ t.admits v = false

/-- Once told, a value is turned away. -/
theorem bars_update_self (h : depth < c.layers.size) (ht : t.admits v = false) :
    (c.update state depth t).Bars state depth v := by
  unfold Bars get? Cache.update
  rw [Array.getElem?_modify, if_pos rfl, Array.getElem?_eq_getElem h, Option.map_some,
    Option.bind_some, Register.get?_put, if_pos (beq_self_eq_true state)]
  refine ⟨_, rfl, ?_⟩
  split
  · exact Threshold.admits_tighter (.inl ht)
  · exact ht

/-- It stays so whatever the cache is told. -/
theorem Bars.update (h : c.Bars state depth v) : (c.update other k t).Bars state depth v := by
  obtain ⟨u, hu, hadmits⟩ := h
  by_cases hk : depth = k
  · subst hk
    obtain ⟨layer, hlayer, hget⟩ := Option.bind_eq_some_iff.1 hu
    unfold Bars get? Cache.update
    rw [Array.getElem?_modify, if_pos rfl, hlayer, Option.map_some, Option.bind_some,
      Register.get?_put]
    split
    · rename_i hstate
      rw [← eq_of_beq hstate, hget]
      exact ⟨_, rfl, Threshold.admits_tighter (.inr hadmits)⟩
    · exact ⟨u, hget, hadmits⟩
  · exact ⟨u, (get?_update_of_ne hk).trans hu, hadmits⟩

end Cache

/-! ### What is turned away stays so -/

/-- A session that turns away all that another one does, over as many depths. -/
structure Session.Tightens [BEq σ] (s s' : Session σ κ Extended) : Prop where
  size : s'.cache.layers.size = s.cache.layers.size
  bars : ∀ state depth v, s.cache.Bars state depth v → s'.cache.Bars state depth v

section Visit

variable [BEq σ] [LawfulBEq σ]

namespace Session

variable {s s' s'' : Session σ κ Extended}

omit [LawfulBEq σ] in
theorem Tightens.of_cache_eq (h : s'.cache = s.cache) : s.Tightens s' :=
  ⟨congrArg (·.layers.size) h, fun _ _ _ hbars => h ▸ hbars⟩

omit [LawfulBEq σ] in
theorem Tightens.trans (h : s.Tightens s') (h' : s'.Tightens s'') : s.Tightens s'' :=
  ⟨h'.size.trans h.size, fun state depth v hbars => h'.bars _ _ _ (h.bars state depth v hbars)⟩

theorem tightens_remember (state : σ) (depth : Nat) (t : Threshold Extended) :
    s.Tightens (s.remember state depth t) :=
  ⟨Cache.size_layers_update, fun _ _ _ hbars => hbars.update⟩

/-- **Compiling only tightens thresholds.** -/
theorem Works.tightens [BEq κ] (h : s.Works s') : s.Tightens s' := by
  induction h with
  | refl => exact .of_cache_eq rfl
  | applied _ ih => exact ih.trans (.of_cache_eq rfl)
  | noted _ _ ih => exact ih.trans (.of_cache_eq rfl)
  | sorted _ _ _ _ ih => exact ih.trans (.of_cache_eq rfl)
  | checked _ _ _ _ _ ih => exact ih.trans (.of_cache_eq rfl)
  | remembered _ state depth t ih => exact ih.trans (tightens_remember state depth t)
  | resumed _ _ ih => exact ih.trans (.of_cache_eq rfl)

end Session

namespace Solver

variable [Hashable σ] [BEq κ] {s s' s₁ s₂ : Solver σ κ Extended} {P Q : Subproblem σ Extended}
  {cutoff : Cutoff Extended}

/-- **So does a visit.** -/
theorem Tackles.tightens (h : s.Tackles P s') : s.session.Tightens s'.session := by
  induction h with
  | start => exact .of_cache_eq rfl
  | marked _ ih => exact ih.trans (Session.tightens_remember _ _ _)
  | noted _ _ ih => exact ih.trans (.of_cache_eq rfl)
  | @compiled s' _ kind width ih =>
    exact ih.trans ((s'.request kind width P).compile_works s'.session).tightens
  | published _ value solution ih =>
    rcases publish_cases _ value solution with ⟨heq, _⟩ | ⟨v, path, _, _, _, heq⟩
    · rw [heq]
      exact ih
    · rw [heq]
      exact ih.trans (.of_cache_eq rfl)
  | drained _ ih => exact ih.trans (.of_cache_eq rfl)
  | opened _ _ ih => exact ih.trans (.of_cache_eq rfl)
  | measured _ ih => exact ih.trans (.of_cache_eq rfl)

/-- A solver that has no more use for a sub-problem: its depth was given up, or the cache
turns it away. -/
def Done (s : Solver σ κ Extended) (P : Subproblem σ Extended) : Prop :=
  P.depth < s.shallowest ∨ s.session.cache.Bars P.state P.depth P.value

omit [LawfulBEq σ] [Hashable σ] [BEq κ] in
/-- **What is let pass gains on what is done with.** -/
theorem Done.gains (h : s.Done P) (hQ : s.shallowest ≤ Q.depth)
    (hadmits : s.session.cache.admits Q = true) (hstate : P.state = Q.state)
    (hdepth : P.depth = Q.depth) : P.value < Q.value := by
  rcases h with hlt | ⟨t, ht, hbarred⟩
  · omega
  · unfold Cache.admits at hadmits
    rw [← hstate, ← hdepth, ht] at hadmits
    exact Threshold.lt_of_admits hbarred hadmits

theorem Done.tackles (h : s.Done P) (hs : s.Tallied) (hQ : s.shallowest ≤ Q.depth)
    (hvisit : s.Tackles Q s') : s'.Done P := by
  have hshallowest := (hvisit.tallied hs hQ).2
  unfold Done
  rw [hshallowest]
  exact h.imp_right (hvisit.tightens.bars _ _ _)

omit [LawfulBEq σ] [Hashable σ] [BEq κ] in
/-- Giving up depths does not bring anything back. -/
theorem Done.retireLayers (h : s.Done P) : s.retireLayers.Done P := by
  have htrim := s.trim_cache_retireLayers
  have hshallowest : s.retireLayers.shallowest = s.shallowest + s.idle := by
    rw [retireLayers_eq_forget]
  unfold Done
  rw [hshallowest]
  by_cases hdepth : P.depth < s.shallowest + s.idle
  · exact .inl hdepth
  · refine .inr ?_
    rcases h with hlt | ⟨t, ht, hbarred⟩
    · omega
    · refine ⟨t, ?_, hbarred⟩
      rw [← Cache.get?_trim (Nat.le_of_not_lt hdepth), htrim,
        Cache.get?_trim (Nat.le_of_not_lt hdepth)]
      exact ht

omit [LawfulBEq σ] [Hashable σ] [BEq κ] in
/-- Neither does taking up a sub-problem. -/
theorem Done.nextMove (h : s.Done P) (hmove : s.nextMove cutoff = (s₁, .explore Q)) :
    s₁.Done P := by
  obtain ⟨rest, _, _, rfl⟩ := takeUp_of_explore hmove
  exact h.retireLayers

/-- **A sub-problem that was explored is done with.** -/
theorem visit_done (hs : s.Tallied) (hP : s.shallowest ≤ P.depth)
    (huse : s.settings.useCache = true) (hadmits : s.session.cache.admits P = true)
    (hsize : P.depth < s.session.cache.layers.size) : (s.visit P).1.Done P := by
  unfold visit
  rw [if_pos huse, if_pos hadmits]
  have hmarked : Done
      { s with session := s.session.remember P.state P.depth ⟨P.value, true⟩ } P :=
    .inr (Cache.bars_update_self hsize (Threshold.admits_marked P.value))
  exact hmarked.tackles (hs.congr rfl rfl rfl rfl) hP (explore_tackles .start)

/-! ### Searching -/

omit [LawfulBEq σ] in
/-- Only what the cache lets pass is compiled. -/
theorem admits_of_outcomes (huse : s.settings.useCache = true)
    (h : (s.outcomes P).isEmpty = false) : s.session.cache.admits P = true := by
  unfold outcomes at h
  rw [if_pos huse] at h
  split at h
  · assumption
  · cases h

omit [BEq σ] [LawfulBEq σ] [Hashable σ] [BEq κ] in
theorem size_cache_nextMove (hmove : s.nextMove cutoff = (s₁, .explore P)) :
    s₁.session.cache.layers.size = s.session.cache.layers.size := by
  obtain ⟨rest, _, _, rfl⟩ := takeUp_of_explore hmove
  change s.retireLayers.session.cache.layers.size = _
  rw [← Cache.size_trim, s.trim_cache_retireLayers, Cache.size_trim]

/-- What holds of a search with the cache before each of its moves. -/
structure Keeping (s : Solver σ κ Extended) : Prop where
  tallied : s.Tallied
  level : s.Level s.variables
  focused : s.settings.model.problem.Focused
  useCache : s.settings.useCache = true
  size : s.session.cache.layers.size = s.variables + 1

/-- **One move of a search with the cache.** -/
theorem Keeping.visit (h : s.Keeping) (hmove : s.nextMove cutoff = (s₁, .explore P)) :
    (s₁.visit P).1.Keeping ∧ s₁.Tallied ∧ s₁.shallowest ≤ P.depth ∧
      (s₁.session.cache.admits P = true → (s₁.visit P).1.Done P) := by
  obtain ⟨hs₁, hP⟩ := h.tallied.nextMove hmove
  obtain ⟨hPlevel, hdeepens, hlevel⟩ := h.level.visit h.focused hmove
  have hsettings₁ := (nextMove_explore hmove).1
  have hsettings : (s₁.visit P).1.settings = s.settings := hdeepens.settings.trans hsettings₁
  have hsize₁ := (size_cache_nextMove hmove).trans h.size
  have htackles := s₁.visit_tackles P
  refine ⟨⟨(htackles.tallied hs₁ hP).1, ?_, ?_, ?_, ?_⟩, hs₁, hP, fun hadmits => ?_⟩
  · unfold Solver.variables
    rw [hsettings]
    exact hlevel
  · rw [hsettings]
    exact h.focused
  · rw [hsettings]
    exact h.useCache
  · unfold Solver.variables
    rw [hsettings, htackles.tightens.size]
    exact hsize₁
  · refine visit_done hs₁ hP (by rw [hsettings₁]; exact h.useCache) hadmits ?_
    rw [hsize₁]
    exact Nat.lt_succ_of_le hPlevel.depth_le

omit [BEq σ] [LawfulBEq σ] [Hashable σ] [BEq κ] in
theorem openRoot_keeping (s : Solver σ κ Extended) (sense : Sense)
    (huse : s.settings.useCache = true) (hfocus : s.settings.model.problem.Focused) :
    (s.openRoot sense).Keeping := by
  refine ⟨s.openRoot_tallied sense, s.openRoot_level sense, hfocus, huse, ?_⟩
  change (if s.settings.useCache then Cache.ofSize s.variables else Cache.off).layers.size = _
  rw [if_pos huse]
  exact Array.size_replicate

/-- Visits of which each that compiles gains on those before it, and on all that a solver is
done with: in the same state and at the same depth its value is greater. -/
structure Gaining (s : Solver σ κ Extended) (visits : List (Visit σ Extended)) : Prop where
  pairwise : (Visit.compiled visits).Pairwise fun P Q =>
    P.state = Q.state → P.depth = Q.depth → P.value < Q.value
  done : ∀ P, s.Done P → ∀ Q ∈ Visit.compiled visits,
    P.state = Q.state → P.depth = Q.depth → P.value < Q.value

omit [LawfulBEq σ] [Hashable σ] [BEq κ] in
theorem gaining_nil (s : Solver σ κ Extended) : s.Gaining [] :=
  ⟨.nil, fun _ _ _ hQ => absurd hQ List.not_mem_nil⟩

/-- **What is compiled next gains on what was done with before**, and is done with then. -/
theorem Gaining.cons {visits : List (Visit σ Extended)} (hs : s.Keeping)
    (hmove : s.nextMove cutoff = (s₁, .explore Q)) (h : (s₁.visit Q).1.Gaining visits) :
    s.Gaining (⟨Q, s₁.outcomes Q⟩ :: visits) := by
  obtain ⟨_, hs₁, hQ, hdone⟩ := hs.visit hmove
  have huse : s₁.settings.useCache = true := by
    rw [(nextMove_explore hmove).1]
    exact hs.useCache
  have hvisited : ∀ P, s.Done P → (s₁.visit Q).1.Done P := fun P hP =>
    (hP.nextMove hmove).tackles hs₁ hQ (s₁.visit_tackles Q)
  by_cases hskipped : (s₁.outcomes Q).isEmpty = true
  · have hcompiled : Visit.compiled (⟨Q, s₁.outcomes Q⟩ :: visits) = Visit.compiled visits := by
      rw [Visit.compiled_cons, if_pos hskipped]
    refine ⟨hcompiled ▸ h.pairwise, fun P hP => ?_⟩
    rw [hcompiled]
    exact h.done P (hvisited P hP)
  · have hcompiled : Visit.compiled (⟨Q, s₁.outcomes Q⟩ :: visits) =
        Q :: Visit.compiled visits := by
      rw [Visit.compiled_cons, if_neg hskipped]
    have hadmits := admits_of_outcomes huse (Bool.eq_false_iff.2 hskipped)
    refine ⟨?_, fun P hP R hR => ?_⟩
    · rw [hcompiled]
      exact List.pairwise_cons.2 ⟨h.done Q (hdone hadmits), h.pairwise⟩
    · rw [hcompiled] at hR
      rcases List.mem_cons.1 hR with rfl | hR
      · exact (hP.nextMove hmove).gains hQ hadmits
      · exact h.done P (hvisited P hP) R hR

/-- **All visits of a search do so.** -/
theorem searchBy_gaining (rounds : Nat) (h : s.Keeping) :
    s.Gaining (searchBy Solver.retireLayers cutoff rounds s).1 := by
  induction rounds generalizing s with
  | zero => exact gaining_nil s
  | succ rounds ih =>
    rw [searchBy, ← nextMove_eq_pick]
    rcases hmove : s.nextMove cutoff with ⟨s₁, move⟩
    cases move with
    | exhausted => exact gaining_nil s
    | stopped => exact gaining_nil s
    | explore Q =>
      have hkeeping := (h.visit hmove).1
      dsimp only
      rcases hvisit : s₁.visit Q with ⟨s₂, _ | fault⟩
      · rw [hvisit] at hkeeping
        exact .cons h hmove (hvisit ▸ ih hkeeping)
      · exact .cons h hmove (gaining_nil _)

/-- **No state is explored again without a gain.**  Of two sub-problems with the same state
and the same depth that are both compiled in the course of a search with the cache, the
later one has a greater value than the earlier one. -/
theorem solve_gains (s : Solver σ κ Extended) (rounds : Nat) (sense : Sense)
    (cutoff : Cutoff Extended) (huse : s.settings.useCache = true)
    (hfocus : s.settings.model.problem.Focused) :
    (s.solveBy Solver.retireLayers rounds sense cutoff).2 = s.solve rounds sense cutoff ∧
      (Visit.compiled (s.solveBy Solver.retireLayers rounds sense cutoff).1).Pairwise fun P Q =>
        P.state = Q.state → P.depth = Q.depth → P.value < Q.value := by
  refine ⟨(s.solve_eq_solveBy rounds sense cutoff).symm, ?_⟩
  rw [solveBy_visits]
  exact (searchBy_gaining rounds (s.openRoot_keeping sense huse hfocus)).pairwise

end Solver

end Visit

/-- Three picks, of which the second leads to the same two states whatever the first one is,
and a relaxation that promises more the less there is to gain. -/
def detourSettings : Settings Nat Unit Extended :=
  { twoPicksSettings true none with
    model :=
      { problem :=
          { «variables» := 3
            initialState := 0
            initialValue := 0
            transition := fun _ s d => (if s < 3 then 2 * d.var + 1 else 2 * s) + d.value.toNat
            cost := fun s d =>
              if s = 0 then finite (1 - d.value)
              else if s = 2 then finite 5
              else if d.var = 2 then finite d.value
              else 0
            domain := fun x _ => [⟨x, 0⟩, ⟨x, 1⟩] }
        relaxation :=
          { merge := fun _ => 9
            relax := fun parent _ _ _ _ =>
              if parent = 1 then finite 100
              else if parent = 2 then finite 30
              else if parent = 9 then 0
              else finite 50
            upperBound := fun _ _ => posInf
            lowerBound := fun _ _ => negInf } }
    checks := .off }

/-- Two states are explored again, each with a greater value. -/
theorem Solver.solve_gains_detour :
    let s := Solver.ofSettings detourSettings
    let compiled := Visit.compiled (s.solveBy Solver.retireLayers 20 .maximize Cutoff.never).1
    compiled.map (fun P => (P.state, P.depth, P.value)) =
        [(0, 0, 0), (1, 1, finite 1), (4, 2, finite 1), (3, 2, finite 1), (2, 1, 0),
          (4, 2, finite 5), (3, 2, finite 5)] ∧
      compiled.Pairwise fun P Q => P.state = Q.state → P.depth = Q.depth → P.value < Q.value := by
  intro s compiled
  have hfocus : s.settings.model.problem.Focused := by
    intro v _ d hd
    rcases List.mem_pair.1 hd with rfl | rfl
    · rfl
    · rfl
  exact ⟨by decide +kernel, (s.solve_gains 20 .maximize Cutoff.never rfl hfocus).2⟩

end DiagramSearch
