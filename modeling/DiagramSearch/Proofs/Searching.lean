/-
# The search as a whole

`Settings.Secured` is the invariant that makes the search optimal: while the
incumbent falls short, an open sub-problem carries the optimum, and every
threshold of the cache is backed.

* `Solver.visit_visits`: exploring or skipping a sub-problem keeps it;
* `Solver.search_ends`: **the search ends**, because all that a sub-problem is
  replaced by is deeper, and if nothing was lost on the way its incumbent is the
  optimum.
-/

import DiagramSearch.Proofs.Exploring
import Mathlib.Data.Multiset.DershowitzManna

namespace DiagramSearch

open Extended

variable {σ κ : Type} [BEq σ] {set : Settings σ κ Extended} {sense : Sense}
  {start : Solver σ κ Extended}

/-- An open sub-problem carries the optimum, and thresholds are backed. -/
structure Settings.Secured (set : Settings σ κ Extended) (sense : Sense)
    (safe : Nat → σ → Extended → Prop) (queue : List (Subproblem σ Extended))
    (cache : Cache σ Extended) : Prop where
  carried : Carried (set.oriented sense) set.branching safe queue 0
  backed : ∀ state k t, cache.get? state k = some t →
    Backs (set.oriented sense) set.branching safe queue state k t

/-! ### Visiting a sub-problem -/

section Visit

variable {safe : Nat → σ → Extended → Prop} {P : Subproblem σ Extended}
  {queue queue' : List (Subproblem σ Extended)} {cache cache' : Cache σ Extended}

/-- A sub-problem is closed once deeper ones carry what it carried. -/
theorem Settings.Secured.replace (h : set.Secured sense safe (P :: queue) cache)
    (hsub : ∀ N ∈ queue, N ∈ queue')
    (hP : safe P.depth P.state P.value → (set.oriented sense).total set.branching ≤ P.bound →
      Carried (set.oriented sense) set.branching safe queue' (P.depth + 1))
    (hcache : ∀ state k t, cache'.get? state k = some t → cache.get? state k = some t ∨
      Backs (set.oriented sense) set.branching safe queue' state k t) :
    set.Secured sense safe queue' cache' where
  carried := by
    obtain ⟨N, hN, hsafe, hbound, _⟩ := h.carried
    rcases List.mem_cons.1 hN with rfl | hN
    · exact (hP hsafe hbound).mono (fun _ h => h) (Nat.zero_le _)
    · exact ⟨N, hsub N hN, hsafe, hbound, Nat.zero_le _⟩
  backed state k t ht := by
    rcases hcache state k t ht with hold | hnew
    · exact (h.backed state k t hold).replace hsub hP
    · exact hnew

/-- The best bound leaves room for the optimum, since some open sub-problem does. -/
theorem Settings.Secured.le_bound (h : set.Secured sense safe (P :: queue) cache)
    (hsorted : BestFirst (P :: queue)) : (set.oriented sense).total set.branching ≤ P.bound := by
  obtain ⟨N, hN, _, hbound, _⟩ := h.carried
  rcases List.mem_cons.1 hN with rfl | hN
  · exact hbound
  · exact hbound.trans ((List.pairwise_cons.1 hsorted).1 N hN)

omit [BEq σ] in
/-- A value that a threshold does not admit is below it, or equal and explored. -/
theorem Threshold.admits_eq_false {t : Threshold Extended} {v : Extended}
    (h : t.admits v = false) : v ≤ t.value ∧ (v = t.value → t.explored = true) := by
  unfold Threshold.admits at h
  rw [Bool.or_eq_false_iff] at h
  refine ⟨le_of_not_gt fun hlt => ?_, fun heq => ?_⟩
  · rw [decide_eq_true hlt] at h
    cases h.1
  · have hbeq : (v == t.value) = true := decide_eq_true heq
    rw [hbeq, Bool.true_and, Bool.not_eq_false'] at h
    exact h.2

/-- **A sub-problem that the cache does not admit is carried by a deeper one.** -/
theorem Settings.Secured.carried_of_skipped (hset : set.Lawful sense)
    (hq : set.Quest sense safe) (h : set.Secured sense safe (P :: queue) cache)
    (hskip : cache.admits P = false) (hsafe : safe P.depth P.state P.value) :
    Carried (set.oriented sense) set.branching safe queue (P.depth + 1) := by
  unfold Cache.admits at hskip
  split at hskip
  · rename_i t ht
    obtain ⟨hle, hex⟩ := Threshold.admits_eq_false hskip
    have hreach := hq.thread.reach _ _ _ hsafe
    obtain ⟨_, hnext⟩ := h.backed _ _ t ht (hreach.trans (add_le_add_left hle _))
    refine (hnext ?_).tail (Nat.lt_succ_self _)
    rcases hle.lt_or_eq with hlt | heq
    · refine .inr (hreach.trans_lt (Problem.add_optimumFrom_lt hset.cost_oriented hlt ?_))
      intro hneg
      rw [hneg, add_negInf, le_negInf_iff] at hreach
      exact hq.thread.target_ne hreach
    · exact .inl (hex heq)
  · cases hskip

end Visit

section Run

variable [BEq κ]

/-- A solver before and after a sub-problem is visited. -/
structure Visits (set : Settings σ κ Extended) (sense : Sense) (start : Solver σ κ Extended)
    (P : Subproblem σ Extended) (s s' : Solver σ κ Extended) : Prop where
  steady : Steady set sense start s'
  queue : ∃ new, s'.queue.entries.Perm (new ++ s.queue.entries) ∧ ∀ N ∈ new, P.depth < N.depth
  lower : s.standing.lower ≤ s'.standing.lower
  events : ∀ e ∈ s.session.events, e ∈ s'.session.events
  secures : ∀ safe, set.Quest sense safe →
    Clean (set.oriented sense) set.branching safe (set.useCache = true) s'.session.events →
    s'.standing.lower < (set.oriented sense).total set.branching →
    (set.oriented sense).total set.branching ≤ P.bound →
    set.Secured sense safe (P :: s.queue.entries) s.session.cache →
      set.Secured sense safe s'.queue.entries s'.session.cache

variable {s s' : Solver σ κ Extended} {P : Subproblem σ Extended}

/-- Exploring a sub-problem keeps what was secured, also after the cache was told
of the sub-problem itself. -/
theorem Explores.visits {session : Session σ κ Extended}
    (h : Explores set sense start P { s with session } s')
    (htaught : s.session.Taught (fun state k t => set.useCache = true ∧ state = P.state ∧
      k = P.depth ∧ t = ⟨P.value, true⟩) session) : Visits set sense start P s s' where
  steady := h.steady
  queue := h.queue
  lower := h.lower
  events e he := by
    obtain ⟨new, hnew, _⟩ := htaught.journal
    refine h.events e ?_
    change e ∈ session.events
    rw [hnew]
    exact List.mem_append_right new he
  secures safe hq hclean hlower hbound hsec := by
    obtain ⟨new, hperm, _⟩ := h.queue
    have hdeeper : set.Deeper sense safe P.depth { s with session } := by
      intro state k t ht hk hreach
      rcases htaught.entries state k t ht with hold | ⟨_, _, rfl, _⟩
      · exact ((hsec.backed state k t hold hreach).1).tail hk
      · omega
    obtain ⟨hcarried, hbacked⟩ := h.resolves safe hq hclean hlower hbound hdeeper
    refine hsec.replace (fun N hN => hperm.mem_iff.2 (List.mem_append_right new hN))
      (fun hsafe _ => hcarried hsafe) fun state k t ht => ?_
    rcases hbacked state k t ht with hold | hnew
    · rcases htaught.entries state k t hold with hold | ⟨huse, rfl, rfl, rfl⟩
      · exact .inl hold
      · -- The sub-problem itself is now known to be explored.
        refine .inr fun hreach => ?_
        have hcar := hcarried (hq.loose huse _ _ _ hreach)
        exact ⟨hcar.mono (fun _ hN => hN) (Nat.le_succ _), fun _ => hcar⟩
    · exact .inr hnew

/-- Telling the cache of a sub-problem that is taken up. -/
theorem Steady.remember (hs : Steady set sense start s) (hcached : set.useCache = true)
    (P : Subproblem σ Extended) : Steady set sense start
      { s with session := s.session.remember P.state P.depth ⟨P.value, true⟩ } :=
  ⟨⟨hs.toGenuine, hs.settings, hs.admitted, hs.sorted,
    fun hf => by rw [hcached] at hf; cases hf⟩, hs.evolves.calm (Session.calm_remember _ _ _)⟩

variable [LawfulBEq σ] [Hashable σ]

/-- **Visiting a sub-problem keeps what was secured.** -/
theorem Solver.visit_visits (hset : set.Lawful sense) (hs : Steady set sense start s)
    (hP : set.Admits sense P) :
    (s.visit P).2 = none ∧ Visits set sense start P s (s.visit P).1 := by
  have huse : s.settings.useCache = set.useCache := by rw [hs.settings]
  unfold Solver.visit
  rw [huse]
  split
  · rename_i hcached
    split
    · have htaught : s.session.Taught (fun state k t => set.useCache = true ∧ state = P.state ∧
          k = P.depth ∧ t = ⟨P.value, true⟩)
          (s.session.remember P.state P.depth ⟨P.value, true⟩) :=
        Session.taught_remember ⟨hcached, rfl, rfl, rfl⟩
      obtain ⟨hfault, hexplores⟩ := Solver.explore_explores hset (hs.remember hcached P) hP
      exact ⟨hfault, hexplores.visits htaught⟩
    · rename_i hskip
      refine ⟨rfl, hs.quiet (Session.quiet_note _), ⟨[], .refl _, nofun⟩, le_rfl,
        fun e he => List.mem_cons_of_mem _ he, fun safe hq _ _ _ hsec => ?_⟩
      exact hsec.replace (fun _ hN => hN) (fun hsafe _ => hsec.carried_of_skipped hset hq
        (Bool.eq_false_iff.2 hskip) hsafe) fun _ _ _ ht => .inl ht
  · obtain ⟨hfault, hexplores⟩ := Solver.explore_explores hset hs hP
    have hsame : Explores set sense start P { s with session := s.session } (s.explore P).1 :=
      hexplores
    exact ⟨hfault, hsame.visits (.refl _ _)⟩

/-! ### The next move -/

omit [LawfulBEq σ] [Hashable σ] [BEq κ] in
/-- Forgetting thresholds loosens the cache and keeps its size. -/
theorem foldl_forget (depths : List Nat) (cache : Cache σ Extended) :
    (depths.foldl Cache.forget cache).layers.size = cache.layers.size ∧
      ∀ state k t, (depths.foldl Cache.forget cache).get? state k = some t →
        cache.get? state k = some t := by
  induction depths generalizing cache with
  | nil => exact ⟨rfl, fun _ _ _ h => h⟩
  | cons depth depths ih =>
    obtain ⟨hsize, hget⟩ := ih (cache.forget depth)
    exact ⟨hsize.trans Cache.size_layers_forget, fun state k t ht =>
      Cache.get?_forget (hget state k t ht)⟩

omit [LawfulBEq σ] [Hashable σ] [BEq κ] in
/-- What a search does next: it ends, since no open sub-problem beats the incumbent, or
it is told to stop, or it explores the first of them. -/
theorem Orderly.nextMove {Stands : Extended → Path → Prop} {Open : Subproblem σ Extended → Prop}
    (hs : Orderly set sense Stands Open s) (cutoff : Cutoff Extended) :
    s.session.Calm (s.nextMove cutoff).1.session ∧
    ((∃ s', s.nextMove cutoff = (s', .exhausted) ∧ Orderly set sense Stands Open s' ∧
      s'.standing.lower = s.standing.lower ∧ (∀ e ∈ s.session.events, e ∈ s'.session.events) ∧
      ∀ N ∈ s.queue.entries, N.bound ≤ s.standing.lower) ∨
    (∃ s', s.nextMove cutoff = (s', .stopped) ∧ Orderly set sense Stands Open s' ∧
      cutoff s'.statistics = true) ∨
    ∃ s' P, s.nextMove cutoff = (s', .explore P) ∧ Orderly set sense Stands Open s' ∧
      s.queue.entries = P :: s'.queue.entries ∧ s'.standing.lower = s.standing.lower ∧
      (∀ e ∈ s.session.events, e ∈ s'.session.events) ∧
      ∀ state k t, s'.session.cache.get? state k = some t →
        s.session.cache.get? state k = some t) := by
  obtain ⟨hsize, hcache⟩ := foldl_forget (List.range' s.shallowest s.idle) s.session.cache
  have hs₁ : Orderly set sense Stands Open s.retireLayers := by
    rw [Solver.retireLayers_eq_forget]
    exact ⟨hs.toGenuine, hs.settings, hs.admitted, hs.sorted,
      fun huse => hsize.trans (hs.uncached huse)⟩
  have hcalm : s.session.Calm s.retireLayers.session := by
    rw [Solver.retireLayers_eq_forget]
    exact ⟨rfl, [], rfl, fun _ _ _ _ => List.not_mem_nil⟩
  rw [Solver.retireLayers_eq_forget] at hs₁ hcalm
  rcases s.nextMove_cases cutoff with ⟨hempty, heq⟩ | ⟨P, rest, hqueue, hcases⟩
  · rw [heq, Solver.retireLayers_eq_forget]
    refine ⟨hcalm, .inl ⟨_, rfl, hs₁, rfl, fun _ he => he, ?_⟩⟩
    rw [hempty]
    exact nofun
  · obtain ⟨hfirst, hsorted⟩ := List.pairwise_cons.1 (hqueue ▸ hs.sorted)
    have hpopped := hcalm.trans (Session.quiet_record (e := .popped P) nofun).toCalm
    rcases hcases with ⟨hcut, heq⟩ | ⟨hbound, heq⟩ | ⟨_, heq⟩
    · rw [heq, Solver.retireLayers_eq_forget]
      exact ⟨hcalm, .inr (.inl ⟨_, rfl, hs₁, hcut⟩)⟩
    · rw [heq, Solver.retireLayers_eq_forget]
      refine ⟨hpopped.trans (Session.quiet_record nofun).toCalm, .inl ⟨_, rfl,
        ⟨⟨hs.facing, hs.incumbent⟩, hs.settings, nofun, .nil, hs₁.uncached⟩, rfl,
        fun e he => List.mem_cons_of_mem _ (List.mem_cons_of_mem _ he), fun N hN => ?_⟩⟩
      rw [hqueue] at hN
      rcases List.mem_cons.1 hN with rfl | hN
      · exact hbound
      · exact (hfirst N hN).trans hbound
    · rw [heq, Solver.retireLayers_eq_forget]
      refine ⟨hpopped, .inr (.inr ⟨_, P, rfl, ⟨⟨hs.facing, hs.incumbent⟩, hs.settings,
        fun N hN => ?_, hsorted, hs₁.uncached⟩, hqueue, rfl,
        fun e he => List.mem_cons_of_mem _ he, hcache⟩)⟩
      exact hs.admitted N (hqueue ▸ List.mem_cons_of_mem P hN)

omit [LawfulBEq σ] [Hashable σ] in
/-- The same of a search that began with a given solver. -/
theorem Steady.nextMove (hs : Steady set sense start s) (cutoff : Cutoff Extended) :
    (∃ s', s.nextMove cutoff = (s', .exhausted) ∧ Steady set sense start s' ∧
      s'.standing.lower = s.standing.lower ∧ (∀ e ∈ s.session.events, e ∈ s'.session.events) ∧
      ∀ N ∈ s.queue.entries, N.bound ≤ s.standing.lower) ∨
    (∃ s', s.nextMove cutoff = (s', .stopped) ∧ Steady set sense start s' ∧
      cutoff s'.statistics = true) ∨
    ∃ s' P, s.nextMove cutoff = (s', .explore P) ∧ Steady set sense start s' ∧
      s.queue.entries = P :: s'.queue.entries ∧ s'.standing.lower = s.standing.lower ∧
      (∀ e ∈ s.session.events, e ∈ s'.session.events) ∧
      ∀ state k t, s'.session.cache.get? state k = some t →
        s.session.cache.get? state k = some t := by
  obtain ⟨hcalm, hmove⟩ := hs.toOrderly.nextMove cutoff
  rcases hmove with ⟨s', hmove, hs', hrest⟩ | ⟨s', hmove, hs', hrest⟩ | ⟨s', P, hmove, hs', hrest⟩
  · rw [hmove] at hcalm
    exact .inl ⟨s', hmove, ⟨hs', hs.evolves.calm hcalm⟩, hrest⟩
  · rw [hmove] at hcalm
    exact .inr (.inl ⟨s', hmove, ⟨hs', hs.evolves.calm hcalm⟩, hrest⟩)
  · rw [hmove] at hcalm
    exact .inr (.inr ⟨s', P, hmove, ⟨hs', hs.evolves.calm hcalm⟩, hrest⟩)

/-! ### The whole search -/

omit [BEq σ] [BEq κ] [LawfulBEq σ] [Hashable σ] in
/-- An open sub-problem is at most as deep as there are variables. -/
theorem Settings.Admits.depth_le (hset : set.Lawful sense) {N : Subproblem σ Extended}
    (h : set.Admits sense N) : N.depth ≤ (set.oriented sense).variables := by
  obtain ⟨ds, _, hlen, hds⟩ := h.reached
  have hperm := (hds.wanders.map_var_perm hset.focused_oriented).length_eq
  rw [List.length_append, List.length_map, hlen] at hperm
  have hall : (Variables.all (set.oriented sense).variables).toList.length =
      (set.oriented sense).variables := List.length_range
  omega

/-- How far the open sub-problems are from the end, each on its own. -/
def Settings.load {V : Type} (set : Settings σ κ V) (queue : List (Subproblem σ V)) :
    Multiset Nat :=
  (queue : Multiset (Subproblem σ V)).map fun N => set.model.problem.variables - N.depth

omit [BEq σ] [BEq κ] [LawfulBEq σ] [Hashable σ] in
/-- **The load gets lighter when a sub-problem is replaced by deeper ones.** -/
theorem Settings.load_lt {V : Type} (set : Settings σ κ V) {P : Subproblem σ V}
    {queue queue' new : List (Subproblem σ V)} (hperm : queue'.Perm (new ++ queue))
    (hdeep : ∀ N ∈ new, P.depth < N.depth ∧ N.depth ≤ set.model.problem.variables) :
    Multiset.IsDershowitzMannaLT (set.load queue') (set.load (P :: queue)) := by
  refine ⟨set.load queue, set.load new, {set.model.problem.variables - P.depth},
    Multiset.singleton_ne_zero _, ?_, ?_, fun y hy => ?_⟩
  · rw [Settings.load, Multiset.coe_eq_coe.2 hperm, ← Multiset.coe_add, Multiset.map_add, add_comm]
    rfl
  · rw [Settings.load, ← Multiset.cons_coe, Multiset.map_cons, ← Multiset.singleton_add, add_comm]
    rfl
  · obtain ⟨N, hN, rfl⟩ := Multiset.mem_map.1 hy
    obtain ⟨hlt, hle⟩ := hdeep N hN
    exact ⟨_, Multiset.mem_singleton_self _, by omega⟩

omit [LawfulBEq σ] [Hashable σ] in
/-- A visit lightens the load. -/
theorem Visits.load_lt (hset : set.Lawful sense) (h : Visits set sense start P s s') :
    Multiset.IsDershowitzMannaLT (set.load s'.queue.entries)
      (set.load (P :: s.queue.entries)) := by
  obtain ⟨new, hperm, hdeep⟩ := h.queue
  refine set.load_lt hperm fun N hN => ⟨hdeep N hN, ?_⟩
  exact (h.steady.admitted N (hperm.mem_iff.2 (List.mem_append_left _ hN))).depth_le hset

/-- A solver before and after a search that had no solution to start from and was not
told to stop. -/
structure Ends (set : Settings σ κ Extended) (sense : Sense) (start : Solver σ κ Extended)
    (s s' : Solver σ κ Extended) : Prop where
  primal : start.primal = none
  steady : Steady set sense start s'
  events : ∀ e ∈ s.session.events, e ∈ s'.session.events
  /-- If nothing was lost on the way, the incumbent is the optimum. -/
  found : ∀ safe, set.Quest sense safe →
    Clean (set.oriented sense) set.branching safe (set.useCache = true) s'.session.events →
    (s.standing.lower < (set.oriented sense).total set.branching →
      set.Secured sense safe s.queue.entries s.session.cache) →
    (set.oriented sense).total set.branching ≤ s'.standing.lower

omit [LawfulBEq σ] [Hashable σ] in
/-- With nothing left that beats the incumbent, the incumbent is the optimum. -/
theorem Ends.of_beaten {s s' : Solver σ κ Extended} (hprimal : start.primal = none)
    (hs : Steady set sense start s')
    (hevents : ∀ e ∈ s.session.events, e ∈ s'.session.events)
    (hlower : s'.standing.lower = s.standing.lower)
    (hbeaten : ∀ N ∈ s.queue.entries, N.bound ≤ s.standing.lower) :
    Ends set sense start s s' where
  primal := hprimal
  steady := hs
  events := hevents
  found safe hq _ hsec := by
    rw [hlower]
    refine le_of_not_gt fun hlt => ?_
    obtain ⟨N, hN, _, hbound, _⟩ := (hsec hlt).carried
    exact absurd (hbound.trans (hbeaten N hN)) (not_le.2 hlt)

omit [LawfulBEq σ] [Hashable σ] in
/-- A visit may come first. -/
theorem Ends.after_visit {s s₁ s₂ s' : Solver σ κ Extended} {P : Subproblem σ Extended}
    (hs : Steady set sense start s) (hqueue : s.queue.entries = P :: s₁.queue.entries)
    (hlower : s₁.standing.lower = s.standing.lower)
    (hevents : ∀ e ∈ s.session.events, e ∈ s₁.session.events)
    (hcache : ∀ state k t, s₁.session.cache.get? state k = some t →
      s.session.cache.get? state k = some t)
    (hv : Visits set sense start P s₁ s₂) (h : Ends set sense start s₂ s') :
    Ends set sense start s s' where
  primal := h.primal
  steady := h.steady
  events e he := h.events e (hv.events e (hevents e he))
  found safe hq hclean hsec := by
    refine h.found safe hq hclean fun hlt => ?_
    have hsecured := hsec (hlower ▸ hv.lower.trans_lt hlt)
    rw [hqueue] at hsecured
    have hroom := hsecured.le_bound (hqueue ▸ hs.sorted)
    exact hv.secures safe hq (hclean.mono h.events) hlt hroom
      ⟨hsecured.carried, fun state k t ht => hsecured.backed state k t (hcache state k t ht)⟩

/-- **A search that is not told to stop ends, and its incumbent is the optimum if
nothing was lost on the way.** -/
theorem Solver.search_ends (hset : set.Lawful sense) (hprimal : start.primal = none)
    (s : Solver σ κ Extended) (hs : Steady set sense start s) : ∃ s' enough,
      Ends set sense start s s' ∧
      ∀ rounds, enough ≤ rounds → search Cutoff.never rounds s = (s', some .exhausted) := by
  have hwf : WellFounded (Multiset.IsDershowitzMannaLT : Multiset Nat → Multiset Nat → Prop) :=
    Multiset.wellFounded_isDershowitzMannaLT
  induction hload : set.load s.queue.entries using hwf.induction generalizing s with
  | h load ih =>
    rcases hs.nextMove Cutoff.never with ⟨s', hmove, hs', hlower, hevents, hbeaten⟩ |
      ⟨s', _, _, hcut⟩ | ⟨s₁, P, hmove, hs₁, hqueue, hlower, hevents, hcache⟩
    · refine ⟨s', 1, .of_beaten hprimal hs' hevents hlower hbeaten, fun rounds hrounds => ?_⟩
      obtain ⟨n, rfl⟩ := Nat.exists_eq_add_of_le' hrounds
      rw [search, hmove]
    · cases hcut
    · have hP : set.Admits sense P := hs.admitted P (hqueue ▸ List.mem_cons_self)
      obtain ⟨hfault, hv⟩ := Solver.visit_visits hset hs₁ hP
      obtain ⟨s', enough, hends, hsearch⟩ :=
        ih _ (by rw [← hload, hqueue]; exact hv.load_lt hset) _ hv.steady rfl
      refine ⟨s', enough + 1, .after_visit hs hqueue hlower hevents hcache hv hends,
        fun rounds hrounds => ?_⟩
      obtain ⟨n, rfl⟩ := Nat.exists_eq_add_of_le' (Nat.le_of_add_left_le hrounds)
      have hvisit : s₁.visit P = ((s₁.visit P).1, none) := Prod.ext rfl hfault
      rw [search, hmove]
      dsimp only
      rw [hvisit]
      exact hsearch n (by omega)

end Run
end DiagramSearch
