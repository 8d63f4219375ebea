/-
# Exploring a sub-problem

`Orderly` is what holds of a solver at every moment of a search, whatever is
pruned: its incumbent is one that a path stands for, and its open sub-problems are
of a given kind and stand in order.  `Steady` says of which kind they are: reached
by trails, as the incumbent is, and the dominance table was only asked about pairs
that trails lead to.

`Explores` relates the solver before and after a sub-problem is explored.  All
that is opened is deeper than it, and if the incumbent still falls short of the
optimum, what the sub-problem carried is carried on (`Explores.resolves`).

* `Solver.explore_explores`: **exploring a sub-problem of a lawful model meets no
  fault and keeps the search going in this sense.**
-/

import DiagramSearch.Proofs.Queueing

namespace DiagramSearch

open Extended

variable {σ κ : Type}

/-! ### Lawful settings -/

/-- The problem whose maximisation answers the question. -/
abbrev Settings.oriented (set : Settings σ κ Extended) (sense : Sense) : Problem σ Extended :=
  (set.model.orient sense).problem

/-- What is asked of the settings of a search. -/
structure Settings.Lawful (set : Settings σ κ Extended) (sense : Sense) : Prop where
  isPure : set.model.problem.Pure
  focused : set.model.problem.Focused
  finite_cost : ∀ s d, Value.isFinite (set.model.problem.cost s d) = true
  finite_start : Value.isFinite set.model.problem.initialValue = true
  static : set.branching.Static
  total : set.branching.Total
  sound : (set.model.orient sense).Sound set.branching
  bestFirst : ∃ ranking, set.queueOrder = Subproblem.byBound ranking

/-- What no check finds fault with, whatever the queue is ordered by and the search starts
from. -/
structure Settings.Regular (set : Settings σ κ Extended) (sense : Sense) : Prop where
  isPure : set.model.problem.Pure
  focused : set.model.problem.Focused
  finite_cost : ∀ s d, Value.isFinite (set.model.problem.cost s d) = true
  static : set.branching.Static
  sound : (set.model.orient sense).Sound set.branching

theorem Settings.Lawful.regular {set : Settings σ κ Extended} {sense : Sense}
    (h : set.Lawful sense) : set.Regular sense :=
  ⟨h.isPure, h.focused, h.finite_cost, h.static, h.sound⟩

theorem Settings.Lawful.focused_oriented {set : Settings σ κ Extended} {sense : Sense}
    (h : set.Lawful sense) : (set.oriented sense).Focused := h.focused

theorem Settings.Regular.cost_oriented {set : Settings σ κ Extended} {sense : Sense}
    (h : set.Regular sense) (s : σ) (d : Decision) :
    Value.isFinite ((set.oriented sense).cost s d) = true := by
  change Value.isFinite (sense.orient _) = true
  rw [Sense.isFinite_orient]
  exact h.finite_cost s d

theorem Settings.Lawful.cost_oriented {set : Settings σ κ Extended} {sense : Sense}
    (h : set.Lawful sense) (s : σ) (d : Decision) :
    Value.isFinite ((set.oriented sense).cost s d) = true :=
  h.regular.cost_oriented s d

theorem Settings.Lawful.start_oriented {set : Settings σ κ Extended} {sense : Sense}
    (h : set.Lawful sense) : Value.isFinite (set.oriented sense).initialValue = true := by
  change Value.isFinite (sense.orient _) = true
  rw [Sense.isFinite_orient]
  exact h.finite_start

/-! ### Solutions -/

/-- A path, put back in order, is a trail to the end of a given value. -/
def Problem.Completes (p : Problem σ Extended) (b : Branching σ) (v : Extended) (path : Path) :
    Prop :=
  ∃ ds s free, ds.Perm path ∧
    p.Leads b (.all p.variables) p.initialState p.initialValue ds free s v ∧ b free [] = none

theorem Problem.Completes.le_total {p : Problem σ Extended} {b : Branching σ} {v : Extended}
    {path : Path} (h : p.Completes b v path) : v ≤ p.total b := by
  obtain ⟨ds, s, free, _, hds, hnone⟩ := h
  have hle := hds.add_optimum_le
  rwa [Problem.optimum_of_none hnone, add_zero] at hle

theorem Request.Traced.completes {r : Request σ κ Extended}
    (h : r.residual.Reached r.model.problem r.branching) {i : Nat} {ds : Path} {s : σ}
    {v : Extended} (hds : r.Traced i ds s v) (hnone : r.branching (r.freeAt i) [] = none) :
    r.model.problem.Completes r.branching v (r.residual.path ++ ds) := by
  obtain ⟨es, hperm, _, hes⟩ := h
  refine ⟨ds ++ es, s, r.freeAt i, ?_, hes.trans hds.2, hnone⟩
  exact List.perm_append_comm.trans (hperm.append_right ds)

/-! ### What holds at every moment -/

variable [BEq σ] [BEq κ] {set : Settings σ κ Extended} {sense : Sense}
  {start : Solver σ κ Extended}

/-- A sub-problem that may be open. -/
structure Settings.Admits (set : Settings σ κ Extended) (sense : Sense)
    (N : Subproblem σ Extended) : Prop where
  reached : N.Reached (set.oriented sense) set.branching
  entered : set.branching (set.branching.freeAt (.all (set.oriented sense).variables) N.depth) [] =
    none → N.bound = posInf

/-- A solver with given settings that searches in a given sense. -/
structure Solver.Poses (set : Settings σ κ Extended) (sense : Sense)
    (s : Solver σ κ Extended) : Prop where
  settings : s.settings = set
  facing : s.standing.sense = sense

namespace Solver.Poses

variable {s : Solver σ κ Extended} {P : Subproblem σ Extended} {kind : Kind} {width : Nat}

omit [BEq σ] [BEq κ] in
theorem request_regular (hs : s.Poses set sense) (hset : set.Regular sense) (kind : Kind)
    (width : Nat) (P : Subproblem σ Extended) : (s.request kind width P).Regular := by
  obtain rfl := hs.settings
  obtain rfl := hs.facing
  exact ⟨hset.isPure, hset.cost_oriented, hset.static, hset.sound⟩

omit [BEq σ] [BEq κ] in
theorem request_entered (hs : s.Poses set sense) (hP : set.Admits sense P) (kind : Kind)
    (width : Nat) : (s.request kind width P).Entered := by
  obtain rfl := hs.settings
  obtain rfl := hs.facing
  intro hnone
  refine hP.entered ?_
  have hfree := Request.freeAt_eq (r := s.request kind width P) hP.reached 0
  rw [hfree] at hnone
  exact hnone

/-- **What is handed out may be open.** -/
theorem admits_handOut (hs : s.Poses set sense) (hset : set.Regular sense)
    (hP : set.Admits sense P) {c : Compiled σ κ Extended}
    (hc : Compiles (s.request .relaxed width P) s.session c) {z : Subproblem σ Extended}
    (hz : z ∈ c.diagram.handOut.1) (bound : Extended) :
    set.Admits sense { z with bound } ∧ P.depth < z.depth := by
  obtain ⟨mid, _, _, he⟩ := hc
  obtain ⟨i, ds, h0, htraced, hpath, hdepth, hbranch⟩ := he.mem_handOut (.inl rfl) hz
  obtain rfl := hs.settings
  obtain rfl := hs.facing
  refine ⟨⟨?_, fun hnone => ?_⟩, ?_⟩
  · have hfocused : (s.settings.oriented s.standing.sense).Focused := hset.focused
    refine hP.reached.extend hfocused htraced.2 rfl rfl hpath ?_
    change z.depth = _
    rw [hdepth, htraced.1]
    rfl
  · have hfree := Request.freeAt_eq (r := s.request .relaxed width P) hP.reached i
    change s.settings.branching (s.settings.branching.freeAt _ z.depth) [] = none at hnone
    rw [hdepth] at hnone
    rw [hfree] at hbranch
    exact absurd hnone hbranch
  · have hlt : P.depth < P.depth + i := Nat.lt_add_of_pos_right h0
    exact hlt.trans_eq hdepth.symm

variable [LawfulBEq σ] [Hashable σ]

/-- **A sub-problem that may be open compiles without a fault.** -/
theorem compiles (hs : s.Poses set sense) (hset : set.Regular sense) (hP : set.Admits sense P)
    (kind : Kind) (width : Nat) :
    Compiles (s.request kind width P) s.session ((s.request kind width P).compile s.session) := by
  have hregular := hs.request_regular hset kind width P
  have hfocused : (s.request kind width P).model.problem.Focused := by
    obtain rfl := hs.settings
    exact hset.focused
  obtain ⟨report, hok⟩ := Request.exists_compile_ok hregular (fun _ _ => hfocused)
    (fun _ _ => hs.request_entered hP kind width) s.session
  exact Request.compile_compiles hregular s.session hok

theorem compile_eq (hs : s.Poses set sense) (hset : set.Regular sense) (hP : set.Admits sense P)
    (kind : Kind) (width : Nat) : ∃ c,
    Compiles (s.request kind width P) s.session c ∧ s.compile kind width P =
      ({ s with session := c.session, diagram := c.diagram },
        .ok ⟨c.diagram.isExact, c.diagram.bestValue⟩) := by
  have hc := hs.compiles hset hP kind width
  obtain ⟨mid, _, _, he⟩ := id hc
  refine ⟨_, hc, ?_⟩
  unfold Solver.compile
  dsimp only
  rw [he.outcome]

end Solver.Poses

/-- A value that a path stands for: the path is a solution of that value, or it was
given with the value of some solution at the outset. -/
def Settings.Vouches (set : Settings σ κ Extended) (sense : Sense)
    (primal : Option (Extended × Path)) (v : Extended) (path : Path) : Prop :=
  (set.oriented sense).Completes set.branching v path ∨
    primal = some (sense.orient v, path) ∧
      ∃ path', (set.oriented sense).Completes set.branching v path'

omit [BEq σ] [BEq κ] in
theorem Settings.Vouches.exists_completes {primal : Option (Extended × Path)} {v : Extended}
    {path : Path} (h : set.Vouches sense primal v path) :
    ∃ path', (set.oriented sense).Completes set.branching v path' :=
  h.elim (fun h => ⟨path, h⟩) And.right

omit [BEq σ] [BEq κ] in
theorem Settings.Vouches.le_total {primal : Option (Extended × Path)} {v : Extended}
    {path : Path} (h : set.Vouches sense primal v path) :
    v ≤ (set.oriented sense).total set.branching := by
  obtain ⟨_, hcompletes⟩ := h.exists_completes
  exact hcompletes.le_total

/-- A standing whose incumbent is a value that a path stands for, if it has one. -/
structure Standing.Genuine (p : Standing Extended) (sense : Sense)
    (Stands : Extended → Path → Prop) : Prop where
  facing : p.sense = sense
  incumbent : (p.lower = negInf ∧ p.solution = none) ∨
    ∃ path, p.solution = some path ∧ Stands p.lower path

/-- A solver in the course of a search: its incumbent is genuine, its open sub-problems
are of a given kind and stand in order, and it remembers nothing unless it may. -/
structure Orderly (set : Settings σ κ Extended) (sense : Sense)
    (Stands : Extended → Path → Prop) (Open : Subproblem σ Extended → Prop)
    (s : Solver σ κ Extended) : Prop extends s.standing.Genuine sense Stands where
  settings : s.settings = set
  admitted : ∀ N ∈ s.queue.entries, Open N
  sorted : BestFirst s.queue.entries
  uncached : set.useCache = false → s.session.cache.layers.size = 0

section Orderly

variable {Stands : Extended → Path → Prop} {Open : Subproblem σ Extended → Prop}
  {s s' : Solver σ κ Extended}

/-- If all such values are at most the optimum, so is the incumbent. -/
theorem Standing.Genuine.lower_le {p : Standing Extended} (h : p.Genuine sense Stands)
    {total : Extended} (hle : ∀ v path, Stands v path → v ≤ total) : p.lower ≤ total := by
  rcases h.incumbent with ⟨hlower, _⟩ | ⟨path, _, hstands⟩
  · rw [hlower]
    exact negInf_le _
  · exact hle _ path hstands

omit [BEq σ] [BEq κ] in
/-- A solution may be published. -/
theorem Standing.Genuine.published (h : s.standing.Genuine sense Stands)
    {value : Option Extended} {solution : Option Path} (hpub : Published s value solution s')
    (hvalue : ∀ v path, value = some v → solution = some path → Stands v path) :
    s'.standing.Genuine sense Stands where
  facing := hpub.sense.trans h.facing
  incumbent := by
    rcases hpub.source with ⟨hlower, hsol⟩ | ⟨v, path, hv, hpath, hlower, hsol⟩
    · rw [hlower, hsol]
      exact h.incumbent
    · refine .inr ⟨path, hsol, ?_⟩
      rw [hlower]
      exact hvalue v path hv hpath

namespace Orderly

omit [BEq σ] [BEq κ] in
/-- What a session is told changes nothing, unless the cache gets layers. -/
theorem session (hs : Orderly set sense Stands Open s) {session : Session σ κ Extended}
    (h : session.cache.layers.size = s.session.cache.layers.size) :
    Orderly set sense Stands Open { s with session } :=
  ⟨hs.toGenuine, hs.settings, hs.admitted, hs.sorted, fun hc => h.trans (hs.uncached hc)⟩

omit [BEq σ] [BEq κ] in
theorem published (hs : Orderly set sense Stands Open s) {value : Option Extended}
    {solution : Option Path} (h : Published s value solution s')
    (hvalue : ∀ v path, value = some v → solution = some path → Stands v path) :
    Orderly set sense Stands Open s' where
  toGenuine := hs.toGenuine.published h hvalue
  settings := h.settings.trans hs.settings
  admitted := by rw [h.queue]; exact hs.admitted
  sorted := by rw [h.queue]; exact hs.sorted
  uncached hc := by rw [h.session.cache]; exact hs.uncached hc

omit [BEq σ] [BEq κ] in
theorem opened (horder : ∃ ranking, set.queueOrder = Subproblem.byBound ranking)
    (hs : Orderly set sense Stands Open s) {bound : Extended}
    {subs : List (Subproblem σ Extended)} (h : Opened bound subs s s')
    (hsubs : ∀ z ∈ subs, Open { z with bound := min bound z.bound }) :
    Orderly set sense Stands Open s' where
  facing := h.sense.trans hs.facing
  incumbent := by rw [h.lower, h.solution]; exact hs.incumbent
  settings := h.settings.trans hs.settings
  admitted := h.forall_entries hs.admitted hsubs
  sorted := h.sorted (by rw [hs.settings]; exact horder) hs.sorted
  uncached hc := by rw [h.session.cache]; exact hs.uncached hc

end Orderly
end Orderly

/-- A solver in the course of a search that began with a given one: its incumbent is a
solution, its open sub-problems are reached by trails, and its dominance table was only
asked about pairs that trails lead to. -/
structure Steady (set : Settings σ κ Extended) (sense : Sense) (start : Solver σ κ Extended)
    (s : Solver σ κ Extended) : Prop extends
    Orderly set sense (set.Vouches sense start.primal) (set.Admits sense) s where
  evolves : start.session.Evolves set.dominance ((set.oriented sense).Reaches set.branching)
    s.session

namespace Steady

variable {s s' : Solver σ κ Extended} {P : Subproblem σ Extended}

/-- Reports change nothing that matters. -/
theorem quiet (hs : Steady set sense start s) {session : Session σ κ Extended}
    (h : s.session.Quiet session) : Steady set sense start { s with session } :=
  ⟨hs.toOrderly.session (by rw [h.cache]), hs.evolves.calm h.toCalm⟩

theorem poses (hs : Steady set sense start s) : s.Poses set sense := ⟨hs.settings, hs.facing⟩

theorem request_regular (hset : set.Lawful sense) (hs : Steady set sense start s) (kind : Kind)
    (width : Nat) (P : Subproblem σ Extended) : (s.request kind width P).Regular :=
  hs.poses.request_regular hset.regular kind width P

theorem request_entered (hs : Steady set sense start s) (hP : set.Admits sense P) (kind : Kind)
    (width : Nat) : (s.request kind width P).Entered :=
  hs.poses.request_entered hP kind width

theorem published (hs : Steady set sense start s) {value : Option Extended}
    {solution : Option Path} (h : Published s value solution s')
    (hvalue : ∀ v path, value = some v → solution = some path →
      (set.oriented sense).Completes set.branching v path) : Steady set sense start s' :=
  ⟨hs.toOrderly.published h fun v path hv hpath => .inl (hvalue v path hv hpath),
    hs.evolves.calm h.session.toCalm⟩

theorem opened (hset : set.Lawful sense) (hs : Steady set sense start s) {bound : Extended}
    {subs : List (Subproblem σ Extended)} (h : Opened bound subs s s')
    (hsubs : ∀ z ∈ subs, set.Admits sense { z with bound := min bound z.bound }) :
    Steady set sense start s' :=
  ⟨hs.toOrderly.opened hset.bestFirst h hsubs, hs.evolves.calm h.session.toCalm⟩

/-- Compiling keeps the search steady. -/
theorem compiled (hs : Steady set sense start s) (hP : set.Admits sense P) {kind : Kind}
    {width : Nat} {c : Compiled σ κ Extended} (hc : Compiles (s.request kind width P) s.session c) :
    Steady set sense start { s with session := c.session, diagram := c.diagram } := by
  obtain ⟨mid, hevolves, hcache, he⟩ := hc
  have hsize := he.taught.size
  rw [hcache] at hsize
  refine ⟨⟨hs.toGenuine, hs.settings, hs.admitted, hs.sorted, fun huse => ?_⟩, ?_⟩
  · exact hsize.trans (hs.uncached huse)
  · obtain rfl := hs.settings
    obtain rfl := hs.facing
    refine (hs.evolves.trans (hevolves.mono fun state k v h => ?_)).calm he.taught.toCalm
    exact Request.Attains.reaches (r := s.request kind width P) hP.reached h

end Steady

/-! ### Before and after -/

/-- Which pairs are followed through a search: with a cache, all that can reach
the optimum. -/
structure Settings.Quest (set : Settings σ κ Extended) (sense : Sense)
    (safe : Nat → σ → Extended → Prop) : Prop where
  thread : (set.oriented sense).Thread set.branching ((set.oriented sense).total set.branching) safe
  loose : set.useCache = true → ∀ k s v, (set.oriented sense).total set.branching ≤
    v + (set.oriented sense).optimumFrom set.branching k s → safe k s v

/-- Thresholds below a depth are backed by open sub-problems. -/
def Settings.Deeper (set : Settings σ κ Extended) (sense : Sense)
    (safe : Nat → σ → Extended → Prop) (depth : Nat) (s : Solver σ κ Extended) : Prop :=
  ∀ state k t, s.session.cache.get? state k = some t → depth < k →
    (set.oriented sense).total set.branching ≤
        t.value + (set.oriented sense).optimumFrom set.branching k state →
      Carried (set.oriented sense) set.branching safe s.queue.entries k

/-- A solver before and after a sub-problem is explored. -/
structure Explores (set : Settings σ κ Extended) (sense : Sense) (start : Solver σ κ Extended)
    (P : Subproblem σ Extended) (s s' : Solver σ κ Extended) : Prop where
  steady : Steady set sense start s'
  queue : ∃ new, s'.queue.entries.Perm (new ++ s.queue.entries) ∧ ∀ N ∈ new, P.depth < N.depth
  lower : s.standing.lower ≤ s'.standing.lower
  events : ∀ e ∈ s.session.events, e ∈ s'.session.events
  /-- What the sub-problem carried is carried on, and new thresholds are backed. -/
  resolves : ∀ safe, set.Quest sense safe →
    Clean (set.oriented sense) set.branching safe (set.useCache = true) s'.session.events →
    s'.standing.lower < (set.oriented sense).total set.branching →
    (set.oriented sense).total set.branching ≤ P.bound → set.Deeper sense safe P.depth s →
      (safe P.depth P.state P.value →
        Carried (set.oriented sense) set.branching safe s'.queue.entries (P.depth + 1)) ∧
      ∀ state k t, s'.session.cache.get? state k = some t →
        s.session.cache.get? state k = some t ∨
          Backs (set.oriented sense) set.branching safe s'.queue.entries state k t

/-- A step that opens nothing and teaches nothing may come first. -/
theorem Explores.after {P : Subproblem σ Extended} {s s₁ s' : Solver σ κ Extended}
    (h : Explores set sense start P s₁ s') (hqueue : s₁.queue = s.queue)
    (hlower : s.standing.lower ≤ s₁.standing.lower)
    (hevents : ∀ e ∈ s.session.events, e ∈ s₁.session.events)
    (hcache : ∀ state k t, s₁.session.cache.get? state k = some t →
      s.session.cache.get? state k = some t) : Explores set sense start P s s' where
  steady := h.steady
  queue := by rw [← hqueue]; exact h.queue
  lower := hlower.trans h.lower
  events e he := h.events e (hevents e he)
  resolves safe hq hclean hlow hbound hdeeper := by
    obtain ⟨hcarried, hbacked⟩ := h.resolves safe hq hclean hlow hbound fun state k t ht => by
      rw [hqueue]
      exact hdeeper state k t (hcache state k t ht)
    exact ⟨hcarried, fun state k t ht => (hbacked state k t ht).imp_left (hcache state k t)⟩

section Explore

variable {s s' : Solver σ κ Extended} {P : Subproblem σ Extended} {kind : Kind} {width : Nat}
  {c : Compiled σ κ Extended} {safe : Nat → σ → Extended → Prop}

/-- A compilation in the course of a search whose incumbent falls short. -/
theorem Steady.pursues (hset : set.Lawful sense) (hs : Steady set sense start s)
    (hP : set.Admits sense P) (hq : set.Quest sense safe)
    (hfine : kind = .relaxed ∨ c.diagram.isExact = true) {queue : List (Subproblem σ Extended)}
    (hlower : s.standing.lower < (set.oriented sense).total set.branching)
    (hmissed : ∀ v, c.diagram.bestExactValue = some v →
      v < (set.oriented sense).total set.branching)
    (hopened : ∀ {safe' k j z}, Emits (s.request kind width P) c.diagram
      ((set.oriented sense).total set.branching) safe' k j z → ∃ N ∈ queue, N.state = z.state ∧
        N.value = z.longest ∧ N.depth = P.depth + k ∧
          (set.oriented sense).total set.branching ≤ N.bound)
    (hdeeper : set.Deeper sense safe P.depth s) (hsub : ∀ N ∈ s.queue.entries, N ∈ queue)
    (hclean : Clean (set.oriented sense) set.branching safe (set.useCache = true)
      c.session.events) :
    Pursues (s.request kind width P) s.session c (set.oriented sense) set.branching safe
      (set.useCache = true) queue where
  regular := hs.request_regular hset kind width P
  entered := hs.request_entered hP kind width
  problem := by
    obtain rfl := hs.settings
    obtain rfl := hs.facing
    rfl
  branching := by
    obtain rfl := hs.settings
    rfl
  reached := hP.reached
  fine := hfine
  thread := hq.thread
  beaten := hlower
  missed := hmissed
  opened := hopened
  deeper state k t ht hk hreach := (hdeeper state k t ht hk hreach).mono hsub le_rfl
  clean := hclean
  mode hsize := by
    have huse : set.useCache = true := by
      rw [← Bool.not_eq_false]
      exact fun hfalse => hsize (hs.uncached hfalse)
    exact ⟨huse, hq.loose huse⟩

/-- A value that a compilation tells, and that can be relied on, is that of a
solution. -/
theorem Steady.completes_best (hs : Steady set sense start s) (hP : set.Admits sense P)
    (hc : Compiles (s.request kind width P) s.session c)
    (htrust : kind ≠ .relaxed ∨ c.diagram.isExact = true) {v : Extended} {path : Path}
    (hv : c.diagram.bestValue = some v) (hpath : c.diagram.bestSolution = some path) :
    (set.oriented sense).Completes set.branching v path := by
  obtain ⟨mid, _, _, he⟩ := hc
  obtain ⟨i, ds, state, hsol, htraced, hnone⟩ := he.traced_best htrust hv
  obtain rfl := Option.some.inj (hpath.symm.trans hsol)
  obtain rfl := hs.settings
  obtain rfl := hs.facing
  exact Request.Traced.completes (r := s.request kind width P) hP.reached htraced hnone

/-- So is the value of its best exact node. -/
theorem Steady.completes_bestExact (hs : Steady set sense start s) (hP : set.Admits sense P)
    (hc : Compiles (s.request kind width P) s.session c) {v : Extended} {path : Path}
    (hv : c.diagram.bestExactValue = some v) (hpath : c.diagram.bestExactSolution = some path) :
    (set.oriented sense).Completes set.branching v path := by
  obtain ⟨mid, _, _, he⟩ := hc
  obtain ⟨i, ds, state, hsol, htraced, hnone⟩ := he.traced_bestExact hv
  obtain rfl := Option.some.inj (hpath.symm.trans hsol)
  obtain rfl := hs.settings
  obtain rfl := hs.facing
  exact Request.Traced.completes (r := s.request kind width P) hP.reached htraced hnone

omit [BEq κ] in
/-- A value that was published is at most the new lower bound. -/
theorem Published.le_of_value {r : Request σ κ Extended} {session : Session σ κ Extended}
    {s₁ : Solver σ κ Extended} (he : Evaluated r session c)
    (htrust : r.kind ≠ .relaxed ∨ c.diagram.isExact = true)
    (hpub : Published s₁ c.diagram.bestValue c.diagram.bestSolution s') {v : Extended}
    (hv : c.diagram.bestValue = some v) : v ≤ s'.standing.lower := by
  obtain ⟨i, ds, state, hsol, _⟩ := he.traced_best htrust hv
  exact hpub.better v _ hv hsol

/-- **An exact diagram settles a sub-problem.** -/
theorem Steady.explores_of_exact (hset : set.Lawful sense) (hs : Steady set sense start s)
    (hP : set.Admits sense P) (hc : Compiles (s.request kind width P) s.session c)
    (hexact : c.diagram.isExact = true)
    (hpub : Published { s with session := c.session, diagram := c.diagram } c.diagram.bestValue
      c.diagram.bestSolution s') : Explores set sense start P s s' := by
  obtain ⟨mid, hevolves, hcache, he⟩ := id hc
  have hevents : ∀ e ∈ c.session.events, e ∈ s'.session.events := by
    obtain ⟨new, hnew, _⟩ := hpub.session.journal
    exact fun e hmem => by rw [hnew]; exact List.mem_append_right new hmem
  refine ⟨(hs.compiled hP hc).published hpub fun v path => hs.completes_best hP hc (.inr hexact),
    ⟨[], ?_, nofun⟩, hpub.lower, fun e hmem => hevents e ?_,
    fun safe hq hclean hlower hbound hdeeper => ?_⟩
  · rw [hpub.queue]
    exact .refl _
  · obtain ⟨new, hnew, _⟩ := he.taught.journal
    rw [hnew]
    exact List.mem_append_right new (hevolves.mem_events hmem)
  · -- All values of the diagram are at most the new lower bound.
    have hmissed : ∀ {target accepts}, Attained c.diagram.layers target accepts →
        target ≤ s'.standing.lower := by
      rintro target accepts ⟨l, z, hl, hz, ha, _, hle⟩
      obtain ⟨v, hv, hzv⟩ := he.ranked.exists_bestValue ⟨l, z, hl, hz, ha, trivial, hle⟩
      exact hzv.trans (hpub.le_of_value he (.inr hexact) hv)
    have hpursues : Pursues (s.request kind width P) s.session c (set.oriented sense) set.branching
        safe (set.useCache = true) s'.queue.entries := hs.pursues hset hP hq (.inr hexact)
      (hpub.lower.trans_lt hlower)
      (fun v hv => by
        obtain ⟨last, hl⟩ := he.sketched.woven.exists_last
        obtain ⟨j, z, _, hz, hacc, rfl⟩ := (he.ranked.bestExact last hl).node_of_value hl hv
        rw [Bool.and_eq_true] at hacc
        have hz' : Attained c.diagram.layers z.longest fun _ => True :=
          ⟨last, z, hl, Array.mem_of_getElem? hz, hacc.1, trivial, le_rfl⟩
        exact (hmissed hz').trans_lt hlower)
      (fun hemits => absurd hlower (not_lt.2 (hmissed hemits.best))) hdeeper
      (fun N hN => by rw [hpub.queue]; exact hN) (hclean.mono hevents)
    refine ⟨hpursues.carried hc, fun state k t ht => hpursues.backed hc ?_⟩
    rw [hpub.session.cache] at ht
    exact ht

/-- **A relaxed diagram leaves a sub-problem to those of its cut-set.** -/
theorem Steady.explores_of_cutset (hset : set.Lawful sense) (hs : Steady set sense start s)
    (hP : set.Admits sense P) (hc : Compiles (s.request .relaxed width P) s.session c)
    {s₂ : Solver σ κ Extended}
    (hpub : Published { s with session := c.session, diagram := c.diagram }
      c.diagram.bestExactValue c.diagram.bestExactSolution s₂)
    {subs : List (Subproblem σ Extended)} (hopen : Opened P.bound subs s₂ s')
    (hsubs : ∀ z ∈ subs, z ∈ c.diagram.handOut.1)
    (hall : ∀ v, c.diagram.bestValue = some v → s₂.standing.lower < v →
      ∀ z ∈ c.diagram.handOut.1, z ∈ subs) : Explores set sense start P s s' := by
  obtain ⟨mid, hevolves, hcache, he⟩ := id hc
  have hquiet := hpub.session.trans hopen.session
  have hevents : ∀ e ∈ c.session.events, e ∈ s'.session.events := by
    obtain ⟨new, hnew, _⟩ := hquiet.journal
    exact fun e hmem => by rw [hnew]; exact List.mem_append_right new hmem
  have hsteady : Steady set sense start s₂ := (hs.compiled hP hc).published hpub fun v path =>
    hs.completes_bestExact hP hc
  obtain ⟨new, hperm, hnew⟩ := hopen.queue
  rw [hpub.queue] at hperm
  refine ⟨hsteady.opened hset hopen fun z hz =>
      (hs.poses.admits_handOut hset.regular hP hc (hsubs z hz) _).1,
    ⟨new, hperm, fun N hN => ?_⟩, ?_, fun e hmem => hevents e ?_,
    fun safe hq hclean hlower hbound hdeeper => ?_⟩
  · obtain ⟨z, hz, rfl⟩ := hnew N hN
    exact (hs.poses.admits_handOut hset.regular hP hc (hsubs z hz) P.bound).2
  · rw [hopen.lower]
    exact hpub.lower
  · obtain ⟨new, hnew, _⟩ := he.taught.journal
    rw [hnew]
    exact List.mem_append_right new (hevolves.mem_events hmem)
  · rw [hopen.lower] at hlower
    have hpursues : Pursues (s.request .relaxed width P) s.session c (set.oriented sense)
        set.branching safe (set.useCache = true) s'.queue.entries := by
      refine hs.pursues hset hP hq (.inl rfl) (hpub.lower.trans_lt hlower) (fun v hv => ?_)
        (fun {safe' k j z} hemits => ?_) hdeeper
        (fun N hN => hperm.mem_iff.2 (List.mem_append_right new hN)) (hclean.mono hevents)
      · obtain ⟨i, ds, state, hsol, _⟩ := he.traced_bestExact hv
        exact (hpub.better v _ hv hsol).trans_lt hlower
      · obtain ⟨v, hv, hle⟩ := he.ranked.exists_bestValue hemits.best
        obtain ⟨N, hN, hstate, hvalue, hdepth, hNbound⟩ := hemits.handOut he (.inl rfl)
        have hroom := le_min hbound hNbound
        exact ⟨_, hopen.opens N (hall v hv (hlower.trans_le hle) N hN) (hlower.trans_le hroom),
          hstate, hvalue, hdepth, hroom⟩
    refine ⟨hpursues.carried hc, fun state k t ht => hpursues.backed hc ?_⟩
    rw [hquiet.cache] at ht
    exact ht

variable [LawfulBEq σ] [Hashable σ]

/-- **Bounding a sub-problem explores it.** -/
theorem Solver.bound_explores (hset : set.Lawful sense) (hs : Steady set sense start s)
    (hP : set.Admits sense P) (width : Nat) :
    (s.bound width P).2 = none ∧ Explores set sense start P s (s.bound width P).1 := by
  obtain ⟨c, hc, hcompile⟩ := hs.poses.compile_eq hset.regular hP .relaxed width
  obtain ⟨hfault, hcurbed⟩ := bound_curbed hcompile
  refine ⟨hfault, ?_⟩
  cases hcurbed with
  | settled hexact hpub => exact hs.explores_of_exact hset hP hc hexact hpub
  | passed hpub hopen hsubs hall => exact hs.explores_of_cutset hset hP hc hpub hopen hsubs hall

/-- **Exploring a sub-problem meets no fault and carries on what it carried.** -/
theorem Solver.explore_explores (hset : set.Lawful sense) (hs : Steady set sense start s)
    (hP : set.Admits sense P) :
    (s.explore P).2 = none ∧ Explores set sense start P s (s.explore P).1 := by
  unfold Solver.explore
  dsimp only
  generalize hnote : s.note _ = s₁
  have hs₁ : Steady set sense start s₁ := by
    rw [← hnote]
    exact hs.quiet (Session.quiet_note _)
  -- The report to the log makes no difference.
  have hback : ∀ {s'}, Explores set sense start P s₁ s' → Explores set sense start P s s' := by
    intro s' h
    subst hnote
    exact h.after rfl le_rfl (fun e he => List.mem_cons_of_mem _ he) fun _ _ _ ht => ht
  obtain ⟨c, hc, hcompile⟩ := hs₁.poses.compile_eq hset.regular hP .restricted (s.settings.width P)
  obtain ⟨mid, hevolves, hcache, he⟩ := id hc
  rw [hcompile]
  dsimp only
  have hpub := publish_published { s₁ with session := c.session, diagram := c.diagram }
    c.diagram.bestValue c.diagram.bestSolution
  split
  · rename_i hexact
    exact ⟨rfl, hback (hs₁.explores_of_exact hset hP hc hexact hpub)⟩
  · rename_i hexact
    have hs₂ := (hs₁.compiled hP hc).published hpub fun v path =>
      hs₁.completes_best hP hc (.inl Kind.noConfusion)
    obtain ⟨hfault, hexplores⟩ := Solver.bound_explores hset hs₂ hP (s.settings.width P)
    refine ⟨hfault, hback (hexplores.after hpub.queue hpub.lower (fun e hmem => ?_) ?_)⟩
    · obtain ⟨new, hnew, _⟩ := he.taught.journal
      obtain ⟨new', hnew', _⟩ := hpub.session.journal
      rw [hnew']
      refine List.mem_append_right new' ?_
      change e ∈ c.session.events
      rw [hnew]
      exact List.mem_append_right new (hevolves.mem_events hmem)
    · -- A diagram from which nodes were dropped teaches nothing.
      intro state k t ht
      rw [hpub.session.cache] at ht
      rcases he.taught.entries state k t ht with hold | ⟨hfine, _⟩
      · rw [← hcache]
        exact hold
      · rcases hfine with hrel | hex
        · cases hrel
        · exact absurd hex hexact

end Explore
end DiagramSearch
