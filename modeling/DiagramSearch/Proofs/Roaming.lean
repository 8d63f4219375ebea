/-
# Searching whatever the rule looks at

A rule that looks at the layer takes the variables in another order from one compilation
to the next, so that the sub-problems of a search are reached by trails of any order.
Where the optimum does not depend on the order, what a sub-problem is worth is read off
the variables that its path leaves free (`Problem.prospect`), whichever rule is going to
be asked about them.

The thresholds of the cache are another matter.  They are kept for a state at a depth,
and two sub-problems of one state and one depth may have different variables left: what
was learned from the one is held against the other, and the optimum may be lost by it.

* `Request.Pliable.exists_bestValue`, `Request.Pliable.intercepts`: what a diagram owes to
  the prospect of its sub-problem;
* `Solver.visit_roves`, `Solver.search_roves`: **a search takes up and reports what trails
  of any order lead to**, and without the cache it carries the optimum on;
* `Solver.solve_flexible`: it ends with a solution, or denies that there is one, and its
  answer is right if the cache is off or the rule looks at the free variables alone.
-/

import DiagramSearch.Proofs.Reordering
import DiagramSearch.Proofs.Terminating

namespace DiagramSearch

open Extended

variable {σ κ : Type}

/-! ### Trails of any order from the root -/

namespace Problem

variable {p : Problem σ Extended} {v : Extended} {path : Path}

/-- The most that a sub-problem is worth, over the variables that its path leaves free. -/
def prospect (p : Problem σ Extended) (z : Subproblem σ Extended) : Extended :=
  z.value + p.optimum .least (z.free p.variables) z.state

/-- A path, put back in some order, decides on every variable, with a given value. -/
def Fills (p : Problem σ Extended) (v : Extended) (path : Path) : Prop :=
  ∃ ds s free, ds.Perm path ∧
    p.Wanders (.all p.variables) p.initialState p.initialValue ds free s v ∧ free.size = 0

theorem Fills.le_total (hp : p.OrderFree) (h : p.Fills v path) : v ≤ p.total .least := by
  obtain ⟨ds, s, free, _, hds, hfree⟩ := h
  have hle := hds.add_optimum_le hp
  rwa [optimum_of_none (Branching.eq_none_of_size hfree), add_zero] at hle

end Problem

/-- A sub-problem whose path, put back in some order, is a trail from the root. -/
def Subproblem.Roamed (p : Problem σ Extended) (n : Subproblem σ Extended) : Prop :=
  ∃ ds : Path, ds.Perm n.path ∧ p.Wanders (.all p.variables) p.initialState p.initialValue ds
    (n.free p.variables) n.state n.value

namespace Subproblem.Roamed

variable {p : Problem σ Extended} {n : Subproblem σ Extended} {ds : Path} {free : Variables}
  {s : σ} {v : Extended}

theorem extend (hp : p.Focused) (h : n.Roamed p)
    (hds : p.Wanders (n.free p.variables) n.state n.value ds free s v)
    {m : Subproblem σ Extended} (hstate : m.state = s) (hvalue : m.value = v)
    (hpath : m.path = n.path ++ ds) : m.Roamed p ∧ m.free p.variables = free := by
  obtain ⟨es, hperm, hes⟩ := h
  have hall := hes.trans hds
  have hperm' : (ds ++ es).Perm m.path := by
    rw [hpath]
    exact List.perm_append_comm.trans (hperm.append_right ds)
  have hfree : m.free p.variables = free := (hall.free_eq_foldl hp hperm').symm
  refine ⟨⟨ds ++ es, hperm', ?_⟩, hfree⟩
  rw [hstate, hvalue, hfree]
  exact hall

theorem fills (h : n.Roamed p)
    (hds : p.Wanders (n.free p.variables) n.state n.value ds free s v) (hfree : free.size = 0) :
    p.Fills v (n.path ++ ds) := by
  obtain ⟨es, hperm, hes⟩ := h
  exact ⟨ds ++ es, s, free, List.perm_append_comm.trans (hperm.append_right ds), hes.trans hds,
    hfree⟩

end Subproblem.Roamed

/-! ### What a diagram owes to its sub-problem -/

namespace Request.Pliable

variable [BEq σ] [BEq κ] {r : Request σ κ Extended} {b : Branching σ}
  {session : Session σ κ Extended} {c : Compiled σ κ Extended}

omit [BEq σ] [BEq κ] in
theorem optimal_eq (h : r.Pliable) (hstatic : b.Static) (htotal : b.Total) :
    Request.optimal { r with branching := b } = r.model.problem.prospect r.residual :=
  congrArg (r.residual.value + ·) (h.orderFree.optimum_eq hstatic htotal _ _)

/-- What is handed out is reached by a trail and leaves something to decide; the rule of
the compilation promises what it is worth. -/
theorem roamed_handOut (h : r.Pliable) (hroamed : r.residual.Roamed r.model.problem)
    (hstatic : b.Static) (htotal : b.Total) (hkind : r.kind = .relaxed)
    (hc : Compiles { r with branching := b } session c) {z : Subproblem σ Extended}
    (hz : z ∈ c.diagram.handOut.1) : z.Roamed r.model.problem ∧
      (z.free r.model.problem.variables).size ≠ 0 ∧
      Request.promise { r with branching := b } z = r.model.problem.prospect z := by
  obtain ⟨mid, _, _, he⟩ := hc
  obtain ⟨i, ds, _, htraced, hpath, hdepth, hbranch⟩ := he.mem_handOut (.inl hkind) hz
  obtain ⟨hz', hfree⟩ := hroamed.extend h.focused htraced.2.wanders rfl rfl hpath
  refine ⟨hz', fun hsize => hbranch ?_, ?_⟩
  · rw [hfree] at hsize
    exact Branching.eq_none_of_size hsize
  · rw [Request.promise, hdepth, Nat.add_sub_cancel_left, Request.optimumAt, ← hfree]
    exact congrArg (z.value + ·) (h.orderFree.optimum_eq hstatic htotal _ _)

/-- **An exact diagram tells the prospect of its sub-problem**, if that beats the value to
beat and nothing is remembered. -/
theorem exists_bestValue (h : r.Pliable) (hstatic : b.Static) (htotal : b.Total)
    (hc : Compiles { r with branching := b } session c) (hexact : c.diagram.isExact = true)
    (hdom : r.dominance = none) (hcache : session.cache.layers.size = 0)
    (hbeat : r.toBeat < r.model.problem.prospect r.residual) :
    ∃ v, c.diagram.bestValue = some v ∧ r.model.problem.prospect r.residual ≤ v := by
  obtain ⟨mid, _, hmid, he⟩ := hc
  rw [← h.optimal_eq hstatic htotal] at hbeat ⊢
  refine he.exists_bestValue (h.regular hstatic htotal) hexact hdom (fun _ _ => ?_) hbeat
  exact Cache.get?_of_size_eq_zero (hmid ▸ hcache)

/-- **A relaxed diagram finds the prospect of its sub-problem or hands it out**, with
bounds that leave room for it, under the same conditions. -/
theorem intercepts (h : r.Pliable) (hroamed : r.residual.Roamed r.model.problem)
    (hstatic : b.Static) (htotal : b.Total) (hkind : r.kind = .relaxed)
    (hc : Compiles { r with branching := b } session c) (hdom : r.dominance = none)
    (hcache : session.cache.layers.size = 0)
    (hbeat : r.toBeat < r.model.problem.prospect r.residual) :
    (∃ v, c.diagram.bestExactValue = some v ∧ r.model.problem.prospect r.residual ≤ v) ∨
      ∃ v, c.diagram.bestValue = some v ∧ r.model.problem.prospect r.residual ≤ v ∧
        ∃ z ∈ c.diagram.handOut.1, r.model.problem.prospect r.residual ≤ z.bound ∧
          r.model.problem.prospect r.residual ≤ r.model.problem.prospect z := by
  obtain ⟨mid, _, hmid, he⟩ := id hc
  have hregular := h.regular hstatic htotal
  have hempty : ∀ state depth, mid.cache.get? state depth = none :=
    fun _ _ => Cache.get?_of_size_eq_zero (hmid ▸ hcache)
  rw [← h.optimal_eq hstatic htotal] at hbeat ⊢
  refine (he.intercepts hregular hkind hdom hempty hbeat).imp_right fun ⟨z, hz, hle⟩ => ?_
  have hroom := hle.trans
    (he.promise_le_bound hregular hkind hdom hempty hz (hbeat.trans_le hle))
  obtain ⟨_, _, _, _, _, best, _, _, _, hbest, heq⟩ :=
    (he.surveyed (.inl hkind)).cut.node_of_handOut hz
  refine ⟨best, hbest, hroom.trans ?_, z, hz, hroom, ?_⟩
  · rw [heq]
    exact min_le_right _ _
  · rwa [← (h.roamed_handOut hroamed hstatic htotal hkind hc hz).2.2]

end Request.Pliable

/-! ### A search that roams -/

/-- The settings with the variables taken in their order. -/
def Settings.inOrder (set : Settings σ κ Extended) : Settings σ κ Extended :=
  { set with branching := .least }

/-- What is asked of the settings of a search whose rule may look at the layer. -/
structure Settings.Flexible (set : Settings σ κ Extended) (sense : Sense) : Prop where
  total : set.branching.Total
  orderFree : (set.oriented sense).OrderFree
  lawful : set.inOrder.Lawful sense

/-- A sub-problem that may be open. -/
structure Settings.Welcomes (set : Settings σ κ Extended) (sense : Sense)
    (N : Subproblem σ Extended) : Prop where
  roamed : N.Roamed (set.oriented sense)
  entered : (N.free (set.oriented sense).variables).size = 0 → N.bound = posInf

/-- An open sub-problem is worth the optimum, and its bound leaves room for it. -/
def Settings.Bears (set : Settings σ κ Extended) (sense : Sense)
    (queue : List (Subproblem σ Extended)) : Prop :=
  ∃ N ∈ queue, (set.oriented sense).total .least ≤ (set.oriented sense).prospect N ∧
    (set.oriented sense).total .least ≤ N.bound

section Settings

variable {set : Settings σ κ Extended} {sense : Sense}

/-- A rule that looks at the free variables alone is one of many. -/
theorem Settings.Flexible.lawful_of_static (h : set.Flexible sense)
    (hstatic : set.branching.Static) : set.Lawful sense where
  isPure := h.lawful.isPure
  focused := h.lawful.focused
  finite_cost := h.lawful.finite_cost
  finite_start := h.lawful.finite_start
  static := hstatic
  total := h.total
  sound := Model.Sound.of_orderFree h.lawful.sound h.orderFree hstatic h.total
  bestFirst := h.lawful.bestFirst

end Settings

section Roving

variable [BEq σ] [BEq κ] {set : Settings σ κ Extended} {sense : Sense}
  {s s' : Solver σ κ Extended} {P : Subproblem σ Extended} {b : Branching σ} {kind : Kind}
  {width : Nat} {c : Compiled σ κ Extended}

/-- A solver in the course of a search whose rule may look at the layer. -/
abbrev Roving (set : Settings σ κ Extended) (sense : Sense) (s : Solver σ κ Extended) : Prop :=
  Orderly set sense (set.oriented sense).Fills (set.Welcomes sense) s

/-- A solver before and after a sub-problem is visited.  What is open stays open, and
without the cache others take the place of a sub-problem that is worth the optimum. -/
structure Roves (set : Settings σ κ Extended) (sense : Sense) (P : Subproblem σ Extended)
    (s s' : Solver σ κ Extended) : Prop where
  roving : Roving set sense s'
  lower : s.standing.lower ≤ s'.standing.lower
  queue : ∀ N ∈ s.queue.entries, N ∈ s'.queue.entries
  bears : set.useCache = false → s'.standing.lower < (set.oriented sense).total .least →
    (set.oriented sense).total .least ≤ (set.oriented sense).prospect P →
    (set.oriented sense).total .least ≤ P.bound → set.Bears sense s'.queue.entries

omit [BEq σ] [BEq κ] in
/-- A step that opens nothing may come first. -/
theorem Roves.after {s₁ : Solver σ κ Extended} (h : Roves set sense P s₁ s')
    (hqueue : s₁.queue = s.queue) (hlower : s.standing.lower ≤ s₁.standing.lower) :
    Roves set sense P s s' :=
  ⟨h.roving, hlower.trans h.lower, by rw [← hqueue]; exact h.queue, h.bears⟩

namespace Roving

omit [BEq σ] [BEq κ] in
theorem request_pliable (hset : set.Flexible sense) (hs : Roving set sense s) (kind : Kind)
    (width : Nat) (P : Subproblem σ Extended) : (s.request kind width P).Pliable := by
  obtain rfl := hs.settings
  obtain rfl := hs.facing
  exact ⟨hset.lawful.isPure, hset.lawful.focused, hset.lawful.cost_oriented, hset.total,
    hset.orderFree, hset.lawful.sound⟩

omit [BEq κ] [BEq σ] in
theorem request_problem (hs : Roving set sense s) (kind : Kind) (width : Nat)
    (P : Subproblem σ Extended) :
    (s.request kind width P).model.problem = set.oriented sense := by
  obtain rfl := hs.settings
  obtain rfl := hs.facing
  rfl

omit [BEq κ] [BEq σ] in
theorem request_roamed (hs : Roving set sense s) (hP : set.Welcomes sense P) (kind : Kind)
    (width : Nat) : (s.request kind width P).residual.Roamed
      (s.request kind width P).model.problem := by
  rw [hs.request_problem]
  exact hP.roamed

/-- Compiling keeps a search going. -/
theorem compiled (hs : Roving set sense s)
    (hc : Compiles { s.request kind width P with branching := b } s.session c) :
    Roving set sense { s with session := c.session, diagram := c.diagram } := by
  obtain ⟨mid, _, hcache, he⟩ := hc
  have hsize := he.taught.size
  rw [hcache] at hsize
  exact ⟨hs.toGenuine, hs.settings, hs.admitted, hs.sorted,
    fun huse => hsize.trans (hs.uncached huse)⟩

/-- A value that a compilation tells, and that can be relied on, is that of a path that
decides on every variable. -/
theorem fills_best (hs : Roving set sense s) (hP : set.Welcomes sense P) (htotal : b.Total)
    (hc : Compiles { s.request kind width P with branching := b } s.session c)
    (htrust : kind ≠ .relaxed ∨ c.diagram.isExact = true) (v : Extended)
    (hv : c.diagram.bestValue = some v) :
    ∃ path, c.diagram.bestSolution = some path ∧ (set.oriented sense).Fills v path := by
  obtain ⟨mid, _, _, he⟩ := hc
  obtain ⟨i, ds, state, hsol, htraced, hnone⟩ := he.traced_best htrust hv
  rw [← hs.request_problem kind width P]
  exact ⟨_, hsol, (hs.request_roamed hP kind width).fills htraced.2.wanders
    (htotal.size_eq_zero hnone)⟩

/-- So is the value of its best exact node. -/
theorem fills_bestExact (hs : Roving set sense s) (hP : set.Welcomes sense P) (htotal : b.Total)
    (hc : Compiles { s.request kind width P with branching := b } s.session c) (v : Extended)
    (hv : c.diagram.bestExactValue = some v) :
    ∃ path, c.diagram.bestExactSolution = some path ∧ (set.oriented sense).Fills v path := by
  obtain ⟨mid, _, _, he⟩ := hc
  obtain ⟨i, ds, state, hsol, htraced, hnone⟩ := he.traced_bestExact hv
  rw [← hs.request_problem kind width P]
  exact ⟨_, hsol, (hs.request_roamed hP kind width).fills htraced.2.wanders
    (htotal.size_eq_zero hnone)⟩

omit [BEq σ] [BEq κ] in
/-- Such a value may be published, and is then at most the incumbent's. -/
theorem published_fills (hs : Roving set sense s) {value : Option Extended}
    {solution : Option Path} (hpub : Published s value solution s')
    (hfills : ∀ v, value = some v →
      ∃ path, solution = some path ∧ (set.oriented sense).Fills v path) :
    Roving set sense s' ∧ ∀ v, value = some v → v ≤ s'.standing.lower := by
  refine ⟨hs.published hpub fun v path hv hpath => ?_, fun v hv => ?_⟩
  · obtain ⟨path', hpath', hfilled⟩ := hfills v hv
    obtain rfl := Option.some.inj (hpath.symm.trans hpath')
    exact hfilled
  · obtain ⟨path, hpath, _⟩ := hfills v hv
    exact hpub.better v path hv hpath

/-- **An exact diagram settles a sub-problem.** -/
theorem roves_of_exact (hset : set.Flexible sense) (hdom : set.dominance = none)
    (hs : Roving set sense s) (hP : set.Welcomes sense P) (hstatic : b.Static) (htotal : b.Total)
    (hc : Compiles { s.request kind width P with branching := b } s.session c)
    (hexact : c.diagram.isExact = true)
    (hpub : Published { s with session := c.session, diagram := c.diagram } c.diagram.bestValue
      c.diagram.bestSolution s') : Roves set sense P s s' := by
  obtain ⟨hs', hbetter⟩ := (hs.compiled hc).published_fills hpub
    (hs.fills_best hP htotal hc (.inr hexact))
  refine ⟨hs', hpub.lower, fun N hN => by rw [hpub.queue]; exact hN,
    fun huse hlower hworth _ => ?_⟩
  -- The optimum would have been found.
  have hbeat := (hpub.lower.trans_lt hlower).trans_le hworth
  have hfound := (hs.request_pliable hset kind width P).exists_bestValue hstatic htotal hc hexact
    (by obtain rfl := hs.settings; exact hdom) (hs.uncached huse)
  rw [hs.request_problem] at hfound
  obtain ⟨v, hv, hle⟩ := hfound hbeat
  exact absurd (hworth.trans (hle.trans (hbetter v hv))) (not_le.2 hlower)

/-- **A relaxed diagram leaves a sub-problem to those of its cut-set.** -/
theorem roves_of_cutset (hset : set.Flexible sense) (hdom : set.dominance = none)
    (hs : Roving set sense s) (hP : set.Welcomes sense P) (hstatic : b.Static) (htotal : b.Total)
    (hc : Compiles { s.request .relaxed width P with branching := b } s.session c)
    {s₂ : Solver σ κ Extended}
    (hpub : Published { s with session := c.session, diagram := c.diagram }
      c.diagram.bestExactValue c.diagram.bestExactSolution s₂)
    {subs : List (Subproblem σ Extended)} (hopen : Opened P.bound subs s₂ s')
    (hsubs : ∀ z ∈ subs, z ∈ c.diagram.handOut.1)
    (hall : ∀ v, c.diagram.bestValue = some v → s₂.standing.lower < v →
      ∀ z ∈ c.diagram.handOut.1, z ∈ subs) : Roves set sense P s s' := by
  have hpliable := hs.request_pliable hset .relaxed width P
  have hroamed := hs.request_roamed hP .relaxed width
  obtain ⟨hs₂, hbetter⟩ := (hs.compiled hc).published_fills hpub (hs.fills_bestExact hP htotal hc)
  obtain ⟨new, hperm, _⟩ := hopen.queue
  refine ⟨hs₂.opened hset.lawful.bestFirst hopen fun z hz => ?_, ?_, fun N hN => ?_,
    fun huse hlower hworth hbound => ?_⟩
  · obtain ⟨hz', hsize, _⟩ :=
      hpliable.roamed_handOut hroamed hstatic htotal rfl hc (hsubs z hz)
    rw [hs.request_problem] at hz' hsize
    exact ⟨hz', fun hzero => absurd hzero hsize⟩
  · rw [hopen.lower]
    exact hpub.lower
  · refine hperm.mem_iff.2 (List.mem_append_right new ?_)
    rw [hpub.queue]
    exact hN
  · rw [hopen.lower] at hlower
    have hbeat := (hpub.lower.trans_lt hlower).trans_le hworth
    have hfound := hpliable.intercepts hroamed hstatic htotal rfl hc
      (by obtain rfl := hs.settings; exact hdom) (hs.uncached huse)
    rw [hs.request_problem] at hfound
    rcases hfound hbeat with ⟨v, hv, hle⟩ | ⟨v, hv, hle, z, hz, hroom, hprospect⟩
    · exact absurd (hworth.trans (hle.trans (hbetter v hv))) (not_le.2 hlower)
    · have hmin := le_min hbound (hworth.trans hroom)
      exact ⟨_, hopen.opens z (hall v hv (hlower.trans_le (hworth.trans hle)) z hz)
        (hlower.trans_le hmin), hworth.trans hprospect, hmin⟩

variable [LawfulBEq σ] [Hashable σ]

theorem compile_eq (hset : set.Flexible sense) (hs : Roving set sense s)
    (hP : set.Welcomes sense P) (kind : Kind) (width : Nat) : ∃ b c,
    Branching.Static b ∧ Branching.Total b ∧
      Compiles { s.request kind width P with branching := b } s.session c ∧
      s.compile kind width P = ({ s with session := c.session, diagram := c.diagram },
        .ok ⟨c.diagram.isExact, c.diagram.bestValue⟩) := by
  have hpliable := hs.request_pliable hset kind width P
  obtain ⟨b, hstatic, htotal, hc⟩ := hpliable.compiles (fun hsize => by
    rw [hs.request_problem] at hsize
    exact hP.entered hsize) s.session
  obtain ⟨mid, _, _, he⟩ := id hc
  refine ⟨b, _, hstatic, htotal, hc, ?_⟩
  unfold Solver.compile
  dsimp only
  rw [he.outcome]

end Roving

section Visit

variable [LawfulBEq σ] [Hashable σ]

/-- Bounding a sub-problem. -/
theorem Solver.bound_roves (hset : set.Flexible sense) (hdom : set.dominance = none)
    (hs : Roving set sense s) (hP : set.Welcomes sense P) (width : Nat) :
    (s.bound width P).2 = none ∧ Roves set sense P s (s.bound width P).1 := by
  obtain ⟨b, c, hstatic, htotal, hc, hcompile⟩ := hs.compile_eq hset hP .relaxed width
  obtain ⟨hfault, hcurbed⟩ := bound_curbed hcompile
  refine ⟨hfault, ?_⟩
  cases hcurbed with
  | settled hexact hpub => exact hs.roves_of_exact hset hdom hP hstatic htotal hc hexact hpub
  | passed hpub hopen hsubs hall =>
    exact hs.roves_of_cutset hset hdom hP hstatic htotal hc hpub hopen hsubs hall

/-- Exploring a sub-problem. -/
theorem Solver.explore_roves (hset : set.Flexible sense) (hdom : set.dominance = none)
    (hs : Roving set sense s) (hP : set.Welcomes sense P) :
    (s.explore P).2 = none ∧ Roves set sense P s (s.explore P).1 := by
  unfold Solver.explore
  extract_lets width sense' noted
  have hs₁ : Roving set sense noted := hs.session rfl
  obtain ⟨b, c, hstatic, htotal, hc, hcompile⟩ := hs₁.compile_eq hset hP .restricted width
  rw [hcompile]
  dsimp only
  have hpub := publish_published { noted with session := c.session, diagram := c.diagram }
    c.diagram.bestValue c.diagram.bestSolution
  split
  · rename_i hexact
    have hroves := hs₁.roves_of_exact hset hdom hP hstatic htotal hc hexact hpub
    exact ⟨rfl, hroves.after rfl le_rfl⟩
  · obtain ⟨hs₂, _⟩ := (hs₁.compiled hc).published_fills hpub
      (hs₁.fills_best hP htotal hc (.inl Kind.noConfusion))
    obtain ⟨hfault, hroves⟩ := bound_roves hset hdom hs₂ hP width
    exact ⟨hfault, hroves.after hpub.queue hpub.lower⟩

/-- **A visit takes up and reports what trails of any order lead to**, and without the
cache it carries the optimum on. -/
theorem Solver.visit_roves (hset : set.Flexible sense) (hdom : set.dominance = none)
    (hs : Roving set sense s) (hP : set.Welcomes sense P) :
    (s.visit P).2 = none ∧ Roves set sense P s (s.visit P).1 := by
  unfold Solver.visit
  split
  · rename_i hcached
    rw [hs.settings] at hcached
    split
    · have hs₁ : Roving set sense
          { s with session := s.session.remember P.state P.depth ⟨P.value, true⟩ } :=
        ⟨hs.toGenuine, hs.settings, hs.admitted, hs.sorted,
          fun huse => by rw [hcached] at huse; cases huse⟩
      obtain ⟨hfault, hroves⟩ := explore_roves hset hdom hs₁ hP
      exact ⟨hfault, hroves.after rfl le_rfl⟩
    · exact ⟨rfl, hs.session rfl, le_rfl, fun _ hN => hN,
        fun huse => by rw [hcached] at huse; cases huse⟩
  · exact explore_roves hset hdom hs hP

/-- **A search that is not told to stop ends when nothing beats its incumbent**, which is
then the optimum if there is no cache. -/
theorem Solver.search_roves (hset : set.Flexible sense) (hdom : set.dominance = none)
    (rounds : Nat) (hs : Roving set sense s)
    (hbears : set.useCache = false → s.standing.lower < (set.oriented sense).total .least →
      set.Bears sense s.queue.entries) {ending : Ending σ Extended}
    (hending : (search Cutoff.never rounds s).2 = some ending) :
    ending = .exhausted ∧ Roving set sense (search Cutoff.never rounds s).1 ∧
      (set.useCache = false → (set.oriented sense).total .least ≤
        (search Cutoff.never rounds s).1.standing.lower) := by
  induction rounds generalizing s with
  | zero => cases hending
  | succ rounds ih =>
    rw [search] at hending ⊢
    obtain ⟨_, hmove⟩ := hs.nextMove Cutoff.never
    rcases hmove with ⟨s', hmove, hs', hlower, _, hbeaten⟩ | ⟨s', _, _, hcut⟩ |
      ⟨s₁, P, hmove, hs₁, hqueue, hlower, _, _⟩
    · rw [hmove] at hending ⊢
      refine ⟨(Option.some.inj hending).symm, hs', fun huse => le_of_not_gt fun hlt => ?_⟩
      rw [hlower] at hlt
      obtain ⟨N, hN, _, hbound⟩ := hbears huse hlt
      exact absurd (hbound.trans (hbeaten N hN)) (not_le.2 hlt)
    · cases hcut
    · have hP : set.Welcomes sense P := hs.admitted P (hqueue ▸ List.mem_cons_self)
      obtain ⟨hfault, hv⟩ := Solver.visit_roves hset hdom hs₁ hP
      have hvisit : s₁.visit P = ((s₁.visit P).1, none) := Prod.ext rfl hfault
      rw [hmove] at hending ⊢
      dsimp only at hending ⊢
      rw [hvisit] at hending ⊢
      refine ih hv.roving (fun huse hlt => ?_) hending
      -- Either the sub-problem that is visited is worth the optimum or another one is.
      obtain ⟨N, hN, hworth, hbound⟩ := hbears huse (hlower ▸ hv.lower.trans_lt hlt)
      rw [hqueue] at hN
      rcases List.mem_cons.1 hN with rfl | hN
      · exact hv.bears huse hlt hworth hbound
      · exact ⟨N, hv.queue N hN, hworth, hbound⟩

end Visit
end Roving

/-! ### The answer -/

theorem Problem.OrderFree.total_eq {p : Problem σ Extended} {b : Branching σ} (h : p.OrderFree)
    (hstatic : b.Static) (htotal : b.Total) : p.total b = p.total .least :=
  congrArg (p.initialValue + ·) (h.optimum_eq hstatic htotal _ _)

/-- A path that decides on every variable is a solution in the user's terms. -/
theorem Problem.Fills.solves {set : Settings σ κ Extended} {sense : Sense} {v : Extended}
    {path : Path} (hset : set.Flexible sense) (h : (set.oriented sense).Fills v path) :
    Value.isFinite v = true ∧ set.model.problem.Solves path (sense.orient v) := by
  obtain ⟨ds, s, free, hperm, hds, hfree⟩ := h
  exact ⟨hds.isFinite hset.lawful.cost_oriented hset.lawful.start_oriented,
    hds.solves hset.lawful.focused hset.lawful.finite_cost hfree hperm⟩

section Solve

variable [BEq σ] [LawfulBEq σ] [Hashable σ] [BEq κ]

/-- Where the rule looks at the free variables alone, the answer is right. -/
theorem Solver.solve_answers_of_static {s : Solver σ κ Extended} {sense : Sense}
    (hset : s.settings.Flexible sense) (hstatic : s.settings.branching.Static)
    (hprimal : s.primal = none) (hdom : s.settings.dominance = none) :
    ∃ s' stats enough, s.settings.inOrder.Answers sense s' stats ∧
      ∀ rounds, enough ≤ rounds → s.solve rounds sense Cutoff.never = (s', some (.ok stats)) := by
  have hlawful := hset.lawful_of_static hstatic
  obtain ⟨s', enough, hends, hsolve⟩ := Solver.solve_ends hlawful hprimal
  have hanswers := hends.answers hlawful fun hne => ⟨_,
    ⟨Problem.thread_all hne le_rfl, fun _ _ _ _ h => h⟩, hends.clean_of_undominated hdom _ _⟩
  refine ⟨s'.concluded, _, enough, ⟨fun hne => ?_, fun heq => ?_⟩, hsolve⟩
  · change s'.concluded.Reports _ (sense.orient ((s.settings.oriented sense).total .least))
    rw [← hset.orderFree.total_eq hstatic hset.total]
    exact hanswers.feasible ((hset.orderFree.total_eq hstatic hset.total).trans_ne hne)
  · exact hanswers.infeasible ((hset.orderFree.total_eq hstatic hset.total).trans heq)

/-- **A search whose rule may look at the layer reports a solution**, and never one that
beats the optimum.  Its answer is right without the cache, and also with it if the rule
looks at the free variables alone. -/
theorem Solver.solve_flexible (s : Solver σ κ Extended) (sense : Sense)
    (hset : s.settings.Flexible sense) (hprimal : s.primal = none)
    (hdom : s.settings.dominance = none) :
    ∃ s' stats enough,
      (∀ rounds, enough ≤ rounds → s.solve rounds sense Cutoff.never = (s', some (.ok stats))) ∧
      (s'.Denies stats ∨ ∃ v ≤ (s.settings.oriented sense).total .least,
        s'.Reports stats (sense.orient v)) ∧
      (s.settings.useCache = false ∨ s.settings.branching.Static →
        s.settings.inOrder.Answers sense s' stats) := by
  obtain ⟨s₁, ending, enough, hsearch⟩ := Solver.search_terminates Cutoff.never
    (s.openRoot sense) hset.lawful.focused (s.openRoot_level sense)
  have hroot : Roving s.settings sense (s.openRoot sense) :=
    s.openRoot_orderly ⟨⟨[], .refl _, .refl⟩, fun _ => rfl⟩
      fun _ _ hsome => nomatch hprimal.symm.trans hsome
  have hrun := Solver.search_roves hset hdom enough hroot
    (fun _ _ => ⟨s.root sense, List.mem_singleton.2 rfl, le_rfl, le_posInf _⟩)
    (congrArg Prod.snd (hsearch enough le_rfl))
  rw [hsearch enough le_rfl] at hrun
  obtain ⟨rfl, hs₁, hfound⟩ := hrun
  have hsolve : ∀ rounds, enough ≤ rounds → s.solve rounds sense Cutoff.never =
      (s₁.concluded, some (.ok (s₁.conclude true).statistics)) := by
    intro rounds hrounds
    unfold Solver.solve
    rw [hsearch rounds hrounds]
    rfl
  have hconcludes := hs₁.toGenuine.concludes fun v path hfills => by
    rw [hs₁.settings]
    exact hfills.solves hset
  have hle := hs₁.lower_le fun v path hfills => hfills.le_total hset.orderFree
  refine ⟨s₁.concluded, _, enough, hsolve, ?_, ?_⟩
  · exact hconcludes.imp And.right fun ⟨_, hreports⟩ => ⟨_, hle, hreports⟩
  · rintro (huse | hstatic)
    · exact Settings.answers_of_found hconcludes hle fun _ => hfound huse
    · -- It is the same search whatever one knows of the rule.
      obtain ⟨s₂, stats, enough₂, hanswers, hsolve₂⟩ :=
        Solver.solve_answers_of_static hset hstatic hprimal hdom
      have hsame := (hsolve (max enough enough₂) (le_max_left _ _)).symm.trans
        (hsolve₂ _ (le_max_right _ _))
      obtain ⟨rfl, hstats⟩ := Prod.mk.inj hsame
      rwa [Except.ok.inj (Option.some.inj hstats)]

end Solve

/-! ### A small knapsack -/

/-- Items that are taken or left, as long as they fit into what is left of a capacity. -/
def packing (n capacity : Nat) (weight : Nat → Nat) (profit : Nat → Rat) :
    Problem Nat Extended where
  «variables» := n
  initialState := capacity
  initialValue := 0
  transition _ s d := if d.value = 0 then s else s - weight d.var
  cost _ d := if d.value = 0 then 0 else finite (profit d.var)
  domain x s := if weight x ≤ s then [⟨x, 0⟩, ⟨x, 1⟩] else [⟨x, 0⟩]

section Packing

variable {n capacity : Nat} {weight : Nat → Nat} {profit : Nat → Rat} {sense : Sense}

theorem mem_domain_packing {x s : Nat} {d : Decision} :
    d ∈ ((packing n capacity weight profit).orient sense).domain x s ↔
      d = ⟨x, 0⟩ ∨ d = ⟨x, 1⟩ ∧ weight x ≤ s := by
  change d ∈ (if weight x ≤ s then [⟨x, 0⟩, ⟨x, 1⟩] else [⟨x, 0⟩] : List Decision) ↔ _
  split <;> simp_all

theorem packing_focused (n capacity : Nat) (weight : Nat → Nat) (profit : Nat → Rat) :
    (packing n capacity weight profit).Focused := by
  intro x s d hd
  have hd' : d ∈ ((packing n capacity weight profit).orient .maximize).domain x s := hd
  rcases mem_domain_packing.1 hd' with rfl | ⟨rfl, _⟩
  · rfl
  · rfl

/-- Items may be packed in any order. -/
theorem packing_swappable : ((packing n capacity weight profit).orient sense).Swappable := by
  intro s x y _ d hd e he
  rw [mem_domain_packing] at hd he
  rcases hd with rfl | ⟨rfl, hd⟩
  · exact ⟨mem_domain_packing.2 he, mem_domain_packing.2 (.inl rfl), rfl, add_comm _ _⟩
  · rcases he with rfl | ⟨rfl, he⟩
    · exact ⟨mem_domain_packing.2 (.inl rfl), mem_domain_packing.2 (.inr ⟨rfl, hd⟩), rfl,
        add_comm _ _⟩
    · change weight y ≤ s - weight x at he
      have he' : weight y ≤ s := by omega
      have hd' : weight x ≤ s - weight y := by omega
      exact ⟨mem_domain_packing.2 (.inr ⟨rfl, he'⟩), mem_domain_packing.2 (.inr ⟨rfl, hd'⟩),
        Nat.sub_right_comm _ _ _, add_comm _ _⟩

/-- The more is left of the capacity the better. -/
theorem packing_optimum_mono {s s' : Nat} (h : s ≤ s') (b : Branching Nat) (free : Variables) :
    ((packing n capacity weight profit).orient sense).optimum b free s ≤
      ((packing n capacity weight profit).orient sense).optimum b free s' := by
  induction hn : free.size generalizing free s s' with
  | zero =>
    rw [Problem.optimum_of_none (Branching.eq_none_of_size hn),
      Problem.optimum_of_none (Branching.eq_none_of_size hn)]
  | succ m ih =>
    cases hpick : b free [] with
    | none => rw [Problem.optimum_of_none hpick, Problem.optimum_of_none hpick]
    | some x =>
      by_cases hneg : ((packing n capacity weight profit).orient sense).optimum b free s = negInf
      · rw [hneg]
        exact negInf_le _
      · -- What fits into less fits into more.
        obtain ⟨d, hd, heq⟩ := Problem.exists_optimum_eq hpick hneg
        have hsize := Variables.size_erase_add_one x.2
        have hd' : d ∈ ((packing n capacity weight profit).orient sense).domain x s' := by
          rw [mem_domain_packing] at hd ⊢
          exact hd.imp_right fun ⟨heq, hle⟩ => ⟨heq, hle.trans h⟩
        have hnext : ((packing n capacity weight profit).orient sense).transition 0 s d ≤
            ((packing n capacity weight profit).orient sense).transition 0 s' d := by
          change (if d.value = 0 then s else s - weight d.var) ≤
            if d.value = 0 then s' else s' - weight d.var
          split <;> omega
        rw [← heq]
        exact (add_le_add_right (ih hnext _ (by omega)) _).trans (Problem.le_optimum hpick hd')

end Packing

/-- Three items, of which the last two fill the knapsack best.  The rule counts the states
of the layer, and what is left in them. -/
def threeItemsSettings (useCache : Bool) : Settings Nat Unit Extended where
  model :=
    { problem := packing 3 5 ([3, 3, 2].getD · 0) ([3, 5, 2].getD · 0)
      relaxation :=
        { merge := fun xs => xs.max?.getD 0
          relax := fun _ _ _ _ c => c
          upperBound := fun _ _ => posInf
          lowerBound := fun _ _ => negInf } }
  ranking := compare
  queueOrder := Subproblem.byBound compare
  width _ := 2
  branching := .cyclic fun states => states.foldl (fun n s => n + (1 + s)) 0
  dominance := none
  mergeOrder := .byCost
  dropOrder := .byCost
  cutset := .frontier
  useCache
  checks := .off
  clock _ := 0

theorem threeItems_flexible (useCache : Bool) :
    (threeItemsSettings useCache).Flexible .maximize where
  total := Branching.cyclic_total _
  orderFree := packing_swappable.orderFree
  lawful :=
    { isPure := fun _ _ _ _ => rfl
      focused := packing_focused 3 5 _ ([3, 5, 2].getD · 0)
      finite_cost := fun s d => by
        change Value.isFinite (if d.value = 0 then (0 : Extended) else finite _) = true
        split <;> rfl
      finite_start := rfl
      static := Branching.least_static
      total := Branching.least_total
      sound := ⟨fun _ _ => le_posInf _, fun xs free source v d _ hmem =>
        add_le_add_right (packing_optimum_mono (List.le_max?_getD_of_mem hmem) _ free) _⟩
      bestFirst := ⟨compare, rfl⟩ }

/-- Without the cache the search finds the last two items.  With it the search reports a
value of five: where the first item is left and the second one taken, the state is the one
that the first item alone leads to, at the same depth, and is held to be explored, but
here it is the last item that is still free. -/
theorem Solver.solve_flexible_threeItems :
    (∃ s' stats enough, s'.Reports stats (finite 7) ∧ ∀ rounds, enough ≤ rounds →
      (Solver.ofSettings (threeItemsSettings false)).solve rounds .maximize Cutoff.never =
        (s', some (.ok stats))) ∧
    ∃ s' stats enough, s'.Reports stats (finite 5) ∧ ∀ rounds, enough ≤ rounds →
      (Solver.ofSettings (threeItemsSettings true)).solve rounds .maximize Cutoff.never =
        (s', some (.ok stats)) := by
  have htotal : ((threeItemsSettings false).oriented .maximize).total .least = finite 7 := by
    decide +kernel
  refine ⟨?_, ?_⟩
  · obtain ⟨s', stats, enough, hsolve, _, hanswers⟩ := Solver.solve_flexible
      (.ofSettings (threeItemsSettings false)) .maximize (threeItems_flexible _) rfl rfl
    have hreports := (hanswers (.inl rfl)).feasible (htotal.trans_ne nofun)
    refine ⟨s', stats, enough, ?_, hsolve⟩
    exact htotal ▸ hreports
  · obtain ⟨s', stats, enough, hsolve, hreports, _⟩ := Solver.solve_flexible
      (.ofSettings (threeItemsSettings true)) .maximize (threeItems_flexible _) rfl rfl
    have hfive : ((Solver.ofSettings (threeItemsSettings true)).solve 4 .maximize
        Cutoff.never).2.map (·.toOption.map (·.incumbent)) = some (some (some (finite 5))) := by
      decide +kernel
    have hincumbent : stats.incumbent = some (finite 5) := by
      rcases hrun : (Solver.ofSettings (threeItemsSettings true)).solve 4 .maximize
        Cutoff.never with ⟨s₁, _ | outcome⟩
      · rw [hrun] at hfive
        cases hfive
      · have hsame := (hsolve _ (le_max_left enough 4)).symm.trans
          (Solver.solve_of_le hrun (le_max_right enough 4))
        obtain ⟨_, hstats⟩ := Prod.mk.inj hsame
        rw [hrun, ← Option.some.inj hstats] at hfive
        exact Option.some.inj (Option.some.inj hfive)
    refine ⟨s', stats, enough, ?_, hsolve⟩
    rcases hreports with hdenies | ⟨v, _, hreports⟩
    · cases hdenies.incumbent.symm.trans hincumbent
    · obtain rfl := Option.some.inj (hreports.incumbent.symm.trans hincumbent)
      exact hreports

end DiagramSearch
