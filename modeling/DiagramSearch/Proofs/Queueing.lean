/-
# The queue and the incumbent of a search

What the small operations of a solver do, each said once.

* `place_pairwise`: the queue stays in decreasing order of the bounds, in exact as in
  floating-point arithmetic (`Value.Ranked`);
* `publish_published`: a solution is taken over if it is better, and then its
  value is the new lower bound;
* `openCutset_opened`: the sub-problems that are handed out and may still beat
  the incumbent are opened, and nothing else changes;
* `bound_curbed`: **bounding a sub-problem settles it, or leaves it to those
  that are handed out**.
-/

import DiagramSearch.Proofs.Covering
import DiagramSearch.Proofs.Advancing

namespace DiagramSearch

open Extended

variable {σ κ : Type}

/-! ### Best bound first -/

/-- What the order of sorting and the comparisons have in common, in exact and in
floating-point arithmetic.  A value `a` with `a ≤ a` is defined. -/
class Value.Ranked (V : Type) [Value V] : Prop where
  posInf_defined : (Value.posInf : V) ≤ Value.posInf
  defined_of_le {a b : V} : a ≤ b → a ≤ a
  le_trans {a b c : V} : a ≤ b → b ≤ c → a ≤ c
  /-- The smaller of two values is no greater than one that is defined, whatever the
  other. -/
  min_le {a b : V} : a ≤ a → min a b ≤ a
  le_of_order_ne_gt {a b : V} : a ≤ a → b ≤ b → Value.order a b ≠ .gt → a ≤ b
  le_of_order_ne_lt {a b : V} : a ≤ a → b ≤ b → Value.order a b ≠ .lt → b ≤ a

instance : Value.Ranked Extended where
  posInf_defined := le_rfl
  defined_of_le _ := le_rfl
  le_trans := le_trans
  min_le _ := min_le_left _ _
  le_of_order_ne_gt _ _ h := le_of_not_gt fun hlt => h (order_eq_gt_iff.2 hlt)
  le_of_order_ne_lt {a b} _ _ h := by
    cases horder : Value.order a b with
    | lt => exact absurd horder h
    | eq => exact (order_eq_eq_iff.1 horder).ge
    | gt => exact (order_eq_gt_iff.1 horder).le

/-- Values that are comparable as soon as they are defined, none of them below
`negInf`. -/
class Value.Floored (V : Type) [Value V] : Prop extends Value.Ranked V where
  defined_of_ge {a b : V} : a ≤ b → b ≤ b
  negInf_le {a : V} : a ≤ a → Value.negInf ≤ a

instance : Value.Floored Extended where
  defined_of_ge _ := le_rfl
  negInf_le {a} _ := Extended.negInf_le a

theorem Value.Floored.le_of_not_le {V : Type} [Value V] [Value.Floored V] {a b : V}
    (ha : a ≤ a) (hb : b ≤ b) (h : ¬a ≤ b) : b ≤ a := by
  refine Ranked.le_of_order_ne_lt ha hb fun hlt => h (Ranked.le_of_order_ne_gt ha hb ?_)
  rw [hlt]
  exact nofun

section Ranked

variable {V : Type} [Value V] [Value.Ranked V] {ranking : σ → σ → Ordering}
  {a b : Subproblem σ V}

theorem byBound_gt (ha : a.bound ≤ a.bound) (hb : b.bound ≤ b.bound)
    (h : Subproblem.byBound ranking a b = .gt) : b.bound ≤ a.bound := by
  refine Value.Ranked.le_of_order_ne_lt ha hb fun hlt => ?_
  unfold Subproblem.byBound at h
  rw [hlt] at h
  cases h

theorem byBound_not_gt (ha : a.bound ≤ a.bound) (hb : b.bound ≤ b.bound)
    (h : Subproblem.byBound ranking a b ≠ .gt) : a.bound ≤ b.bound := by
  refine Value.Ranked.le_of_order_ne_gt ha hb fun hgt => h ?_
  unfold Subproblem.byBound
  rw [hgt]
  rfl

/-- **A sub-problem is placed according to its bound**, if all bounds are defined. -/
theorem place_pairwise {queue : List (Subproblem σ V)}
    (h : queue.Pairwise fun a b => b.bound ≤ a.bound) (hdef : ∀ N ∈ queue, N.bound ≤ N.bound)
    (ha : a.bound ≤ a.bound) :
    (Ordered.place (fun a b => Subproblem.byBound ranking a b == .gt) a queue).Pairwise
      fun a b => b.bound ≤ a.bound := by
  induction queue with
  | nil => exact List.pairwise_singleton _ _
  | cons c queue ih =>
    obtain ⟨hc, hqueue⟩ := List.pairwise_cons.1 h
    obtain ⟨hcdef, hdef⟩ := List.forall_mem_cons.1 hdef
    unfold Ordered.place
    split
    · rename_i hgt
      have hle := byBound_gt ha hcdef (beq_iff_eq.1 hgt)
      refine List.pairwise_cons.2 ⟨fun N hN => ?_, h⟩
      rcases List.mem_cons.1 hN with rfl | hN
      · exact hle
      · exact Value.Ranked.le_trans (hc N hN) hle
    · rename_i hgt
      have hle : a.bound ≤ c.bound := byBound_not_gt ha hcdef fun heq => hgt (beq_iff_eq.2 heq)
      refine List.pairwise_cons.2 ⟨fun N hN => ?_, ih hqueue hdef⟩
      rcases Ordered.mem_place.1 hN with rfl | hN
      · exact hle
      · exact hc N hN

end Ranked

/-- The open sub-problems in decreasing order of their bounds. -/
def BestFirst (queue : List (Subproblem σ Extended)) : Prop :=
  queue.Pairwise fun a b => b.bound ≤ a.bound

theorem place_sorted {ranking : σ → σ → Ordering} {queue : List (Subproblem σ Extended)}
    (h : BestFirst queue) (a : Subproblem σ Extended) :
    BestFirst (Ordered.place (fun a b => Subproblem.byBound ranking a b == .gt) a queue) :=
  place_pairwise h (fun _ _ => le_rfl) le_rfl

/-! ### Publishing a solution -/

/-- A solver before and after a solution is offered to it. -/
structure Published (s : Solver σ κ Extended) (value : Option Extended) (solution : Option Path)
    (s' : Solver σ κ Extended) : Prop where
  settings : s'.settings = s.settings
  queue : s'.queue = s.queue
  diagram : s'.diagram = s.diagram
  sense : s'.standing.sense = s.standing.sense
  session : s.session.Quiet s'.session
  lower : s.standing.lower ≤ s'.standing.lower
  better : ∀ v path, value = some v → solution = some path → v ≤ s'.standing.lower
  source : (s'.standing.lower = s.standing.lower ∧ s'.standing.solution = s.standing.solution) ∨
    ∃ v path, value = some v ∧ solution = some path ∧ s'.standing.lower = v ∧
      s'.standing.solution = some path

theorem Published.refl {s : Solver σ κ Extended} {value : Option Extended} {solution : Option Path}
    (h : ∀ v path, value = some v → solution = some path → v ≤ s.standing.lower) :
    Published s value solution s :=
  ⟨rfl, rfl, rfl, rfl, .refl _, le_rfl, h, .inl ⟨rfl, rfl⟩⟩

/-- **A better solution is taken over.** -/
theorem publish_published (s : Solver σ κ Extended) (value : Option Extended)
    (solution : Option Path) : Published s value solution (s.publish value solution) := by
  rcases s.publish_cases value solution with ⟨heq, hworse⟩ | ⟨v, path, rfl, rfl, hlt, heq⟩
  · rw [heq]
    exact .refl fun v path hv hpath => le_of_not_gt (hworse v path hv hpath)
  · rw [heq]
    refine ⟨rfl, rfl, rfl, rfl, ?_, hlt.le, fun w q hw _ => ?_,
      .inr ⟨v, path, rfl, rfl, rfl, rfl⟩⟩
    · exact (Session.quiet_note _).trans (Session.quiet_record nofun)
    · exact (Option.some.inj hw).ge

/-! ### Opening sub-problems -/

/-- A solver before and after sub-problems are opened, their bounds cut to a given
one. -/
structure Opened (bound : Extended) (subs : List (Subproblem σ Extended))
    (s s' : Solver σ κ Extended) : Prop where
  settings : s'.settings = s.settings
  sense : s'.standing.sense = s.standing.sense
  lower : s'.standing.lower = s.standing.lower
  solution : s'.standing.solution = s.standing.solution
  session : s.session.Quiet s'.session
  queue : ∃ new, s'.queue.entries.Perm (new ++ s.queue.entries) ∧
    ∀ N ∈ new, ∃ z ∈ subs, N = { z with bound := min bound z.bound }
  opens : ∀ z ∈ subs, s.standing.lower < min bound z.bound →
    { z with bound := min bound z.bound } ∈ s'.queue.entries
  sorted : (∃ ranking, s.settings.queueOrder = Subproblem.byBound ranking) →
    BestFirst s.queue.entries → BestFirst s'.queue.entries

/-- What holds of the sub-problems that were open, and of those that may be opened, holds of
all that are open then. -/
theorem Opened.forall_entries {Open : Subproblem σ Extended → Prop} {bound : Extended}
    {subs : List (Subproblem σ Extended)} {s s' : Solver σ κ Extended}
    (h : Opened bound subs s s') (hold : ∀ N ∈ s.queue.entries, Open N)
    (hsubs : ∀ z ∈ subs, Open { z with bound := min bound z.bound }) :
    ∀ N ∈ s'.queue.entries, Open N := by
  intro N hN
  obtain ⟨new, hperm, hnew⟩ := h.queue
  rcases List.mem_append.1 (hperm.mem_iff.1 hN) with hN | hN
  · obtain ⟨z, hz, rfl⟩ := hnew N hN
    exact hsubs z hz
  · exact hold N hN

theorem Opened.refl (bound : Extended) (s : Solver σ κ Extended) : Opened bound [] s s :=
  ⟨rfl, rfl, rfl, rfl, .refl _, ⟨[], .refl _, nofun⟩, nofun, fun _ h => h⟩

/-- Opens a sub-problem if it may still beat the incumbent. -/
def openIf (bound : Extended) (s : Solver σ κ Extended) (z : Subproblem σ Extended) :
    Solver σ κ Extended :=
  let node := { z with bound := min bound z.bound }
  if s.standing.lower < node.bound then s.push node else s

theorem openIf_opened (bound : Extended) (s : Solver σ κ Extended) (z : Subproblem σ Extended) :
    Opened bound [z] s (openIf bound s z) := by
  unfold openIf
  dsimp only
  split
  · have hperm := s.queue.entries_push_perm s.settings.queueOrder
      { z with bound := min bound z.bound }
    refine ⟨rfl, rfl, rfl, rfl, Session.quiet_record nofun, ⟨[_], hperm, fun N hN => ?_⟩,
      fun y hy _ => ?_, fun horder hsorted => ?_⟩
    · exact ⟨z, List.mem_singleton.2 rfl, List.mem_singleton.1 hN⟩
    · obtain rfl := List.mem_singleton.1 hy
      exact hperm.mem_iff.2 List.mem_cons_self
    · obtain ⟨ranking, hranking⟩ := horder
      change BestFirst (Ordered.place (fun a b => s.settings.queueOrder a b == .gt) _ _)
      rw [hranking]
      exact place_sorted hsorted _
  · rename_i hle
    refine ⟨rfl, rfl, rfl, rfl, .refl _, ⟨[], .refl _, nofun⟩, fun y hy hlt => ?_, fun _ h => h⟩
    obtain rfl := List.mem_singleton.1 hy
    exact absurd hlt hle

theorem Opened.trans {bound : Extended} {xs ys : List (Subproblem σ Extended)}
    {s s' s'' : Solver σ κ Extended} (h : Opened bound xs s s') (h' : Opened bound ys s' s'') :
    Opened bound (xs ++ ys) s s'' := by
  obtain ⟨new, hperm, hnew⟩ := h.queue
  obtain ⟨new', hperm', hnew'⟩ := h'.queue
  refine ⟨h'.settings.trans h.settings, h'.sense.trans h.sense, h'.lower.trans h.lower,
    h'.solution.trans h.solution, h.session.trans h'.session, ⟨new' ++ new, ?_, fun N hN => ?_⟩,
    fun z hz hlt => ?_, fun horder hsorted => h'.sorted (by rw [h.settings]; exact horder)
      (h.sorted horder hsorted)⟩
  · rw [List.append_assoc]
    exact hperm'.trans (hperm.append_left new')
  · rcases List.mem_append.1 hN with hN | hN
    · obtain ⟨z, hz, rfl⟩ := hnew' N hN
      exact ⟨z, List.mem_append_right _ hz, rfl⟩
    · obtain ⟨z, hz, rfl⟩ := hnew N hN
      exact ⟨z, List.mem_append_left _ hz, rfl⟩
  · rcases List.mem_append.1 hz with hz | hz
    · exact hperm'.mem_iff.2 (List.mem_append_right _ (h.opens z hz hlt))
    · exact h'.opens z hz (by rw [h.lower]; exact hlt)

theorem foldl_openIf_opened (bound : Extended) (subs : List (Subproblem σ Extended))
    (s : Solver σ κ Extended) : Opened bound subs s (subs.foldl (openIf bound) s) := by
  induction subs generalizing s with
  | nil => exact .refl bound s
  | cons z subs ih => exact (openIf_opened bound s z).trans (ih _)

/-- **What is handed out is opened if it may still beat the incumbent.** -/
theorem openCutset_opened (s : Solver σ κ Extended) (bound : Extended) :
    Opened bound s.diagram.handOut.1 s (s.openCutset bound) := by
  have h := foldl_openIf_opened bound s.diagram.handOut.1
    { s with diagram := s.diagram.handOut.2 }
  exact ⟨h.settings, h.sense, h.lower, h.solution, h.session, h.queue, h.opens, h.sorted⟩

/-! ### Bounding a sub-problem -/

/-- A solver that holds a relaxed diagram of a sub-problem, before and after the diagram
bounds it. -/
inductive Curbed (P : Subproblem σ Extended) (c : Report Extended)
    (s s' : Solver σ κ Extended) : Prop where
  /-- An exact diagram tells the best solution. -/
  | settled (hexact : c.isExact = true)
      (hpub : Published s c.bestValue s.diagram.bestSolution s')
  /-- Any other hands sub-problems out.  All of them are opened, unless no value of the
  diagram may beat the incumbent. -/
  | passed {s₂ : Solver σ κ Extended} {subs : List (Subproblem σ Extended)}
      (hpub : Published s s.diagram.bestExactValue s.diagram.bestExactSolution s₂)
      (hopen : Opened P.bound subs s₂ s') (hsubs : ∀ z ∈ subs, z ∈ s.diagram.handOut.1)
      (hall : ∀ v, c.bestValue = some v → s₂.standing.lower < v →
        ∀ z ∈ s.diagram.handOut.1, z ∈ subs)

/-- **How a diagram that could be compiled bounds a sub-problem.** -/
theorem bound_curbed [BEq σ] [Hashable σ] [BEq κ] {s s₁ : Solver σ κ Extended} {width : Nat}
    {P : Subproblem σ Extended} {c : Report Extended}
    (hcompile : s.compile .relaxed width P = (s₁, .ok c)) :
    (s.bound width P).2 = none ∧ Curbed P c s₁ (s.bound width P).1 := by
  unfold Solver.bound
  rw [hcompile]
  dsimp only
  split
  · rename_i hexact
    exact ⟨rfl, .settled hexact (publish_published _ _ _)⟩
  · have hpub := publish_published s₁ s₁.diagram.bestExactValue s₁.diagram.bestExactSolution
    split
    · have hopen := openCutset_opened
        (s₁.publish s₁.diagram.bestExactValue s₁.diagram.bestExactSolution) P.bound
      rw [hpub.diagram] at hopen
      exact ⟨rfl, .passed hpub hopen (fun _ hz => hz) fun _ _ _ _ hz => hz⟩
    · rename_i hany
      refine ⟨rfl, .passed hpub (.refl _ _) (fun z hz => absurd hz List.not_mem_nil)
        fun v hv hlt => ?_⟩
      rw [hv, Option.any_some, decide_eq_true_eq] at hany
      exact absurd hlt hany

end DiagramSearch
