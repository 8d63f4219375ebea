/-
# Trails of decisions

`Problem.Wanders` says which states decisions lead to, one for each of some free
variables, in any order; `Problem.Leads` says so of the variables that a branching rule
picks.  A trail lists its decisions deepest first, as a diagram reads them off, and its
value grows from decision to decision.

* `Wanders.replay_reverse`: a trail replays to the state and the value it leads to;
* `optimum_of_some`, `le_optimum`, `exists_optimum_eq`: the optimum of a state
  is that of its best decision;
* `Leads.add_optimum_le`: **no trail gains on the optimum**, so the value and
  the optimum of what a trail leads to never exceed those of its start;
* `exists_leads`: **a trail attains it**, if there is one that ends;
* `Subproblem.Reached`: the sub-problems whose path, put back in order, is a
  trail from the root.
-/

import Mathlib.Data.List.Perm.Basic
import DiagramSearch.Proofs.ExactValues
import DiagramSearch.Completions
import DiagramSearch.Subproblem

namespace DiagramSearch

open Extended

variable {σ : Type}

/-! ### Free variables along a trail -/

theorem Variables.ext_mem {s t : Variables} (h : ∀ v, v ∈ s ↔ v ∈ t) : s = t := by
  obtain ⟨l, hl⟩ := s
  obtain ⟨l', hl'⟩ := t
  have hperm : l.Perm l' :=
    (List.perm_ext_iff_of_nodup (hl.imp ne_of_lt) (hl'.imp ne_of_lt)).2 h
  have heq : l = l' := hperm.eq_of_pairwise (fun _ _ _ _ h h' => (lt_asymm h h').elim) hl hl'
  subst heq
  rfl

theorem Variables.erase_right_comm (s : Variables) (u v : Nat) :
    (s.erase u).erase v = (s.erase v).erase u :=
  Variables.ext_mem fun w => by
    simp only [Variables.mem_erase]
    exact and_right_comm

namespace Branching

/-- The variables left free after one pick. -/
def rest (b : Branching σ) (free : Variables) : Variables :=
  match b free [] with
  | some v => free.erase v
  | none => free

/-- The variables left free after a number of picks. -/
def freeAt (b : Branching σ) (free : Variables) : Nat → Variables
  | 0 => free
  | i + 1 => b.rest (b.freeAt free i)

theorem rest_of_some {b : Branching σ} {free : Variables} {v : { v : Nat // v ∈ free }}
    (h : b free [] = some v) : b.rest free = free.erase v := by
  rw [rest, h]

theorem rest_of_none {b : Branching σ} {free : Variables} (h : b free [] = none) :
    b.rest free = free := by
  rw [rest, h]

theorem freeAt_add (b : Branching σ) (free : Variables) (i j : Nat) :
    b.freeAt free (i + j) = b.freeAt (b.freeAt free i) j := by
  induction j with
  | zero => rfl
  | succ j ih => rw [← Nat.add_assoc, freeAt, freeAt, ih]

theorem Static.apply_eq {b : Branching σ} (hb : b.Static) (free : Variables) (states : List σ) :
    b free states = b free [] := hb free states []

theorem Total.size_eq_zero {b : Branching σ} (hb : b.Total) {free : Variables}
    (h : b free [] = none) : free.size = 0 := by
  by_contra hne
  have := hb free [] hne
  simp [h] at this

/-- A rule that picks while it can leaves one variable less with each pick. -/
theorem Total.size_freeAt {b : Branching σ} (hb : b.Total) (free : Variables) (i : Nat) :
    (b.freeAt free i).size = free.size - i := by
  induction i with
  | zero => rfl
  | succ i ih =>
    cases hv : b (b.freeAt free i) [] with
    | none =>
      have hempty := hb.size_eq_zero hv
      rw [freeAt, rest_of_none hv]
      omega
    | some v =>
      have herase := Variables.size_erase_add_one v.2
      rw [freeAt, rest_of_some hv]
      omega

end Branching

/-! ### The optimum of a state -/

namespace Problem

variable {p : Problem σ Extended} {b : Branching σ}

theorem optimum_of_none {free : Variables} (h : b free [] = none) (s : σ) :
    p.optimum b free s = 0 := by
  unfold optimum
  cases free.size <;> simp [optimumIn, h]

theorem optimum_of_some {free : Variables} {v : { v : Nat // v ∈ free }} (h : b free [] = some v)
    (s : σ) :
    p.optimum b free s = ((p.domain v s).map fun d =>
      p.cost s d + p.optimum b (free.erase v) (p.transition 0 s d)).foldl max negInf := by
  unfold optimum
  rw [← Variables.size_erase_add_one v.2, optimumIn]
  simp only [h]
  rfl

theorem le_foldl_max {l : List Extended} {a x : Extended} (h : x ∈ l ∨ x ≤ a) :
    x ≤ l.foldl max a := by
  induction l generalizing a with
  | nil => simpa using h
  | cons y l ih =>
    refine ih ?_
    rcases h with h | h
    · rcases List.mem_cons.1 h with rfl | h
      · exact .inr (le_max_right _ _)
      · exact .inl h
    · exact .inr (h.trans (le_max_left _ _))

theorem foldl_max_mem (l : List Extended) (a : Extended) :
    l.foldl max a = a ∨ l.foldl max a ∈ l := by
  induction l generalizing a with
  | nil => exact .inl rfl
  | cons y l ih =>
    rcases ih (max a y) with h | h
    · rcases max_choice a y with hmax | hmax
      · exact .inl (h.trans hmax)
      · refine .inr (List.mem_cons.2 (.inl ?_))
        exact h.trans hmax
    · exact .inr (List.mem_cons_of_mem y h)

/-- A decision is worth at most the optimum. -/
theorem le_optimum {free : Variables} {v : { v : Nat // v ∈ free }} (h : b free [] = some v)
    {s : σ} {d : Decision} (hd : d ∈ p.domain v s) :
    p.cost s d + p.optimum b (free.erase v) (p.transition 0 s d) ≤ p.optimum b free s := by
  rw [optimum_of_some h]
  exact le_foldl_max (.inl (List.mem_map.2 ⟨d, hd, rfl⟩))

/-- An optimum that can be reached is reached by a first decision. -/
theorem exists_optimum_eq {free : Variables} {v : { v : Nat // v ∈ free }}
    (h : b free [] = some v) {s : σ} (hs : p.optimum b free s ≠ negInf) :
    ∃ d ∈ p.domain v s,
      p.cost s d + p.optimum b (free.erase v) (p.transition 0 s d) = p.optimum b free s := by
  rw [optimum_of_some h] at hs ⊢
  rcases foldl_max_mem _ negInf with hnone | hmem
  · exact absurd hnone hs
  · exact List.mem_map.1 hmem

/-! ### Trails -/

/-- Where decisions lead from a state of a given value, the deepest decision first: the
state and the value that are reached and the variables left free.  Any of the free
variables may be decided on next. -/
inductive Wanders (p : Problem σ Extended) (free : Variables) (s : σ) (v : Extended) :
    Path → Variables → σ → Extended → Prop where
  | refl : Wanders p free s v [] free s v
  | step {ds : Path} {free' : Variables} {s' : σ} {v' : Extended} {x : Nat} {d : Decision}
      (h : Wanders p free s v ds free' s' v') (hx : x ∈ free') (hd : d ∈ p.domain x s') :
      Wanders p free s v (d :: ds) (free'.erase x) (p.transition 0 s' d) (v' + p.cost s' d)

namespace Wanders

variable {free free' free₂ : Variables} {s s' s₂ : σ} {v v' v₂ : Extended} {ds es : Path}

theorem trans (h : Wanders p free s v ds free' s' v') (h₂ : Wanders p free' s' v' es free₂ s₂ v₂) :
    Wanders p free s v (es ++ ds) free₂ s₂ v₂ := by
  induction h₂ with
  | refl => exact h
  | step _ hx hd ih => exact .step ih hx hd

theorem isFinite (hcost : ∀ s d, Value.isFinite (p.cost s d) = true)
    (h : Wanders p free s v ds free' s' v') (hv : Value.isFinite v = true) :
    Value.isFinite v' = true := by
  induction h with
  | refl => exact hv
  | step _ _ _ ih => exact isFinite_add ih (hcost _ _)

/-- A trail erases the variables of its decisions, in any order. -/
theorem free_eq_foldl (hp : p.Focused) (h : Wanders p free s v ds free' s' v') {path : Path}
    (hperm : ds.Perm path) : free' = path.foldl (fun free d => free.erase d.var) free := by
  have hcomm : RightCommutative fun (free : Variables) (d : Decision) => free.erase d.var :=
    ⟨fun s d e => Variables.erase_right_comm s d.var e.var⟩
  rw [← (List.reverse_perm ds |>.trans hperm).foldl_eq, List.foldl_reverse]
  clear hperm
  induction h with
  | refl => rfl
  | step _ _ hd ih => rw [List.foldr_cons, ← ih, hp _ _ _ hd]

/-- A trail gives a value to each variable once. -/
theorem map_var_perm (hp : p.Focused) (h : Wanders p free s v ds free' s' v') :
    (ds.map (·.var) ++ free'.toList).Perm free.toList := by
  induction h with
  | refl => exact .refl _
  | @step ds free' s' v' x d _ hx hd ih =>
    refine List.Perm.trans ?_ ih
    rw [List.map_cons, List.cons_append, hp _ _ _ hd]
    have herase : (free'.erase x).toList = free'.toList.erase x :=
      (List.Nodup.erase_eq_filter (free'.increasing.imp ne_of_lt) x).symm
    have hmem : x ∈ free'.toList := hx
    rw [herase]
    refine List.perm_middle.symm.trans ?_
    exact List.Perm.append_left _ (List.perm_cons_erase hmem).symm

/-- **A trail replays to where it leads.** -/
theorem replay_reverse (hp : p.Focused) (h : Wanders p free s v ds free' s' v') :
    p.replay ds.reverse s v = some (s', v') := by
  have happ : ∀ (as : Path) (e : Decision) s v s' v', p.replay as s v = some (s', v') →
      e ∈ p.domain e.var s' →
      p.replay (as ++ [e]) s v = some (p.transition 0 s' e, v' + p.cost s' e) := by
    intro as e
    induction as with
    | nil =>
      intro s v s' v' hr he
      obtain ⟨rfl, rfl⟩ := Prod.mk.inj (Option.some.inj hr)
      simp [replay, he]
    | cons a as ih =>
      intro s v s' v' hr he
      rw [replay] at hr
      rw [List.cons_append, replay]
      split at hr
      · rename_i ha
        rw [if_pos ha]
        exact ih _ _ _ _ hr he
      · cases hr
  induction h with
  | refl => rfl
  | step _ _ hd ih =>
    rw [List.reverse_cons]
    exact happ _ _ _ _ _ _ ih (by rw [hp _ _ _ hd]; exact hd)

end Wanders

/-- Where decisions lead if the variables are taken as a rule picks them. -/
inductive Leads (p : Problem σ Extended) (b : Branching σ) (free : Variables) (s : σ)
    (v : Extended) : Path → Variables → σ → Extended → Prop where
  | refl : Leads p b free s v [] free s v
  | step {ds : Path} {free' : Variables} {s' : σ} {v' : Extended}
      {x : { x : Nat // x ∈ free' }} {d : Decision} (h : Leads p b free s v ds free' s' v')
      (hx : b free' [] = some x) (hd : d ∈ p.domain x s') :
      Leads p b free s v (d :: ds) (free'.erase x) (p.transition 0 s' d) (v' + p.cost s' d)

namespace Leads

variable {free free' free₂ : Variables} {s s' s₂ : σ} {v v' v₂ : Extended} {ds es : Path}

theorem trans (h : Leads p b free s v ds free' s' v') (h₂ : Leads p b free' s' v' es free₂ s₂ v₂) :
    Leads p b free s v (es ++ ds) free₂ s₂ v₂ := by
  induction h₂ with
  | refl => exact h
  | step _ hx hd ih => exact .step ih hx hd

/-- **No trail gains on the optimum.** -/
theorem add_optimum_le (h : Leads p b free s v ds free' s' v') :
    v' + p.optimum b free' s' ≤ v + p.optimum b free s := by
  induction h with
  | refl => exact le_rfl
  | @step ds free' s' v' x d _ hx hd ih =>
    calc v' + p.cost s' d + p.optimum b (free'.erase x) (p.transition 0 s' d)
        = v' + (p.cost s' d + p.optimum b (free'.erase x) (p.transition 0 s' d)) := add_assoc ..
      _ ≤ v' + p.optimum b free' s' := add_le_add_right (le_optimum hx hd) v'
      _ ≤ v + p.optimum b free s := ih

theorem free_eq_freeAt (h : Leads p b free s v ds free' s' v') :
    free' = b.freeAt free ds.length := by
  induction h with
  | refl => rfl
  | step _ hx _ ih => rw [List.length_cons, Branching.freeAt, ← ih, Branching.rest_of_some hx]

/-- What a rule picks is free. -/
theorem wanders (h : Leads p b free s v ds free' s' v') : p.Wanders free s v ds free' s' v' := by
  induction h with
  | refl => exact .refl
  | @step _ _ _ _ x _ _ _ hd ih => exact .step ih x.2 hd

/-- A trail never falls to the lower end. -/
theorem ne_negInf (hcost : ∀ s d, Value.isFinite (p.cost s d) = true)
    (h : Leads p b free s v ds free' s' v') (hv : v ≠ negInf) : v' ≠ negInf := by
  induction h with
  | refl => exact hv
  | step _ _ _ ih => exact add_ne_negInf_iff.2 ⟨ih, ne_negInf_of_isFinite (hcost _ _)⟩

end Leads

/-- **What a state can gain, a trail gains** that ends where no variable is picked. -/
theorem exists_leads {free : Variables} {s : σ} (v : Extended) (hs : p.optimum b free s ≠ negInf) :
    ∃ ds free' s', p.Leads b free s v ds free' s' (v + p.optimum b free s) ∧ b free' [] = none := by
  generalize hn : free.size = n
  induction n generalizing free s v with
  | zero =>
    have hnone : b free [] = none := Branching.eq_none_of_size hn
    refine ⟨[], free, s, ?_, hnone⟩
    rw [optimum_of_none hnone, add_zero]
    exact .refl
  | succ n ih =>
    cases hx : b free [] with
    | none =>
      refine ⟨[], free, s, ?_, hx⟩
      rw [optimum_of_none hx, add_zero]
      exact .refl
    | some x =>
      obtain ⟨d, hd, heq⟩ := exists_optimum_eq hx hs
      have hsize := Variables.size_erase_add_one x.2
      rw [← heq] at hs ⊢
      obtain ⟨ds, free', s', hds, hend⟩ := ih (v + p.cost s d) (add_ne_negInf_iff.1 hs).2 (by omega)
      rw [add_assoc] at hds
      exact ⟨_, free', s', (Leads.refl.step hx hd).trans hds, hend⟩

end Problem

/-! ### Sub-problems that a trail leads to -/

/-- A sub-problem whose path, put back in order, is a trail from the root. -/
def Subproblem.Reached (p : Problem σ Extended) (b : Branching σ) (n : Subproblem σ Extended) :
    Prop :=
  ∃ ds : Path, ds.Perm n.path ∧ ds.length = n.depth ∧
    p.Leads b (.all p.variables) p.initialState p.initialValue ds (n.free p.variables)
      n.state n.value

namespace Subproblem.Reached

variable {p : Problem σ Extended} {b : Branching σ} {n : Subproblem σ Extended}

theorem free_eq (h : n.Reached p b) :
    n.free p.variables = b.freeAt (.all p.variables) n.depth := by
  obtain ⟨ds, _, hlen, hds⟩ := h
  rw [← hlen]
  exact hds.free_eq_freeAt

/-- What a trail leads to from a sub-problem that is reached is reached. -/
theorem extend (hp : p.Focused) (h : n.Reached p b) {ds : Path} {free : Variables} {s : σ}
    {v : Extended} (hds : p.Leads b (n.free p.variables) n.state n.value ds free s v)
    {m : Subproblem σ Extended} (hstate : m.state = s) (hvalue : m.value = v)
    (hpath : m.path = n.path ++ ds) (hdepth : m.depth = n.depth + ds.length) :
    m.Reached p b := by
  obtain ⟨es, hperm, hlen, hes⟩ := h
  have hall := hes.trans hds
  have hperm' : (ds ++ es).Perm m.path := by
    rw [hpath]
    exact List.perm_append_comm.trans (hperm.append_right ds)
  refine ⟨ds ++ es, hperm', by rw [List.length_append, hlen, hdepth, Nat.add_comm], ?_⟩
  rw [hstate, hvalue]
  have hfree : m.free p.variables = free := (hall.wanders.free_eq_foldl hp hperm').symm
  rw [hfree]
  exact hall

end Subproblem.Reached
end DiagramSearch
