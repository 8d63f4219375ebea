/-
# Threads through the whole problem

A sub-problem that is reached is a part of the whole problem, so depths, free
variables and optima can be counted from the root of the problem instead of the
root of a diagram.

* `Request.optimumAt_eq`: the optimum at a layer is the optimum at a depth;
* `Problem.Thread`: pairs from which the optimum can be reached through pairs of
  the same kind, whichever sub-problem they are met in (`Thread.request`);
* `Problem.optimumFrom_ne_posInf`: where costs are finite, no optimum is at the
  upper end, so a better value makes a better sum (`add_optimumFrom_lt`).
-/

import DiagramSearch.Proofs.Descending

namespace DiagramSearch

open Extended

variable {σ κ : Type}

namespace Problem

/-- The optimum of a state at a depth of the problem. -/
def optimumFrom (p : Problem σ Extended) (b : Branching σ) (k : Nat) (s : σ) : Extended :=
  p.optimum b (b.freeAt (.all p.variables) k) s

/-- The optimum of the problem. -/
def total (p : Problem σ Extended) (b : Branching σ) : Extended :=
  p.initialValue + p.optimum b (.all p.variables) p.initialState

/-- A trail from the root leads to a state, at a depth, with a value. -/
def Reaches (p : Problem σ Extended) (b : Branching σ) (s : σ) (k : Nat) (v : Extended) : Prop :=
  ∃ ds, ds.length = k ∧ p.Leads b (.all p.variables) p.initialState p.initialValue ds
    (b.freeAt (.all p.variables) k) s v

/-- Pairs of a state and a value, by their depth, from which a target can be
reached through pairs of the same kind. -/
structure Thread (p : Problem σ Extended) (b : Branching σ) (target : Extended)
    (safe : Nat → σ → Extended → Prop) : Prop where
  target_ne : target ≠ negInf
  start : safe 0 p.initialState p.initialValue
  reach : ∀ k s v, safe k s v → target ≤ v + p.optimumFrom b k s
  step : ∀ k s v x, safe k s v → b (b.freeAt (.all p.variables) k) [] = some x →
    ∃ d ∈ p.domain x s, safe (k + 1) (p.transition 0 s d) (v + p.cost s d)
  raise : ∀ k s v v', safe k s v → v ≤ v' → p.Reaches b s k v' → safe k s v'

variable {p : Problem σ Extended} {b : Branching σ} {target : Extended} {s : σ} {k : Nat}
  {v w : Extended}

theorem Reaches.add_optimumFrom_le (h : p.Reaches b s k v) :
    v + p.optimumFrom b k s ≤ p.total b := by
  obtain ⟨ds, _, hds⟩ := h
  exact hds.add_optimum_le

/-- No optimum is at the upper end. -/
theorem optimum_ne_posInf (hcost : ∀ s d, Value.isFinite (p.cost s d) = true) (free : Variables)
    (s : σ) : p.optimum b free s ≠ posInf := by
  induction hn : free.size generalizing free s with
  | zero =>
    rw [optimum_of_none (Branching.eq_none_of_size hn)]
    simp
  | succ n ih =>
    cases hb : b free [] with
    | none =>
      rw [optimum_of_none hb]
      simp
    | some x =>
      intro htop
      obtain ⟨d, _, heq⟩ := exists_optimum_eq hb (p := p) (s := s) (by rw [htop]; simp)
      have hsize := Variables.size_erase_add_one x.2
      have hne := ih (free.erase x) (p.transition 0 s d) (by omega)
      obtain ⟨q, hq⟩ := isFinite_iff.1 (hcost s d)
      rw [hq, htop] at heq
      cases hopt : p.optimum b (free.erase x) (p.transition 0 s d) with
      | negInf => simp [hopt] at heq
      | finite a => simp [hopt] at heq
      | posInf => exact hne hopt

theorem optimumFrom_ne_posInf (hcost : ∀ s d, Value.isFinite (p.cost s d) = true) :
    p.optimumFrom b k s ≠ posInf := optimum_ne_posInf hcost _ s

/-- A better value makes a better sum, unless there is no sum. -/
theorem add_optimumFrom_lt (hcost : ∀ s d, Value.isFinite (p.cost s d) = true)
    (hvw : v < w) (hne : p.optimumFrom b k s ≠ negInf) :
    v + p.optimumFrom b k s < w + p.optimumFrom b k s := by
  refine lt_of_not_ge fun hle => not_le.2 hvw (le_of_add_le_add_finite ?_ hle)
  cases hopt : p.optimumFrom b k s with
  | negInf => exact absurd hopt hne
  | finite a => rfl
  | posInf => exact absurd hopt (optimumFrom_ne_posInf hcost)

/-- All pairs from which the target can be reached at all make a thread. -/
theorem thread_all (htarget : target ≠ negInf) (hle : target ≤ p.total b) :
    p.Thread b target fun k s v => target ≤ v + p.optimumFrom b k s where
  target_ne := htarget
  start := hle
  reach _ _ _ h := h
  step k s v x h hx := by
    have hne : p.optimumFrom b k s ≠ negInf := by
      intro hneg
      rw [hneg, add_negInf, le_negInf_iff] at h
      exact htarget h
    obtain ⟨d, hd, heq⟩ := exists_optimum_eq hx hne
    refine ⟨d, hd, ?_⟩
    rw [optimumFrom, Branching.freeAt, Branching.rest_of_some hx, add_assoc, heq]
    exact h
  raise _ _ _ _ h hle _ := h.trans (add_le_add_left hle _)

end Problem

/-! ### Sub-problems as parts of the problem -/

section Request

variable {r : Request σ κ Extended} {target : Extended} {safe : Nat → σ → Extended → Prop}
  {i : Nat} {s : σ} {v : Extended}

/-- The free variables of a layer are those at its depth. -/
theorem Request.freeAt_eq (h : r.residual.Reached r.model.problem r.branching) (i : Nat) :
    r.freeAt i =
      r.branching.freeAt (.all r.model.problem.variables) (r.residual.depth + i) := by
  rw [Branching.freeAt_add, freeAt, h.free_eq]

/-- So is the optimum. -/
theorem Request.optimumAt_eq (h : r.residual.Reached r.model.problem r.branching) (i : Nat)
    (s : σ) : r.optimumAt i s =
      r.model.problem.optimumFrom r.branching (r.residual.depth + i) s := by
  rw [optimumAt, Problem.optimumFrom, Request.freeAt_eq h]

theorem Request.Traced.reaches (h : r.residual.Reached r.model.problem r.branching) {ds : Path}
    (hds : r.Traced i ds s v) :
    r.model.problem.Reaches r.branching s (r.residual.depth + i) v := by
  obtain ⟨es, _, hlen, hes⟩ := h
  refine ⟨ds ++ es, by rw [List.length_append, hlen, hds.1, Nat.add_comm], ?_⟩
  rw [← Request.freeAt_eq ⟨es, by assumption, hlen, hes⟩]
  exact hes.trans hds.2

theorem Request.Attains.reaches (h : r.residual.Reached r.model.problem r.branching) {k : Nat}
    (hattain : r.Attains s k v) : r.model.problem.Reaches r.branching s k v := by
  obtain ⟨i, ds, rfl, hds⟩ := hattain
  exact hds.reaches h

/-- **A thread of the problem is one of every sub-problem.** -/
theorem Problem.Thread.request (h : r.residual.Reached r.model.problem r.branching)
    (ht : r.model.problem.Thread r.branching target safe) : r.Thread target safe where
  target_ne := ht.target_ne
  reach i s v hs := by
    rw [Request.optimumAt_eq h]
    exact ht.reach _ s v hs
  step i s v hs hi := by
    obtain ⟨x, hx⟩ := Option.ne_none_iff_exists'.1 hi
    suffices hstep : ∀ free, free = r.freeAt i → ∀ x : { x : Nat // x ∈ free },
        r.branching free [] = some x → ∃ d ∈ r.model.problem.domain x s,
          safe (r.residual.depth + (i + 1)) (r.model.problem.transition 0 s d)
            (v + r.model.problem.cost s d) by
      obtain ⟨d, hd, hsafe⟩ := hstep _ rfl x hx
      exact ⟨d, ⟨x, hx, hd⟩, hsafe⟩
    rintro free hfree y hy
    rw [Request.freeAt_eq h] at hfree
    subst hfree
    exact ht.step _ s v y hs hy
  raise i s v ds v' hs hle hds := ht.raise _ s v v' hs hle (hds.reaches h)

end Request
end DiagramSearch
