/-
# The line of exact values

`Extended` is the line of rational numbers with two ends.  Its order is linear
and its sum is monotone, so the lemmas of ordered monoids apply to it.  What is
special about it is the lower end, which a sum never leaves, and the two ways in
which the search takes differences:

* `add_le_of_le_sub`: a value that fits below `t - c` fits below `t` once `c` is
  added, also when one of the three is an end;
* `add_le_of_le_headroom`: the same for the room that is left below a best
  value.

The order and the sum are those of `Value`.  Ordered monoids come before it in the
imports, here and in all modules that rest on this one, so that `Value` is looked at
first wherever both have an operation.
-/

import Mathlib.Algebra.Order.Monoid.Defs
import Mathlib.Algebra.Order.Ring.Rat
import Mathlib.Tactic.Linarith
import DiagramSearch.Sense
import DiagramSearch.Value.Extended

namespace DiagramSearch
namespace Extended

theorem le_def {a b : Extended} : a ≤ b ↔ le a b = true := Iff.rfl

theorem lt_def {a b : Extended} : a < b ↔ le b a = false := Iff.rfl

instance : LinearOrder Extended where
  le_refl a := by cases a <;> simp [le_def, le]
  le_trans a b c := by
    cases a <;> cases b <;> cases c <;> simp [le_def, le]
    exact le_trans
  le_antisymm a b := by
    cases a <;> cases b <;> simp [le_def, le]
    exact le_antisymm
  le_total a b := by cases a <;> cases b <;> simp [le_def, le, le_total]
  lt_iff_le_not_ge a b := by
    cases a <;> cases b <;> simp [le_def, lt_def, le]
    exact le_of_lt
  toDecidableLE := fun a b => inferInstanceAs (Decidable (le a b = true))
  min_def _ _ := rfl
  max_def _ _ := rfl

@[simp]
theorem finite_le_finite {a b : ℚ} : finite a ≤ finite b ↔ a ≤ b := by simp [le_def, le]

@[simp]
theorem negInf_le (a : Extended) : negInf ≤ a := rfl

@[simp]
theorem le_posInf (a : Extended) : a ≤ posInf := by cases a <;> rfl

@[simp]
theorem le_negInf_iff {a : Extended} : a ≤ negInf ↔ a = negInf := by
  cases a <;> simp [le_def, le]

@[simp]
theorem posInf_le_iff {a : Extended} : posInf ≤ a ↔ a = posInf := by
  cases a <;> simp [le_def, le]

@[simp]
theorem value_negInf : (Value.negInf : Extended) = negInf := rfl

@[simp]
theorem value_posInf : (Value.posInf : Extended) = posInf := rfl

theorem negInf_lt_iff {a : Extended} : negInf < a ↔ a ≠ negInf := by
  rw [← not_le, le_negInf_iff]

@[simp]
theorem zero_def : (0 : Extended) = finite 0 := rfl

@[simp]
theorem finite_add_finite (a b : ℚ) : finite a + finite b = finite (a + b) := rfl

@[simp]
theorem negInf_add (a : Extended) : negInf + a = negInf := by cases a <;> rfl

@[simp]
theorem add_negInf (a : Extended) : a + negInf = negInf := by cases a <;> rfl

@[simp]
theorem posInf_add_finite (a : ℚ) : posInf + finite a = posInf := rfl

@[simp]
theorem finite_add_posInf (a : ℚ) : finite a + posInf = posInf := rfl

@[simp]
theorem posInf_add_posInf : posInf + posInf = posInf := rfl

instance : AddCommMonoid Extended where
  add_assoc a b c := by cases a <;> cases b <;> cases c <;> simp [add_assoc]
  zero_add a := by cases a <;> simp
  add_zero a := by cases a <;> simp
  add_comm a b := by cases a <;> cases b <;> simp [add_comm]
  nsmul := nsmulRec

instance : IsOrderedAddMonoid Extended where
  add_le_add_left a b h c := by
    cases c with
    | negInf => simp
    | finite c => cases a <;> cases b <;> simp_all
    | posInf => cases a <;> cases b <;> simp_all

/-- A sum leaves the lower end only if both of its terms do. -/
theorem add_ne_negInf_iff {a b : Extended} : a + b ≠ negInf ↔ a ≠ negInf ∧ b ≠ negInf := by
  cases a <;> cases b <;> simp

/-- Holds of a rational number, and not of the ends. -/
theorem isFinite_iff {a : Extended} : Value.isFinite a = true ↔ ∃ q, a = finite q := by
  cases a <;> simp [Value.isFinite]

theorem ne_negInf_of_isFinite {a : Extended} (h : Value.isFinite a = true) : a ≠ negInf := by
  rintro rfl
  simp [Value.isFinite] at h

theorem isFinite_add {a b : Extended} (ha : Value.isFinite a = true)
    (hb : Value.isFinite b = true) : Value.isFinite (a + b) = true := by
  obtain ⟨x, rfl⟩ := isFinite_iff.1 ha
  obtain ⟨y, rfl⟩ := isFinite_iff.1 hb
  exact isFinite_iff.2 ⟨x + y, rfl⟩

/-- Adding a rational number to both sides changes nothing. -/
theorem le_of_add_le_add_finite {a b c : Extended} (hc : Value.isFinite c = true)
    (h : a + c ≤ b + c) : a ≤ b := by
  obtain ⟨q, rfl⟩ := isFinite_iff.1 hc
  cases a <;> cases b <;> simp_all

/-- **What fits below a difference fits below the minuend once the rest is
added.** -/
theorem add_le_of_le_sub {h t c : Extended} (hle : h ≤ t - c) : h + c ≤ t := by
  change h ≤ t + c.neg at hle
  cases h with
  | negInf => simp
  | finite h =>
    cases c with
    | negInf => simp
    | finite c =>
      cases t with
      | negInf => simp [neg] at hle
      | finite t =>
        simp only [neg, finite_add_finite, finite_le_finite] at hle ⊢
        linarith
      | posInf => simp
    | posInf => simp [neg] at hle
  | posInf =>
    cases c with
    | negInf => simp
    | finite c => cases t <;> simp [neg] at hle ⊢
    | posInf => simp [neg] at hle

theorem headroom_negInf (best : Extended) : Value.headroom best negInf = posInf := rfl

theorem headroom_of_ne {best delta : Extended} (h : delta ≠ negInf) :
    Value.headroom best delta = best - delta := if_neg (by simpa [BEq.beq] using h)

/-- **What fits into the room below a best value reaches at most that value.** -/
theorem add_le_of_le_headroom {h best delta : Extended} (hle : h ≤ Value.headroom best delta) :
    h + delta ≤ best := by
  by_cases hd : delta = negInf
  · rw [hd, add_negInf]
    exact negInf_le best
  · rw [headroom_of_ne hd] at hle
    exact add_le_of_le_sub hle

/-- What reaches at most a best value that is not the upper end fits into the room
below it. -/
theorem le_headroom_of_add_le {h best delta : Extended} (hbest : best < posInf)
    (hle : h + delta ≤ best) : h ≤ Value.headroom best delta := by
  by_cases hd : delta = negInf
  · rw [hd, headroom_negInf]
    exact le_posInf h
  · rw [headroom_of_ne hd]
    change h ≤ best + delta.neg
    cases h with
    | negInf => simp
    | finite h =>
      cases delta with
      | negInf => exact absurd rfl hd
      | finite delta =>
        cases best with
        | negInf => simp at hle
        | finite best =>
          simp only [neg, finite_add_finite, finite_le_finite] at hle ⊢
          linarith
        | posInf => simp at hbest
      | posInf => exact absurd (posInf_le_iff.1 hle) hbest.ne
    | posInf =>
      cases delta with
      | negInf => exact absurd rfl hd
      | finite delta => exact absurd (posInf_le_iff.1 hle) hbest.ne
      | posInf => exact absurd (posInf_le_iff.1 hle) hbest.ne

theorem neg_le_neg {a b : Extended} (h : a ≤ b) : b.neg ≤ a.neg := by
  cases a <;> cases b <;> simp_all [neg]

/-- The more is still to come, the less room is left. -/
theorem headroom_anti (best : Extended) {a b : Extended} (h : a ≤ b) :
    Value.headroom best b ≤ Value.headroom best a := by
  by_cases ha : a = negInf
  · rw [ha, headroom_negInf]
    exact le_posInf _
  · have hb : b ≠ negInf := fun hb => ha (le_negInf_iff.1 (hb ▸ h))
    rw [headroom_of_ne ha, headroom_of_ne hb]
    exact add_le_add_right (neg_le_neg h) best

/-- A cost that is paid first takes its part of the room. -/
theorem headroom_add_le (best delta : Extended) {c : Extended} (hc : Value.isFinite c = true) :
    Value.headroom best (c + delta) ≤ Value.headroom best delta - c := by
  obtain ⟨q, rfl⟩ := isFinite_iff.1 hc
  by_cases hd : delta = negInf
  · subst hd
    rw [headroom_negInf]
    exact le_posInf _
  · have hsum : finite q + delta ≠ negInf :=
      add_ne_negInf_iff.2 ⟨ne_negInf_of_isFinite hc, hd⟩
    rw [headroom_of_ne hd, headroom_of_ne hsum]
    change best + (finite q + delta).neg ≤ best + delta.neg + (finite q).neg
    rw [add_assoc]
    refine add_le_add_right ?_ best
    cases delta with
    | negInf => exact absurd rfl hd
    | finite delta =>
      simp only [neg, finite_add_finite, finite_le_finite]
      linarith
    | posInf => simp [neg]

theorem headroom_zero (best : Extended) : Value.headroom best 0 = best := by
  have hzero : (0 : Extended) ≠ negInf := nofun
  rw [headroom_of_ne hzero]
  change best + (finite 0).neg = best
  rw [neg, neg_zero]
  exact add_zero best

theorem order_eq_gt_iff {a b : Extended} : Value.order a b = .gt ↔ b < a := by
  change (if a = b then Ordering.eq else if le a b then .lt else .gt) = .gt ↔ le a b = false
  by_cases hab : a = b
  · subst hab
    simpa using le_def.1 (le_refl a)
  · simp [hab]

theorem order_eq_eq_iff {a b : Extended} : Value.order a b = .eq ↔ a = b := by
  change (if a = b then Ordering.eq else if le a b then .lt else .gt) = .eq ↔ a = b
  by_cases hab : a = b
  · simp [hab]
  · simp only [hab, if_false, iff_false]
    split <;> simp

theorem order_eq_lt_iff {a b : Extended} : Value.order a b = .lt ↔ a < b := by
  rw [← not_iff_not, not_lt, le_iff_lt_or_eq, ← order_eq_gt_iff, @eq_comm _ b, ← order_eq_eq_iff]
  cases Value.order a b <;> decide

/-- Values are totally ordered. -/
instance : Std.TransCmp (Value.order (V := Extended)) where
  eq_swap {a b} := by
    cases h : Value.order b a with
    | lt => exact order_eq_gt_iff.2 (order_eq_lt_iff.1 h)
    | eq => exact order_eq_eq_iff.2 (order_eq_eq_iff.1 h).symm
    | gt => exact order_eq_lt_iff.2 (order_eq_gt_iff.1 h)
  isLE_trans {a b c} hab hbc := by
    rw [Ordering.isLE_iff_ne_gt, order_eq_gt_iff, not_lt] at hab hbc ⊢
    exact hab.trans hbc

/-- No tolerance makes a value greater than one that is at least as great. -/
theorem not_surpasses {a b : Extended} (h : a ≤ b) : Value.surpasses a b = false := by
  have hslack : (0 : Extended) ≤ Value.tolerance * max (max 1 (Value.abs a)) (Value.abs b) := by
    have hone : (1 : Extended) ≤ max (max 1 (Value.abs a)) (Value.abs b) :=
      (le_max_left _ _).trans (le_max_left _ _)
    generalize max (max 1 (Value.abs a)) (Value.abs b) = m at hone
    change (finite 0 : Extended) ≤ mul (finite (1 / 1000000000)) m
    cases m with
    | negInf => simp [le_def, le] at hone
    | finite m =>
      have hm : (1 : ℚ) ≤ m := finite_le_finite.1 hone
      simp only [mul, finite_le_finite]
      positivity
    | posInf => simp [mul]
  unfold Value.surpasses
  split
  · exact decide_eq_false (not_lt.2 h)
  · refine decide_eq_false (not_lt.2 (h.trans ?_))
    calc b = b + 0 := (add_zero b).symm
      _ ≤ b + Value.tolerance * max (max 1 (Value.abs a)) (Value.abs b) :=
        add_le_add_right hslack b

theorem abs_finite (q : ℚ) : Extended.abs (finite q) = finite |q| := by
  refine congrArg finite ?_
  split
  · rename_i hneg
    exact (abs_of_neg hneg).symm
  · rename_i hneg
    exact (abs_of_nonneg (not_lt.1 hneg)).symm

theorem max_finite (a b : ℚ) : max (finite a) (finite b) = finite (max a b) := by
  rcases le_total a b with h | h
  · rw [max_eq_right h, max_eq_right (finite_le_finite.2 h)]
  · rw [max_eq_left h, max_eq_left (finite_le_finite.2 h)]

/-- A rational number surpasses another if it is greater by more than the slack. -/
theorem surpasses_finite {a b : ℚ} : Value.surpasses (finite a) (finite b) = true ↔
    b + 1 / 1000000000 * max (max 1 |a|) |b| < a := by
  change decide (finite b + finite (1 / 1000000000) *
    max (max (finite 1) (Extended.abs (finite a))) (Extended.abs (finite b)) < finite a) = true ↔ _
  rw [abs_finite, abs_finite, max_finite, max_finite, decide_eq_true_iff, ← not_le, ← not_le]
  exact not_congr finite_le_finite

/-- Whatever can be had surpasses what cannot. -/
theorem surpasses_negInf {a : Extended} (h : a ≠ negInf) : Value.surpasses a negInf = true := by
  cases a with
  | negInf => exact absurd rfl h
  | finite a => rfl
  | posInf => rfl

end Extended

/-- Exact arithmetic: the order is linear, and the sum is monotone, commutative and
associative. -/
class Value.Exact (V : Type) [Value V] : Prop where
  le_refl (a : V) : a ≤ a
  le_trans {a b c : V} : a ≤ b → b ≤ c → a ≤ c
  le_antisymm {a b : V} : a ≤ b → b ≤ a → a = b
  le_total (a b : V) : a ≤ b ∨ b ≤ a
  add_zero (a : V) : a + 0 = a
  add_comm (a b : V) : a + b = b + a
  add_assoc (a b c : V) : a + b + c = a + (b + c)
  add_le_add_left {a b : V} : a ≤ b → ∀ c, a + c ≤ b + c

instance : Value.Exact Extended where
  le_refl _ := le_rfl
  le_trans := le_trans
  le_antisymm := le_antisymm
  le_total := le_total
  add_zero := add_zero
  add_comm := add_comm
  add_assoc := add_assoc
  add_le_add_left := add_le_add_left

namespace Sense

variable (sense : Sense) (v : Extended)

theorem orient_minimize (v : Extended) : minimize.orient v = v.neg := rfl

@[simp]
theorem orient_orient : sense.orient (sense.orient v) = v := by
  cases sense with
  | maximize => rfl
  | minimize => cases v <;> simp [orient_minimize, Extended.neg]

@[simp]
theorem isFinite_orient : Value.isFinite (sense.orient v) = Value.isFinite v := by
  cases sense with
  | maximize => rfl
  | minimize => cases v <;> rfl

end Sense
end DiagramSearch
