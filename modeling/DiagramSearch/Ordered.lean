/-
# Ordered lists

`place` puts an entry in front of the first one that it goes before, and `sort`
places the entries of a list one after the other, the last one first.  Entries
that go before each other keep their order, so the sort is stable.

* `place_perm`, `sort_perm`: no entry is lost or repeated;
* `place_ordered`, `sort_ordered`: for a total and transitive comparison the
  result is in order;
* `place_stable`, `sort_stable`: what holds of two entries, the former of them
  first, still holds of them where they go before each other.
-/

namespace DiagramSearch
namespace Ordered

variable {α : Type}

/-- Puts an entry in front of the first one that it goes before. -/
def place (before : α → α → Bool) (a : α) : List α → List α
  | [] => [a]
  | b :: bs => if before a b then a :: b :: bs else b :: place before a bs

/-- Orders a list, keeping the order of equivalent entries. -/
def sort (before : α → α → Bool) : List α → List α
  | [] => []
  | a :: as => place before a (sort before as)

theorem place_perm (before : α → α → Bool) (a : α) (l : List α) :
    (place before a l).Perm (a :: l) := by
  induction l with
  | nil => exact .refl _
  | cons b bs ih =>
    unfold place
    split
    · exact .refl _
    · exact (ih.cons b).trans (.swap a b bs)

theorem sort_perm (before : α → α → Bool) (l : List α) : (sort before l).Perm l := by
  induction l with
  | nil => exact .refl _
  | cons a as ih => exact (place_perm before a _).trans (ih.cons a)

theorem mem_place {before : α → α → Bool} {a b : α} {l : List α} :
    b ∈ place before a l ↔ b = a ∨ b ∈ l :=
  (place_perm before a l).mem_iff.trans List.mem_cons

/-- An entry is placed in order if it can be compared with those that are there. -/
theorem place_ordered {before : α → α → Bool} {a : α} {l : List α}
    (trans : ∀ b ∈ l, ∀ c ∈ l, before a b → before b c → before a c)
    (total : ∀ b ∈ l, before a b ∨ before b a)
    (h : l.Pairwise fun x y => before x y) : (place before a l).Pairwise fun x y => before x y := by
  induction l with
  | nil => simp [place]
  | cons b bs ih =>
    have hb := List.pairwise_cons.1 h
    unfold place
    split
    · rename_i hab
      refine List.pairwise_cons.2 ⟨fun x hx => ?_, h⟩
      rcases List.mem_cons.1 hx with rfl | hx'
      · exact hab
      · exact trans b List.mem_cons_self x hx hab (hb.1 x hx')
    · rename_i hab
      have htail := ih (fun x hx y hy => trans x (List.mem_cons_of_mem b hx) y
        (List.mem_cons_of_mem b hy)) (fun x hx => total x (List.mem_cons_of_mem b hx)) hb.2
      refine List.pairwise_cons.2 ⟨fun x hx => ?_, htail⟩
      rcases mem_place.1 hx with rfl | hx
      · exact (total b List.mem_cons_self).resolve_left hab
      · exact hb.1 x hx

/-- **A comparison that is transitive and total on a list puts it in order.** -/
theorem sort_ordered_of_mem {before : α → α → Bool} {l : List α}
    (trans : ∀ a ∈ l, ∀ b ∈ l, ∀ c ∈ l, before a b → before b c → before a c)
    (total : ∀ a ∈ l, ∀ b ∈ l, before a b ∨ before b a) :
    (sort before l).Pairwise fun x y => before x y := by
  induction l with
  | nil => exact .nil
  | cons a as ih =>
    have hmem : ∀ b ∈ sort before as, b ∈ a :: as := fun b hb =>
      List.mem_cons_of_mem a ((sort_perm before as).mem_iff.1 hb)
    refine place_ordered
      (fun b hb c hc => trans a List.mem_cons_self b (hmem b hb) c (hmem c hc))
      (fun b hb => total a List.mem_cons_self b (hmem b hb)) (ih ?_ ?_)
    · exact fun x hx y hy z hz => trans x (List.mem_cons_of_mem a hx) y
        (List.mem_cons_of_mem a hy) z (List.mem_cons_of_mem a hz)
    · exact fun x hx y hy => total x (List.mem_cons_of_mem a hx) y (List.mem_cons_of_mem a hy)

theorem sort_ordered {before : α → α → Bool}
    (trans : ∀ a b c, before a b → before b c → before a c)
    (total : ∀ a b, before a b ∨ before b a) (l : List α) :
    (sort before l).Pairwise fun x y => before x y :=
  sort_ordered_of_mem (fun a _ b _ c _ => trans a b c) fun a _ b _ => total a b

/-- **So does a comparison that agrees with a preorder.** -/
theorem sort_ordered_of_isLE {before : α → α → Bool} (cmp : α → α → Ordering)
    [Std.TransCmp cmp] (h : ∀ a b, before a b ↔ (cmp a b).isLE) (l : List α) :
    (sort before l).Pairwise fun x y => before x y := by
  refine sort_ordered (fun a b c hab hbc => ?_) (fun a b => ?_) l
  · rw [h] at hab hbc ⊢
    exact Std.TransCmp.isLE_trans hab hbc
  · rw [h, h]
    cases hcmp : cmp a b with
    | lt => exact .inl rfl
    | eq => exact .inl rfl
    | gt =>
      rw [Std.OrientedCmp.lt_of_gt hcmp]
      exact .inr rfl

theorem place_stable {before : α → α → Bool} {R : α → α → Prop} {a : α} {l : List α}
    (ha : ∀ b ∈ l, R a b) (h : l.Pairwise fun x y => before y x → R x y) :
    (place before a l).Pairwise fun x y => before y x → R x y := by
  induction l with
  | nil => simp [place]
  | cons b bs ih =>
    have hb := List.pairwise_cons.1 h
    unfold place
    split
    · exact List.pairwise_cons.2 ⟨fun x hx _ => ha x hx, h⟩
    · rename_i hab
      have htail := ih (fun x hx => ha x (List.mem_cons_of_mem b hx)) hb.2
      refine List.pairwise_cons.2 ⟨fun x hx => ?_, htail⟩
      rcases mem_place.1 hx with rfl | hx
      · exact fun hbefore => absurd hbefore hab
      · exact hb.1 x hx

/-- **Entries that go before each other stay in the order they had.** -/
theorem sort_stable {before : α → α → Bool} {R : α → α → Prop} {l : List α}
    (h : l.Pairwise R) : (sort before l).Pairwise fun x y => before y x → R x y := by
  induction h with
  | nil => exact .nil
  | @cons a as ha _ ih =>
    exact place_stable (fun b hb => ha b ((sort_perm before as).mem_iff.1 hb)) ih

end Ordered
end DiagramSearch
