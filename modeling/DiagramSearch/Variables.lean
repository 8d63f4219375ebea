/-
# Sets of variables

A set of variables is the strictly increasing list of its members, so two sets
with the same members are equal.  The set of the free variables of a
sub-problem shrinks by one with every layer of its diagram, which is what
bounds the depth of a diagram (`size_erase_add_one`).
-/

import DiagramSearch.Decision

namespace DiagramSearch

/-- A finite set of variables. -/
structure Variables where
  /-- The members in increasing order. -/
  toList : List Nat
  /-- No member is listed twice or out of order. -/
  increasing : toList.Pairwise (· < ·)
deriving DecidableEq

namespace Variables

/-- The set without members. -/
def empty : Variables := ⟨[], .nil⟩

instance : Inhabited Variables := ⟨empty⟩

/-- The variables below `n`. -/
def all (n : Nat) : Variables := ⟨List.range n, List.pairwise_lt_range⟩

/-- Puts a variable in its place of an increasing list. -/
def place (v : Nat) : List Nat → List Nat
  | [] => [v]
  | w :: ws => if v < w then v :: w :: ws else if v = w then w :: ws else w :: place v ws

@[simp]
theorem mem_place {v u : Nat} {l : List Nat} : u ∈ place v l ↔ u = v ∨ u ∈ l := by
  induction l with
  | nil => simp [place]
  | cons w ws ih =>
    unfold place
    split
    · simp
    · split
      · subst_vars; simp
      · simp only [List.mem_cons, ih]
        grind

theorem place_increasing {v : Nat} {l : List Nat} (h : l.Pairwise (· < ·)) :
    (place v l).Pairwise (· < ·) := by
  induction l with
  | nil => simp [place]
  | cons w ws ih =>
    have hw := List.pairwise_cons.1 h
    unfold place
    split
    · rename_i hlt
      refine List.pairwise_cons.2 ⟨fun u hu => ?_, h⟩
      rcases List.mem_cons.1 hu with rfl | hu
      · exact hlt
      · exact Nat.lt_trans hlt (hw.1 u hu)
    · split
      · exact h
      · refine List.pairwise_cons.2 ⟨fun u hu => ?_, ih hw.2⟩
        rcases mem_place.1 hu with rfl | hu
        · omega
        · exact hw.1 u hu

/-- The set with one more member. -/
def insert (s : Variables) (v : Nat) : Variables :=
  ⟨place v s.toList, place_increasing s.increasing⟩

/-- The set without a variable. -/
def erase (s : Variables) (v : Nat) : Variables :=
  ⟨s.toList.filter (· != v), s.increasing.filter _⟩

instance : Membership Nat Variables := ⟨fun s v => v ∈ s.toList⟩

instance (v : Nat) (s : Variables) : Decidable (v ∈ s) :=
  inferInstanceAs (Decidable (v ∈ s.toList))

/-- The number of members. -/
def size (s : Variables) : Nat := s.toList.length

/-- Holds of the set without members. -/
def isEmpty (s : Variables) : Bool := s.toList.isEmpty

theorem mem_def {s : Variables} {v : Nat} : v ∈ s ↔ v ∈ s.toList := Iff.rfl

@[simp]
theorem mem_insert {s : Variables} {u v : Nat} : u ∈ s.insert v ↔ u = v ∨ u ∈ s :=
  mem_place

@[simp]
theorem mem_erase {s : Variables} {u v : Nat} : u ∈ s.erase v ↔ u ∈ s ∧ u ≠ v := by
  simp [mem_def, erase]

@[simp]
theorem mem_all {n : Nat} {v : Nat} : v ∈ all n ↔ v < n := by
  simp [mem_def, all]

/-- A strictly increasing list loses exactly one entry with each of its members. -/
theorem length_filter_ne_add_one {l : List Nat} {v : Nat} (h : l.Pairwise (· < ·))
    (hv : v ∈ l) : (l.filter (· != v)).length + 1 = l.length := by
  induction l with
  | nil => simp at hv
  | cons w ws ih =>
    have hw := List.pairwise_cons.1 h
    by_cases hwv : w = v
    · subst hwv
      have hall : ws.filter (· != w) = ws :=
        List.filter_eq_self.2 fun u hu => by
          have := hw.1 u hu
          simp; omega
      simp [hall]
    · have hmem : v ∈ ws := by
        rcases List.mem_cons.1 hv with rfl | hv
        · exact absurd rfl hwv
        · exact hv
      simp [hwv, ih hw.2 hmem]

/-- **Erasing a member removes exactly one.** -/
theorem size_erase_add_one {s : Variables} {v : Nat} (hv : v ∈ s) :
    (s.erase v).size + 1 = s.size :=
  length_filter_ne_add_one s.increasing hv

end Variables
end DiagramSearch
