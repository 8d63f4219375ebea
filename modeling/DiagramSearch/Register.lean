/-
# Registers

A register holds at most one value for each key.  Putting a value replaces the
one that was there (`get?_put`), and every other key keeps its own.
-/

namespace DiagramSearch

/-- Values by key. -/
structure Register (α β : Type) where
  /-- Each key with its value. -/
  entries : List (α × β)
deriving Repr

namespace Register

variable {α β : Type} [BEq α]

/-- The register without entries. -/
def empty : Register α β := ⟨[]⟩

/-- The value of a key. -/
def get? (r : Register α β) (key : α) : Option β := r.entries.lookup key

/-- Replaces the value of a key in a list, or adds it at the end. -/
def replace (key : α) (value : β) : List (α × β) → List (α × β)
  | [] => [(key, value)]
  | (k, v) :: rest =>
    if key == k then (k, value) :: rest else (k, v) :: replace key value rest

/-- Gives a key a value. -/
def put (r : Register α β) (key : α) (value : β) : Register α β :=
  ⟨replace key value r.entries⟩

/-- The number of keys. -/
def size (r : Register α β) : Nat := r.entries.length

@[simp]
theorem get?_empty (key : α) : (empty : Register α β).get? key = none := rfl

/-- Equal keys have the same value. -/
theorem get?_congr [PartialEquivBEq α] (r : Register α β) {key other : α} (h : key == other) :
    r.get? key = r.get? other := by
  obtain ⟨entries⟩ := r
  simp only [get?]
  induction entries with
  | nil => rfl
  | cons e rest ih => rw [List.lookup_cons, List.lookup_cons, BEq.congr_left h, ih]

/-- **A key has the value that was last put there.** -/
theorem get?_put [PartialEquivBEq α] (r : Register α β) (key other : α) (value : β) :
    (r.put key value).get? other = if other == key then some value else r.get? other := by
  obtain ⟨entries⟩ := r
  simp only [put, get?]
  induction entries with
  | nil => cases ho : other == key <;> simp [replace, List.lookup_cons, ho]
  | cons e rest ih =>
    obtain ⟨k, v⟩ := e
    by_cases hk : (key == k) = true
    · rw [replace, if_pos hk, List.lookup_cons, List.lookup_cons, BEq.congr_right hk]
      cases other == k <;> rfl
    · rw [replace, if_neg hk, List.lookup_cons, List.lookup_cons, ih]
      cases ho : other == k with
      | true =>
        have hother : ¬(other == key) = true := fun h => hk (BEq.trans (BEq.symm h) ho)
        simp [hother]
      | false => rfl

end Register
end DiagramSearch
