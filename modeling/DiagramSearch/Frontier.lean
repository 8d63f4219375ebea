/-
# Queues of open sub-problems

The open sub-problems are kept in decreasing order of a ranking, so the first
one is the greatest.
-/

import DiagramSearch.Ordered

namespace DiagramSearch

/-- Entries in decreasing order of a ranking. -/
structure Frontier (α : Type) where
  /-- The entries, greatest first. -/
  entries : List α
deriving Repr

namespace Frontier

variable {α : Type}

/-- The queue without entries. -/
def empty : Frontier α := ⟨[]⟩

/-- Adds an entry, behind those that are at least as great. -/
def push (f : Frontier α) (ranking : α → α → Ordering) (a : α) : Frontier α :=
  ⟨Ordered.place (fun a b => ranking a b == .gt) a f.entries⟩

/-- Removes the greatest entry. -/
def pop? (f : Frontier α) : Option (α × Frontier α) :=
  match f.entries with
  | [] => none
  | a :: rest => some (a, ⟨rest⟩)

/-- The number of entries. -/
def size (f : Frontier α) : Nat := f.entries.length

/-- Holds of the queue without entries. -/
def isEmpty (f : Frontier α) : Bool := f.entries.isEmpty

/-- Adding an entry loses none and adds only that one. -/
theorem entries_push_perm (f : Frontier α) (ranking : α → α → Ordering) (a : α) :
    (f.push ranking a).entries.Perm (a :: f.entries) :=
  Ordered.place_perm _ _ _

end Frontier
end DiagramSearch
