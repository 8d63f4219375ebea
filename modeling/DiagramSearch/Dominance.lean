/-
# Dominance

A dominance relation compares states with the same key: `le a b` says that
every completion of `a` is matched by one of `b`.  The table keeps, for each
depth and key, the pairs of a state and a value that no other pair makes
useless.  A pair that is presented again takes the place of the one kept.
-/

import DiagramSearch.Register
import DiagramSearch.Value.Basic

namespace DiagramSearch

/-- A relation between states that share a key. -/
structure Dominance (σ κ : Type) where
  /-- The class of comparable states; a state without key is never compared. -/
  key : σ → Option κ
  /-- Whether the completions of the first state are matched by the second. -/
  le : σ → σ → Bool

namespace Dominance

/-- A state and the value it was reached with. -/
structure Entry (σ V : Type) where
  state : σ
  value : V
deriving Repr

/-- The outcome of a check: dominated by an entry of the given value, or kept. -/
abbrev Verdict (V : Type) := Option V

variable {σ κ V : Type} [BEq σ] [Value V]

/-- Whether a kept entry makes a pair useless.  The same pair does not. -/
def Entry.covers (rel : Dominance σ κ) (kept : Entry σ V) (state : σ) (value : V) : Bool :=
  decide (value ≤ kept.value) && rel.le state kept.state
    && !(value == kept.value && state == kept.state)

/-- Whether a pair replaces a kept entry. -/
def Entry.yields (rel : Dominance σ κ) (kept : Entry σ V) (state : σ) (value : V) : Bool :=
  decide (kept.value ≤ value) && rel.le kept.state state

/-- The kept entries, by depth and key. -/
structure Table (σ κ V : Type) where
  groups : Register (Nat × κ) (List (Entry σ V))
deriving Repr

namespace Table

variable [BEq κ]

/-- The table without entries. -/
def empty : Table σ κ V := ⟨.empty⟩

/-- The entries kept for a depth and a key, oldest first. -/
def entries (t : Table σ κ V) (depth : Nat) (key : κ) : List (Entry σ V) :=
  (t.groups.get? (depth, key)).getD []

/-- The number of entries kept. -/
def size (t : Table σ κ V) : Nat :=
  t.groups.entries.foldl (fun n (_, es) => n + es.length) 0

/-- Checks a pair against the table: either an entry covers it, whose value is
then the verdict, or it is kept and the entries that yield to it are dropped. -/
def check (t : Table σ κ V) (rel : Dominance σ κ) (state : σ) (depth : Nat) (value : V) :
    Verdict V × Table σ κ V :=
  match rel.key state with
  | none => (none, t)
  | some key =>
    let kept := t.entries depth key
    match kept.find? fun e => e.covers rel state value with
    | some e => (some e.value, t)
    | none =>
      let rest := kept.filter fun e => !e.yields rel state value
      (none, ⟨t.groups.put (depth, key) (rest ++ [⟨state, value⟩])⟩)

end Table
end Dominance
end DiagramSearch
