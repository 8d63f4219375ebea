/-
# Labels

What a message or a drawing shows of a state or a value.
-/

import DiagramSearch.Decimal.Layout

namespace DiagramSearch

/-- Things that are shown in messages and drawings. -/
class Label (α : Type) where
  /-- The text shown. -/
  text : α → String

export Label (text)

/-- A text that is already a label stands for itself. -/
instance : Label String where
  text s := s

instance : Label Nat where
  text n := Decimal.Layout.natural n

instance : Label Int where
  text i := (if i < 0 then "-" else "") ++ Decimal.Layout.natural i.natAbs

/-- Values are shown with the fewest digits, in positional notation. -/
instance : Label Float where
  text x := Decimal.Layout.plain.text x

end DiagramSearch
