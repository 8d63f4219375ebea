/-
# Values in exact arithmetic

The rational numbers with two ends.  Sums are exact; a sum of the two ends,
which no search forms, is the lower one.  Products and quotients with an end
are zero: the search only forms them of finite values.
-/

import DiagramSearch.Value.Basic

namespace DiagramSearch

/-- A rational number, or one of the two ends of the line. -/
inductive Extended where
  | negInf
  | finite (q : Rat)
  | posInf
deriving DecidableEq, Repr

namespace Extended

/-- The sum; the lower end absorbs everything, the upper end all else. -/
def add : Extended → Extended → Extended
  | finite a, finite b => finite (a + b)
  | negInf, _ => negInf
  | _, negInf => negInf
  | _, _ => posInf

/-- The opposite. -/
def neg : Extended → Extended
  | negInf => posInf
  | finite a => finite (-a)
  | posInf => negInf

/-- The product of finite values. -/
def mul : Extended → Extended → Extended
  | finite a, finite b => finite (a * b)
  | _, _ => finite 0

/-- The quotient of finite values. -/
def div : Extended → Extended → Extended
  | finite a, finite b => finite (a / b)
  | _, _ => finite 0

/-- The magnitude. -/
def abs : Extended → Extended
  | finite a => finite (if a < 0 then -a else a)
  | _ => posInf

/-- The order of the line. -/
def le : Extended → Extended → Bool
  | negInf, _ => true
  | _, posInf => true
  | finite a, finite b => decide (a ≤ b)
  | _, _ => false

instance : Value Extended where
  zero := finite 0
  one := finite 1
  add := add
  sub a b := a.add b.neg
  neg := neg
  mul := mul
  div := div
  le a b := le a b
  lt a b := le b a = false
  beq a b := decide (a = b)
  min a b := if le a b then a else b
  max a b := if le a b then b else a
  posInf := posInf
  negInf := negInf
  abs := abs
  tolerance := finite (1 / 1000000000)
  isInfinite a := a == negInf || a == posInf
  isFinite a := a != negInf && a != posInf
  order a b := if a = b then .eq else if le a b then .lt else .gt
  decLe a b := inferInstanceAs (Decidable (le a b = true))
  decLt a b := inferInstanceAs (Decidable (le b a = false))

end Extended
end DiagramSearch
