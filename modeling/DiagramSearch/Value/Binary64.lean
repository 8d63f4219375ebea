/-
# Values in binary floating point

The values a search runs on: the 64-bit binary format.  Its comparisons are
those of the format.  Its total order follows the bit pattern read as a signed
magnitude, so `-0` stands before `0` and an undefined value stands above
`posInf`.  Its minimum and maximum give the other operand when one of them is
undefined.
-/

import DiagramSearch.Value.Basic

namespace DiagramSearch
namespace Binary64

/-- The place of a float in the total order: its magnitude bits, counted
downwards from `-1` when the sign bit is set. -/
def rank (x : Float) : Int :=
  let bits := x.toBits.toNat
  if bits < Nat.pow 2 63 then bits else -(bits - Nat.pow 2 63 : Nat) - 1

/-- The greater of two floats, and the other one when one is undefined. -/
def greater (a b : Float) : Float :=
  if a.isNaN then b else if b.isNaN then a else if a < b then b else a

/-- The smaller of two floats, and the other one when one is undefined. -/
def smaller (a b : Float) : Float :=
  if a.isNaN then b else if b.isNaN then a else if b < a then b else a

instance : Value Float where
  zero := 0
  one := 1
  min := smaller
  max := greater
  posInf := 1 / 0
  negInf := -1 / 0
  abs := Float.abs
  tolerance := 1e-9
  isInfinite := Float.isInf
  isFinite := Float.isFinite
  order a b := compare (rank a) (rank b)
  decLe := inferInstance
  decLt := inferInstance

end Binary64
end DiagramSearch
