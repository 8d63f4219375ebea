/-
# Objective values

Costs, bounds and objective values are elements of a type `V` with the
operations of `Value V`.  Nothing in the search depends on more than these:
the arithmetic of a line with two ends `posInf` and `negInf`, the usual
comparisons, and a total order `order` that decides every sort.

Two comparisons are kept apart on purpose.  `≤`, `<` and `==` are the
comparisons of the arithmetic, under which the two zeros of a floating-point
format are equal and an undefined value is related to nothing.  `order` is
total on every value and tells the zeros apart; queues, caches and layer sorts
use it.

* `surpasses a b` is `a > b` up to a relative tolerance, and exactly `a > b` as
  soon as one of them is infinite;
* `headroom best delta` is the value that reaches `best` with `delta` to come;
* `gap` is the relative distance between an incumbent and a bound.
-/

namespace DiagramSearch

/-- The arithmetic and the comparisons that objective values come with. -/
class Value (V : Type) extends Zero V, One V, Add V, Sub V, Neg V, Mul V, Div V,
    LE V, LT V, BEq V, Min V, Max V where
  /-- The value above all others. -/
  posInf : V
  /-- The value below all others, worth of what cannot be completed. -/
  negInf : V
  /-- The magnitude of a value. -/
  abs : V → V
  /-- The relative slack granted to comparisons of computed values. -/
  tolerance : V
  /-- Holds of the two ends of the line only. -/
  isInfinite : V → Bool
  /-- Holds of the values strictly between the two ends. -/
  isFinite : V → Bool
  /-- The total order used for sorting. -/
  order : V → V → Ordering
  /-- The comparison `≤` is decided. -/
  decLe : DecidableLE V
  /-- The comparison `<` is decided. -/
  decLt : DecidableLT V

namespace Value

variable {V : Type} [Value V]

instance : DecidableLE V := decLe

instance : DecidableLT V := decLt

/-- Holds when `a` is strictly greater than `b`, up to the tolerance. -/
def surpasses (a b : V) : Bool :=
  if isInfinite a || isInfinite b then decide (b < a)
  else decide (b + tolerance * max (max 1 (abs a)) (abs b) < a)

/-- The value that just reaches `best` when `delta` is still to come, and the
upper end when nothing can come of it. -/
def headroom (best delta : V) : V :=
  if delta == negInf then posInf else best - delta

/-- The relative distance between a value and a bound on it: zero when they
meet at zero, one as long as either of them is unknown or infinite. -/
def gap (value bound : Option V) : V :=
  match value, bound with
  | some v, some b =>
    if isFinite v && isFinite b then
      let scale := max (abs v) (abs b)
      if scale == 0 then 0 else abs (b - v) / scale
    else 1
  | _, _ => 1

end Value
end DiagramSearch
