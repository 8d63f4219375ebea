/-
# The shortest decimal that reads back

A positive float is `m · 2^q` with natural `m`.  The reals that read back as it
form an interval around it whose ends belong to it when `m` is even.
`shortest` looks for a decimal in that interval on grids of one digit, two
digits, and so on: on each grid only the two neighbours of the value can be in
the interval, so the first grid with a hit gives the fewest digits.  Of two
hits the nearer one is taken, and a tie goes to the greater one.

All of it is arithmetic on natural numbers.  A comparison of `a · 10^k` with
`b · 2^q` is one of naturals once the negative powers stand on the other side.
-/

namespace DiagramSearch
namespace Decimal

/-- A decimal `d₁.d₂d₃… · 10^exponent`. -/
structure Digits where
  /-- The significant digits read as one number. -/
  significand : Nat
  /-- How many significant digits there are. -/
  count : Nat
  /-- The exponent of ten of the first digit. -/
  exponent : Int
deriving Repr, DecidableEq

/-- A positive value `mantissa · 2^exponent` and the interval that reads back as
it.  In quarters of a unit, the upper end lies two above the value; the lower
end lies `below` under it, which is one where the unit halves just below. -/
structure Binary where
  /-- The integer significand. -/
  mantissa : Nat
  /-- The power of two that the significand counts. -/
  exponent : Int
  /-- Quarters of a unit down to the lower end of the interval. -/
  below : Nat
deriving Repr, DecidableEq

/-- How many decimal digits a natural number has. -/
def digitCount (n : Nat) : Nat :=
  (Nat.toDigits 10 n).length

/-- The natural numbers proportional to `a · 10^k` and `b · 2^q`. -/
def commensurate (a : Nat) (k : Int) (b : Nat) (q : Int) : Nat × Nat :=
  (a * Nat.pow 10 k.toNat * Nat.pow 2 (-q).toNat, b * Nat.pow 2 q.toNat * Nat.pow 10 (-k).toNat)

/-- The exponent of ten of the first digit of `m · 2^q`, for a positive `m`. -/
def leadingExponent (m : Nat) (q : Int) : Int :=
  let num := m * Nat.pow 2 q.toNat
  let den := Nat.pow 2 (-q).toNat
  if den ≤ num then (digitCount (num / den) : Int) - 1
  else -(digitCount ((den + num - 1) / num - 1) : Int)

namespace Binary

/-- Holds when `c · 10^k` reads back as the value. -/
def reads (b : Binary) (c : Nat) (k : Int) : Bool :=
  let low := commensurate c k (4 * b.mantissa - b.below) (b.exponent - 2)
  let high := commensurate c k (4 * b.mantissa + 2) (b.exponent - 2)
  if b.mantissa % 2 = 0 then decide (low.2 ≤ low.1) && decide (high.1 ≤ high.2)
  else decide (low.2 < low.1) && decide (high.1 < high.2)

/-- The neighbour of the value on the grid `10^k` that reads back, if any: the
nearer one when both do, the greater one when they are equally near. -/
def onGrid? (b : Binary) (k : Int) : Option Nat :=
  let unit := commensurate 1 k b.mantissa b.exponent
  let floor := unit.2 / unit.1
  let rest := unit.2 % unit.1
  match b.reads floor k, b.reads (floor + 1) k with
  | false, false => none
  | true, false => some floor
  | false, true => some (floor + 1)
  | true, true => if unit.1 ≤ 2 * rest then some (floor + 1) else some floor

/-- Searches the grids of `count`, `count + 1`, … digits.  A hit with one digit
more than its grid is a power of ten. -/
def search (b : Binary) (leading : Int) : Nat → Nat → Digits
  | 0, count => ⟨b.mantissa, count, leading⟩
  | more + 1, count =>
    match b.onGrid? (leading + 1 - count) with
    | some c =>
      if digitCount c = count then ⟨c, count, leading⟩ else ⟨c / 10, count, leading + 1⟩
    | none => search b leading more (count + 1)

/-- The shortest decimal that reads back as a positive value; seventeen digits
always suffice. -/
def shortest (b : Binary) : Digits :=
  b.search (leadingExponent b.mantissa b.exponent) 17 1

end Binary

/-- The parts of a positive finite float. -/
def Binary.ofFloat (x : Float) : Binary :=
  let bits : Nat := x.toBits.toNat
  let fraction : Nat := bits % Nat.pow 2 52
  let biased : Nat := bits / Nat.pow 2 52 % Nat.pow 2 11
  if biased = 0 then ⟨fraction, -1074, 2⟩
  else
    let below := if fraction = 0 ∧ biased ≠ 1 then 1 else 2
    ⟨Nat.pow 2 52 + fraction, (biased : Int) - 1075, below⟩

end Decimal
end DiagramSearch
