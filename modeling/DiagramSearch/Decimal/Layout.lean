/-
# How a float is written

A layout decides which exponents are written positionally and whether a whole
number keeps a point.  Two layouts are in use:

* `Layout.plain` writes every value positionally and a whole number without a
  point: `14`, `0.1`, `10000000000000000000000`;
* `Layout.pointed` shows that a value is a float: `14.0`, and `1e16` or
  `1.5e-7` outside the exponents from `-4` to `15`.
-/

import DiagramSearch.Decimal.Shortest

namespace DiagramSearch
namespace Decimal

/-- The decisions a number format takes. -/
structure Layout where
  /-- The exponents of the first digit that are written positionally. -/
  positional : Int → Bool
  /-- Whether a whole number written positionally ends in `.0`. -/
  keepsPoint : Bool

namespace Layout

/-- Positional notation throughout, whole numbers without a point. -/
def plain : Layout where
  positional _ := true
  keepsPoint := false

/-- Positional notation from `1e-4` up to `1e16`, whole numbers with `.0`. -/
def pointed : Layout where
  positional e := decide (-4 ≤ e) && decide (e < 16)
  keepsPoint := true

/-- The digits of a whole number. -/
def natural (n : Nat) : String :=
  String.ofList (Nat.toDigits 10 n)

/-- A run of zeros. -/
def zeros (n : Nat) : String :=
  String.ofList (List.replicate n '0')

/-- The digits without trailing zeros, as far as one digit remains. -/
def significant (d : Digits) : List Char :=
  match (((Nat.toDigits 10 d.significand).reverse.dropWhile (· == '0')).reverse) with
  | [] => ['0']
  | ds => ds

/-- Digits with the point in its place. -/
def positionalText (l : Layout) (ds : List Char) (exponent : Int) : String :=
  if exponent < 0 then
    "0." ++ zeros (-exponent - 1).toNat ++ String.ofList ds
  else
    let whole := exponent.toNat + 1
    if ds.length ≤ whole then
      String.ofList ds ++ zeros (whole - ds.length) ++ (if l.keepsPoint then ".0" else "")
    else
      String.ofList (ds.take whole) ++ "." ++ String.ofList (ds.drop whole)

/-- One digit before the point, then the exponent of ten. -/
def scientificText (ds : List Char) (exponent : Int) : String :=
  let lead := String.ofList (ds.take 1)
  let rest := ds.drop 1
  let point := if rest.isEmpty then "" else "." ++ String.ofList rest
  let sign := if exponent < 0 then "-" else ""
  lead ++ point ++ "e" ++ sign ++ natural exponent.natAbs

/-- The text of a positive finite float. -/
def positiveText (l : Layout) (x : Float) : String :=
  let d := (Binary.ofFloat x).shortest
  let ds := significant d
  if l.positional d.exponent then l.positionalText ds d.exponent
  else scientificText ds d.exponent

/-- The text of a float: the fewest digits that read back, laid out as `l` says. -/
def text (l : Layout) (x : Float) : String :=
  if x.isNaN then "NaN"
  else
    let sign := if x.toBits.toNat < Nat.pow 2 63 then "" else "-"
    if x.isInf then sign ++ "inf"
    else if x == 0 then sign ++ "0" ++ (if l.keepsPoint then ".0" else "")
    else sign ++ l.positiveText x.abs

end Layout
end Decimal
end DiagramSearch
