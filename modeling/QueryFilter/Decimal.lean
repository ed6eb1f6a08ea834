/-!
# Decimal numbers

A decimal number is kept as its significant digits and the place of the point,
and is written in the usual way: positionally while the point stays within
sixteen digits, and otherwise with an exponent.
-/

namespace QueryFilter

/-- The number `0.d₁d₂…` times ten to the power `point`, with its sign.  Zero
has no digits. -/
structure Decimal where
  negative : Bool
  digits : List Nat
  point : Int
deriving DecidableEq, Repr, Inhabited

namespace Decimal

/-- The character of a digit. -/
def digitChar (d : Nat) : Char := Char.ofNat ('0'.toNat + d)

/-- The digits of a natural number, the first one first. -/
def digitsOf (n : Nat) : List Nat :=
  (Nat.toDigits 10 n).map fun c => c.toNat - '0'.toNat

/-- The exponent of a power of ten: its mark, its sign, and its digits without
an idle zero in front. -/
def exponentText (e : Int) : List Char :=
  (if e < 0 then "e-" else "e+").toList ++ (toString e.natAbs).toList

/-- The text of a number that is not zero, without its sign.  The point stands
among the first sixteen digits, or behind at most four zeros; any other number
is written with one digit before the point and an exponent. -/
def magnitudeText (ds : List Char) (point : Int) : List Char :=
  if (ds.length : Int) ≤ point ∧ point ≤ 16 then
    ds ++ List.replicate (point.toNat - ds.length) '0' ++ ".0".toList
  else if 0 < point ∧ point ≤ 16 then
    ds.take point.toNat ++ ".".toList ++ ds.drop point.toNat
  else if -5 < point ∧ point ≤ 0 then
    "0.".toList ++ List.replicate (-point).toNat '0' ++ ds
  else
    ds.take 1 ++ (if ds.length = 1 then [] else ".".toList ++ ds.drop 1) ++
      exponentText (point - 1)

/-- A number as text. -/
def text (d : Decimal) : List Char :=
  (if d.negative then "-".toList else []) ++
    if d.digits = [] then "0.0".toList
    else magnitudeText (d.digits.map digitChar) d.point

/-- The first exponent above and the first one below the positional range. -/
example :
    [(Decimal.mk false [1] 16).text, (Decimal.mk false [1] 17).text,
      (Decimal.mk true [1, 5] 17).text, (Decimal.mk false [1] (-4)).text,
      (Decimal.mk false [1] (-5)).text] =
      ["1000000000000000.0", "1e+16", "-1.5e+16", "0.00001", "1e-6"].map String.toList := by
  decide +kernel

end Decimal

end QueryFilter
