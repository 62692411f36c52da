/-!
# Decimal fractions

A decimal is a whole number over a power of ten.  `Decimal.shown` writes it with the digits it needs: in place
when its leading digit stands between the fourth place after the point and the sixteenth before it, and with
an exponent outside of that.  A decimal written in place always has a digit after the point.
-/

namespace Peephole.Number

/-- The number `mantissa / 10 ^ places`. -/
structure Decimal where
  mantissa : Int
  places : Nat

namespace Decimal

/-- The digits of a number in base ten, the leading one first. -/
def digitsOf (n : Nat) : List Char := (toString n).toList

/-- Digits without the zeros at their end. -/
def significant (ds : List Char) : List Char := (ds.reverse.dropWhile (· == '0')).reverse

/-- The place of the leading digit: 0 for the units, 1 for the tens, -1 for the tenths. -/
def leadingPlace (d : Decimal) : Int :=
  if d.mantissa = 0 then 0 else ((digitsOf d.mantissa.natAbs).length : Int) - 1 - d.places

/-- Significant digits written in place, the leading one at `place`. -/
def inPlace (ds : List Char) (place : Int) : String :=
  let padded := List.replicate (-place).toNat '0' ++ ds
  let before := place.toNat + 1
  let whole := padded.take before
  let rest := padded.drop before
  String.ofList (whole ++ List.replicate (before - whole.length) '0' ++ ['.'] ++ if rest.isEmpty then ['0'] else rest)

/-- Significant digits with the place of the leading one as an exponent of at least two digits. -/
def withExponent (ds : List Char) (place : Int) : String :=
  let size := toString place.natAbs
  let exponent := (if place < 0 then "-" else "+") ++ (if size.length < 2 then "0" else "") ++ size
  let point := if ds.length > 1 then "." else ""
  String.ofList (ds.take 1) ++ point ++ String.ofList (ds.drop 1) ++ "e" ++ exponent

def shown (d : Decimal) : String :=
  let ds := significant (digitsOf d.mantissa.natAbs)
  let place := d.leadingPlace
  (if d.mantissa < 0 then "-" else "") ++
    if -4 ≤ place && place < 16 then inPlace ds place else withExponent ds place

end Decimal

end Peephole.Number
