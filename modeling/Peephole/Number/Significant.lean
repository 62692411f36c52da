/-!
# Numbers with a fixed count of significant digits

`roundNat digits n` is the number nearest to `n` among those with at most `digits` significant binary
digits; of two that are equally near, the one whose last digit is even.
-/

namespace Peephole.Number

/-- `n / 2 ^ k`, rounded to the nearest number, a tie to the even one. -/
def shiftRounded (n k : Nat) : Nat :=
  let q := n >>> k
  let r := n % 1 <<< k
  if 2 * r > 1 <<< k ∨ (2 * r = 1 <<< k ∧ k ≠ 0 ∧ q % 2 = 1) then q + 1 else q

/-- The nearest number with at most `digits` significant binary digits. -/
def roundNat (digits n : Nat) : Nat :=
  let excess := n.log2 + 1 - digits
  shiftRounded n excess <<< excess

/-- The nearest number with at most `digits` significant binary digits, on both sides of zero. -/
def round (digits : Nat) (n : Int) : Int :=
  if n < 0 then -(roundNat digits n.natAbs : Int) else roundNat digits n.natAbs

end Peephole.Number
