import SchurForm.Binary64

/-!
# Decimal numbers

A decimal number is a coefficient with a power of ten. This module finds the decimal magnitude of an
exact quotient and rounds a quotient to a number of significant digits.
-/

namespace SchurForm

/-- The number `coefficient * 10 ^ exponent`. -/
structure Decimal where
  coefficient : Nat
  exponent : Int
  deriving DecidableEq, Repr

namespace Decimal

/-- The digits of the coefficient, most significant first. -/
def digits (d : Decimal) : List Char :=
  Nat.toDigits 10 d.coefficient

/-- The place of the decimal point when the digits are read as a fraction `0.d₁d₂…`. -/
def point (d : Decimal) : Int :=
  d.exponent + Int.ofNat d.digits.length

/-- The largest integer whose power of ten is at most the positive quotient. -/
def floorLog10 (num den : Nat) : Int :=
  let guess := Int.ofNat (Nat.toDigits 10 num).length - Int.ofNat (Nat.toDigits 10 den).length
  if den * tenPow guess.toNat ≤ num * tenPow (-guess).toNat then guess else guess - 1

/-- The numerator and denominator of `num / den` in units of `10 ^ unit`. -/
def inUnits (unit : Int) (num den : Nat) : Nat × Nat :=
  (num * tenPow (-unit).toNat, den * tenPow unit.toNat)

/-- A positive quotient rounded to a number of significant digits, ties to the even coefficient.
The coefficient has exactly that many digits. -/
def rounded (places num den : Nat) : Decimal :=
  let unit := floorLog10 num den - Int.ofNat places + 1
  let scaled := inUnits unit num den
  let coefficient := Binary64.roundDiv scaled.1 scaled.2
  if coefficient = tenPow places then ⟨tenPow (places - 1), unit + 1⟩ else ⟨coefficient, unit⟩

/-- Drop trailing zeros of the coefficient, at most `fuel` of them. -/
def dropZeros : Nat → Decimal → Decimal
  | 0, d => d
  | fuel + 1, d =>
    if d.coefficient ≠ 0 ∧ d.coefficient % 10 = 0 then
      dropZeros fuel ⟨d.coefficient / 10, d.exponent + 1⟩
    else d

/-- The same number with the shortest coefficient. -/
def stripped (d : Decimal) : Decimal :=
  dropZeros d.digits.length d

end Decimal

namespace Binary64

/-- The quotient that equals `mantissa * 2 ^ exponent`. -/
def quotient (mantissa : Nat) (exponent : Int) : Nat × Nat :=
  (mantissa * twoPow exponent.toNat, twoPow (-exponent).toNat)

end Binary64

end SchurForm
