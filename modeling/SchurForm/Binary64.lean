import SchurForm.Powers
import SchurForm.Scalar

/-!
# Binary64 numbers

A binary64 number is a NaN, an infinity, or a sign with a magnitude `mantissa * 2 ^ exponent`. This
module takes a number apart and puts it together again: `Binary64.ofFloat` reads the three fields of
the interchange format, and `Binary64.nearest` rounds an exact quotient to the nearest number, ties
to the even mantissa. The angle functions are not computed here: arithmetic takes them from the
platform.
-/

namespace SchurForm

/-- A binary64 number taken apart. -/
inductive Binary64 where
  | nan
  | infinite (negative : Bool)
  | finite (negative : Bool) (mantissa : Nat) (exponent : Int)
  deriving DecidableEq, Repr

namespace Binary64

/-- The exponent of the least positive number. -/
def minExponent : Int := -1074

/-- The least mantissa of a normal number. -/
def hiddenBit : Nat := twoPow 52

/-- Take the number with the given bit pattern apart. -/
def ofBits (bits : Nat) : Binary64 :=
  let negative := decide (twoPow 63 ≤ bits)
  let field := bits / twoPow 52 % twoPow 11
  let fraction := bits % twoPow 52
  if field = 2047 then
    if fraction = 0 then .infinite negative else .nan
  else if field = 0 then
    .finite negative fraction minExponent
  else
    .finite negative (hiddenBit + fraction) (Int.ofNat field - 1075)

/-- Take a number apart. -/
def ofFloat (x : Float) : Binary64 :=
  ofBits x.toBits.toNat

/-- The bit pattern of the number with the given sign, mantissa and exponent. A mantissa below the
hidden bit belongs to the least exponent. -/
def bits (negative : Bool) (mantissa : Nat) (exponent : Int) : Nat :=
  let signBit := if negative then twoPow 63 else 0
  if mantissa < hiddenBit then signBit + mantissa
  else signBit + (exponent + 1075).toNat * twoPow 52 + (mantissa - hiddenBit)

/-- The bit pattern of an infinity. -/
def infinityBits (negative : Bool) : Nat :=
  (if negative then twoPow 63 else 0) + 2047 * twoPow 52

/-- The quotient rounded to the nearest integer, ties to the even one. -/
def roundDiv (num den : Nat) : Nat :=
  let q := num / den
  let r := num % den
  if 2 * r < den then q
  else if den < 2 * r then q + 1
  else if q % 2 = 0 then q else q + 1

/-- The largest integer whose power of two is at most the positive quotient. -/
def floorLog2 (num den : Nat) : Int :=
  let guess := Int.ofNat num.log2 - Int.ofNat den.log2
  if den * twoPow guess.toNat ≤ num * twoPow (-guess).toNat then guess else guess - 1

/-- The bit pattern of the number nearest to a quotient of the given sign, ties to the even
mantissa. A quotient that rounds past the largest finite number gives an infinity. -/
def nearestBits (negative : Bool) (num den : Nat) : Nat :=
  if num = 0 then bits negative 0 minExponent
  else
    let exponent := max (floorLog2 num den - 52) minExponent
    let mantissa := roundDiv (num * twoPow (-exponent).toNat) (den * twoPow exponent.toNat)
    let carried := decide (2 * hiddenBit ≤ mantissa)
    let mantissa := if carried then hiddenBit else mantissa
    let exponent := if carried then exponent + 1 else exponent
    if 971 < exponent then infinityBits negative else bits negative mantissa exponent

/-- The number nearest to a quotient of the given sign. -/
def nearest (negative : Bool) (num den : Nat) : Float :=
  Float.ofBits (UInt64.ofNat (nearestBits negative num den))

/-- Whether the sign bit is set. -/
def isNegative (x : Float) : Bool :=
  decide (twoPow 63 ≤ x.toBits.toNat)

/-- The magnitude of the first number with the sign of the second. -/
def copySign (x y : Float) : Float :=
  if isNegative y then -x.abs else x.abs

/-- The power of two with the given exponent, which is that of a normal number. -/
def powerOfTwo (exponent : Int) : Float :=
  Float.ofBits (UInt64.ofNat ((exponent + 1023).toNat * twoPow 52))

/-- The length of a vector with components `x ≥ y ≥ 0` whose squares neither overflow nor vanish.

The rounded root of the rounded sum of squares is corrected by its own residual, which leaves an
error below one unit in the last place. -/
def correctedLength (x y : Float) : Float :=
  let h := (x * x + y * y).sqrt
  if h ≤ 2.0 * y then
    let delta := h - y
    let t1 := x * (2.0 * delta - x)
    let t2 := (delta - 2.0 * (x - y)) * delta
    h - (t1 + t2) / (2.0 * h)
  else
    let delta := h - x
    let t1 := 2.0 * delta * (x - 2.0 * y)
    let t2 := (4.0 * delta - y) * y + delta * delta
    h - (t1 + t2) / (2.0 * h)

/-- The length of the vector with the given components, without undue overflow or underflow. An
infinite component gives an infinite length, whatever the other one is. -/
def hypot (x y : Float) : Float :=
  if x.isInf || y.isInf then 1.0 / 0.0
  else if x.isNaN || y.isNaN then x + y
  else
    let x := x.abs
    let y := y.abs
    let large := if x < y then y else x
    let small := if x < y then x else y
    if powerOfTwo 511 < large then
      if small ≤ large * powerOfTwo (-54) then large + small
      else correctedLength (large * powerOfTwo (-600)) (small * powerOfTwo (-600)) * powerOfTwo 600
    else if small < powerOfTwo (-459) then
      if small / powerOfTwo (-54) ≤ large then large + small
      else correctedLength (large * powerOfTwo 600) (small * powerOfTwo 600) * powerOfTwo (-600)
    else if small ≤ large * powerOfTwo (-54) then large + small
    else correctedLength large small

/-- The angle functions that binary64 arithmetic is given by the platform. -/
class Angles where
  /-- Angle of the point with ordinate first and abscissa second. -/
  atan2 : Float → Float → Float
  /-- Sine of an angle in radians. -/
  sin : Float → Float
  /-- Cosine of an angle in radians. -/
  cos : Float → Float

/-- The platform that programs run on. -/
instance : Angles where
  atan2 := Float.atan2
  sin := Float.sin
  cos := Float.cos

/-- Binary64 arithmetic. -/
instance [Angles] : Scalar Float where
  zero := 0.0
  one := 1.0
  natCast := Float.ofNat
  decLt := fun a b => inferInstanceAs (Decidable (a < b))
  decLe := fun a b => inferInstanceAs (Decidable (a ≤ b))
  abs := Float.abs
  sqrt := Float.sqrt
  hypot := hypot
  atan2 := Angles.atan2
  sin := Angles.sin
  cos := Angles.cos
  copySign := copySign
  isFinite := Float.isFinite
  epsilon := powerOfTwo (-52)
  minPositive := powerOfTwo (-1022)

end Binary64

end SchurForm
