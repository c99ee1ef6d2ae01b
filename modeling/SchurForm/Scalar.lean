/-!
# Scalars

Every kernel of the library is written once, over the arithmetic of this module, and is read in two
ways: run on binary64 numbers, where operations round and comparisons with a NaN fail, and reasoned
about over the real numbers, where the same text is exact algebra.

Sums and maxima run from left to right from zero, so that their rounding is fixed by their text.
-/

namespace SchurForm

/-- The arithmetic of the kernels: field operations, comparisons and a few elementary functions.

Comparisons may fail in both directions, and a number may differ from itself. The two constants
describe the working precision: the distance from one to the next number, and the least normal
number. -/
class Scalar (α : Type) extends Zero α, One α, Add α, Sub α, Mul α, Div α, Neg α, NatCast α,
    LT α, LE α, BEq α where
  decLt : DecidableLT α
  decLe : DecidableLE α
  abs : α → α
  sqrt : α → α
  /-- Length of the vector with the two given components. -/
  hypot : α → α → α
  /-- Angle of the point with ordinate first and abscissa second. -/
  atan2 : α → α → α
  sin : α → α
  cos : α → α
  /-- Magnitude of the first argument with the sign of the second. -/
  copySign : α → α → α
  isFinite : α → Bool
  epsilon : α
  minPositive : α

attribute [reducible, instance] Scalar.decLt Scalar.decLe

namespace Scalar

variable {α : Type} [Scalar α]

/-- Twice one. -/
def two : α := ((2 : Nat) : α)

/-- One half. -/
def half : α := 1 / two

/-- Four times one. -/
def four : α := ((4 : Nat) : α)

/-- The larger of two numbers; a number that differs from itself is passed over. -/
def maxNum (a b : α) : α :=
  if a < b then b else if a == a then a else b

/-- The smaller of two numbers; a number that differs from itself is passed over. -/
def minNum (a b : α) : α :=
  if b < a then b else if a == a then a else b

/-- One with the sign of the argument; a number that differs from itself is its own sign. -/
def sign (x : α) : α :=
  if x == x then copySign 1 x else x

/-- The sum of the first values of a function, from left to right. -/
def sumTo : Nat → (Nat → α) → α
  | 0, _ => 0
  | n + 1, f => sumTo n f + f n

/-- The sum of the values on a half-open range, from left to right. -/
def sumRange (lo hi : Nat) (f : Nat → α) : α :=
  sumTo (hi - lo) fun i => f (lo + i)

/-- The largest of zero and the first values of a function. -/
def maxTo : Nat → (Nat → α) → α
  | 0, _ => 0
  | n + 1, f => maxNum (maxTo n f) (f n)

/-- The least number with a representable reciprocal at full relative precision. -/
def safeMin : α := minPositive / epsilon

end Scalar

end SchurForm
