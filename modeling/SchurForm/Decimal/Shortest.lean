import SchurForm.Decimal

/-!
# Shortest digits that read back

The decimal numbers that read back as a given binary64 number are those of an interval around it,
with its ends when the mantissa is even. `Decimal.shortest` tries coefficients of one digit, of two,
and so on: on each decimal grid only the two neighbours of the number can be in the interval if any
point of the grid is. The first grid with a hit wins, and of two hits the nearer one; a tie goes to
the even coefficient.
-/

namespace SchurForm

namespace Decimal

/-- The decimals that read back as one number, between `low / den` and `high / den`. -/
structure Interval where
  low : Nat
  value : Nat
  high : Nat
  den : Nat
  closed : Bool

/-- The decimals that round to `mantissa * 2 ^ exponent`. Below a power of two the next number is
half as far away as above it. -/
def roundingInterval (mantissa : Nat) (exponent : Int) : Interval :=
  let below :=
    if mantissa = Binary64.hiddenBit ∧ Binary64.minExponent < exponent then 1 else 2
  let q := Binary64.quotient 1 (exponent - 2)
  { low := (4 * mantissa - below) * q.1
    value := 4 * mantissa * q.1
    high := (4 * mantissa + 2) * q.1
    den := q.2
    closed := mantissa % 2 == 0 }

/-- Whether `num / den'` lies in the interval, where `den'` is `scale` times its denominator. -/
def Interval.holds (i : Interval) (num scale : Nat) : Bool :=
  if i.closed then decide (i.low * scale ≤ num) && decide (num ≤ i.high * scale)
  else decide (i.low * scale < num) && decide (num < i.high * scale)

/-- The point of the grid `10 ^ unit` that lies in the interval and is nearest to the number. -/
def Interval.onGrid (i : Interval) (unit : Int) : Option Decimal :=
  let scaled := inUnits unit i.value i.den
  let below := scaled.1 / scaled.2
  let rest := scaled.1 % scaled.2
  let up := tenPow unit.toNat * i.den
  let scale := tenPow (-unit).toNat
  let belowHolds := i.holds (below * up) scale
  let aboveHolds := i.holds ((below + 1) * up) scale
  let takeAbove := decide (scaled.2 < 2 * rest) || (2 * rest == scaled.2 && below % 2 == 1)
  if belowHolds && !(aboveHolds && takeAbove) then some ⟨below, unit⟩
  else if aboveHolds then some ⟨below + 1, unit⟩
  else none

/-- The first hit on the grids of `places`, `places + 1`, … digits, at most `fuel` of them. -/
def Interval.search (i : Interval) (magnitude : Int) : Nat → Nat → Option Decimal
  | 0, _ => none
  | fuel + 1, places =>
    match i.onGrid (magnitude - Int.ofNat places + 1) with
    | some d => some d
    | none => i.search magnitude fuel (places + 1)

/-- The shortest decimal that reads back as `mantissa * 2 ^ exponent`, nearest to it. Seventeen
digits always suffice. -/
def shortest (mantissa : Nat) (exponent : Int) : Decimal :=
  let i := roundingInterval mantissa exponent
  match i.search (floorLog10 i.value i.den) 17 1 with
  | some d => d.stripped
  | none => rounded 17 i.value i.den

end Decimal

end SchurForm
