import SchurForm.Decimal

/-!
# Reading numbers

A written number is an optional sign followed by a word for an infinity or a NaN in any letter case,
or by digits with an optional point and an optional exponent; at least one digit stands beside the
point. The value is the nearest binary64 number.
-/

namespace SchurForm

namespace Decimal

/-- Why a text is not a number. -/
inductive ReadError where
  | empty
  | malformed
  deriving DecidableEq, Repr

/-- The wording of an error. -/
def ReadError.message : ReadError → String
  | .empty => "cannot parse float from empty string"
  | .malformed => "invalid float literal"

/-- The value of a digit. -/
def digitValue (c : Char) : Nat :=
  c.toNat - '0'.toNat

/-- The number written by digits. -/
def ofDigits (ds : List Char) : Nat :=
  ds.foldl (fun n c => 10 * n + digitValue c) 0

/-- An optional sign and the rest. -/
def splitSign : List Char → Bool × List Char
  | '-' :: rest => (true, rest)
  | '+' :: rest => (false, rest)
  | rest => (false, rest)

/-- The leading digits and the rest. -/
def splitDigits (cs : List Char) : List Char × List Char :=
  (cs.takeWhile Char.isDigit, cs.dropWhile Char.isDigit)

/-- The digits of a fraction, when a point follows. -/
def splitFraction : List Char → List Char × List Char
  | '.' :: rest => splitDigits rest
  | rest => ([], rest)

/-- The exponent at the end of a number: nothing, or a letter, an optional sign and digits. -/
def readExponent : List Char → Option Int
  | [] => some 0
  | c :: rest =>
    if c = 'e' ∨ c = 'E' then
      let signed := splitSign rest
      let ds := splitDigits signed.2
      if ds.1 ≠ [] ∧ ds.2 = [] then
        some (if signed.1 then -Int.ofNat (ofDigits ds.1) else Int.ofNat (ofDigits ds.1))
      else none
    else none

/-- A decimal without a sign. -/
def readUnsigned (cs : List Char) : Option Decimal :=
  let whole := splitDigits cs
  let fraction := splitFraction whole.2
  if whole.1 = [] ∧ fraction.1 = [] then none
  else
    (readExponent fraction.2).map fun e =>
      ⟨ofDigits (whole.1 ++ fraction.1), e - Int.ofNat fraction.1.length⟩

/-- The nearest binary64 number to a decimal of the given sign. Decimals beyond the range on either
side are settled by their magnitude alone. -/
def toFloat (negative : Bool) (d : Decimal) : Float :=
  if d.coefficient = 0 ∨ d.point < -400 then Binary64.nearest negative 0 1
  else if 400 < d.point then
    Float.ofBits (UInt64.ofNat (Binary64.infinityBits negative))
  else
    Binary64.nearest negative (d.coefficient * tenPow d.exponent.toNat) (tenPow (-d.exponent).toNat)

/-- Read a number. -/
def read (cs : List Char) : Except ReadError Float :=
  if cs = [] then .error .empty
  else
    let signed := splitSign cs
    let word := signed.2.map Char.toLower
    if word = "inf".toList ∨ word = "infinity".toList then
      .ok (Float.ofBits (UInt64.ofNat (Binary64.infinityBits signed.1)))
    else if word = "nan".toList then
      .ok (0.0 / 0.0)
    else
      match readUnsigned signed.2 with
      | some d => .ok (toFloat signed.1 d)
      | none => .error .malformed

end Decimal

end SchurForm
