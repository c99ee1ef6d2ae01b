import SchurForm.Decimal.Shortest

/-!
# Written numbers

A style says how a binary64 number is written with its shortest digits: where positional notation is
used, and whether a whole number keeps a point. Three styles occur: plain text, exponents only, and
the style of table files. Columns of a printed table have a fixed number of places instead.
-/

namespace SchurForm

namespace Decimal

/-- How a number is written with its shortest digits. -/
structure Style where
  /-- Whether positional notation is used when the point stands behind that many digits. -/
  positional : Int → Bool
  /-- Whether a whole number in positional notation ends in `.0`. -/
  keepPoint : Bool

/-- Numbers in messages: always positional, whole numbers without a point. -/
def Style.plain : Style := ⟨fun _ => true, false⟩

/-- Numbers in messages about residuals: always with an exponent. -/
def Style.scientific : Style := ⟨fun _ => false, false⟩

/-- Numbers in table files: positional between `10 ^ (-6)` and `10 ^ 16`, always with a point. -/
def Style.table : Style := ⟨fun k => decide (-5 < k) && decide (k ≤ 16), true⟩

/-- Digits with the point behind the first `k` of them. -/
def positionalText (keepPoint : Bool) (ds : List Char) (k : Int) : List Char :=
  if k ≤ 0 then
    '0' :: '.' :: List.replicate (-k).toNat '0' ++ ds
  else if Int.ofNat ds.length ≤ k then
    ds ++ List.replicate (k.toNat - ds.length) '0' ++ (if keepPoint then ['.', '0'] else [])
  else
    ds.take k.toNat ++ '.' :: ds.drop k.toNat

/-- Digits with the point behind the first one, and an exponent. -/
def exponentText (ds : List Char) (k : Int) : List Char :=
  let mantissa :=
    match ds with
    | [] => []
    | [d] => [d]
    | d :: more => d :: '.' :: more
  mantissa ++ 'e' :: (toString (k - 1)).toList

/-- A decimal in the given style. -/
def Style.decimalText (style : Style) (d : Decimal) : List Char :=
  if style.positional d.point then positionalText style.keepPoint d.digits d.point
  else exponentText d.digits d.point

/-- A number taken apart, in the given style. -/
def Style.render (style : Style) : Binary64 → List Char
  | .nan => ['N', 'a', 'N']
  | .infinite negative => (if negative then ['-'] else []) ++ ['i', 'n', 'f']
  | .finite negative mantissa exponent =>
    let magnitude := if mantissa = 0 then ⟨0, 0⟩ else shortest mantissa exponent
    (if negative then ['-'] else []) ++ style.decimalText magnitude

/-- A number in the given style. -/
def Style.write (style : Style) (x : Float) : String :=
  String.ofList (style.render (.ofFloat x))

/-- A number with one digit before the point, `places` digits after it, and an exponent. -/
def fixedScientific (places : Nat) (x : Float) : String :=
  let signText (negative : Bool) : String := if negative then "-" else ""
  match Binary64.ofFloat x with
  | .nan => "NaN"
  | .infinite negative => signText negative ++ "inf"
  | .finite negative mantissa exponent =>
    let q := Binary64.quotient mantissa exponent
    let d := rounded (places + 1) q.1 q.2
    let ds := if mantissa = 0 then List.replicate (places + 1) '0' else d.digits
    let k := if mantissa = 0 then 1 else d.point
    signText negative ++ String.ofList (exponentText ds k)

end Decimal

end SchurForm
