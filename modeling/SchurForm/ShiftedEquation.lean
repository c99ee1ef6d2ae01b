import SchurForm.Mat

/-!
# Shifted equations of order one and two

The equations met while back-substituting through a diagonal block: `(factor * A - w * D) X = scale
* B` with `A` of order one or two, possibly transposed, `D` diagonal and `w` a real or complex
shift. Column 0 of `B` and `X` holds real parts and column 1 imaginary parts.

A coefficient matrix smaller than the floor is lifted to the floor; the solution is then flagged as
perturbed and solves a nearby equation exactly. The right-hand side is multiplied by `scale` to keep
`X` from overflowing. The factor is positive and at most one, except that an equation of order two
whose coefficients exceed the reciprocal of the least floor may scale its solution up.
-/

namespace SchurForm

/-- The coefficients of a shifted equation of order `p`, which is one or two. -/
structure ShiftedEquation (p : Nat) (α : Type) where
  transpose : Bool
  /-- The least magnitude that a pivot may have. -/
  floor : α
  factor : α
  a : Mat p p α
  d1 : α
  d2 : α
  shiftRe : α
  shiftIm : α

/-- The solution of a shifted equation. -/
structure ShiftedSolution (α : Type) where
  x : Mat 2 2 α
  scale : α
  /-- The largest sum of the magnitudes of the two parts of a row of the solution. -/
  norm : α
  perturbed : Bool

variable {α : Type} [Scalar α]

open Scalar

/-- The quotient `(a + i b) / (c + i d)`, formed without the square of the larger part of the
divisor. -/
def complexQuotient (a b c d : α) : α × α :=
  if abs d ≤ abs c then
    let e := d / c
    let f := c + d * e
    ((a + b * e) / f, (b - a * e) / f)
  else
    let e := c / d
    let f := d + c * e
    ((b + a * e) / f, (-a + b * e) / f)

namespace ShiftedEquation

/-- Twice the least normal number: the least floor in use. -/
def leastFloor : α := two * minPositive

/-- The reciprocal of the least floor. -/
def largest : α := 1 / leastFloor

variable {p : Nat} (eqn : ShiftedEquation p α)

/-- The floor in use. -/
def effectiveFloor : α := maxNum eqn.floor leastFloor

/-- The diagonal entry of `D` in row `i`. -/
def d (i : Nat) : α := if i = 0 then eqn.d1 else eqn.d2

/-- The real part of the coefficient matrix. -/
def coefficientRe : Mat p p α :=
  Mat.ofFn fun i j =>
    let entry := eqn.factor * (if eqn.transpose then eqn.a.get j i else eqn.a.get i j)
    if i = j then entry - eqn.shiftRe * eqn.d i else entry

/-- The imaginary part of the coefficient matrix, which is diagonal. -/
def coefficientIm : Mat p p α :=
  Mat.ofFn fun i j => if i = j then -eqn.shiftIm * eqn.d i else 0

/-- The scale that keeps a right-hand side of the given size, divided by a pivot of the given size,
from overflowing. -/
def pivotScale (pivot size : α) : α :=
  if pivot < 1 ∧ 1 < size ∧ largest * pivot < size then 1 / size else 1

/-- The equation of order one with a real shift. -/
def solveRealOne (b : Mat 2 2 α) : ShiftedSolution α :=
  let c := eqn.coefficientRe.get 0 0
  let floor := eqn.effectiveFloor
  let perturbed := decide (abs c < floor)
  let pivot := if perturbed then floor else c
  let pivotSize := if perturbed then floor else abs c
  let scale := pivotScale pivotSize (abs (b.get 0 0))
  let x := (b.get 0 0 * scale) / pivot
  { x := Mat.ofRows2 x 0 0 0, scale, norm := abs x, perturbed }

/-- The equation of order one with a complex shift. -/
def solveComplexOne (b : Mat 2 2 α) : ShiftedSolution α :=
  let cr := eqn.coefficientRe.get 0 0
  let ci := eqn.coefficientIm.get 0 0
  let floor := eqn.effectiveFloor
  let size := abs cr + abs ci
  let perturbed := decide (size < floor)
  let pivotRe := if perturbed then floor else cr
  let pivotIm := if perturbed then 0 else ci
  let pivotSize := if perturbed then floor else size
  let scale := pivotScale pivotSize (abs (b.get 0 0) + abs (b.get 0 1))
  let x := complexQuotient (scale * b.get 0 0) (scale * b.get 0 1) pivotRe pivotIm
  { x := Mat.ofRows2 x.1 x.2 0 0, scale, norm := abs x.1 + abs x.2, perturbed }

/-- A position of a matrix of order two with the size of its entry. -/
structure Pivot (α : Type) where
  /-- The position is in the second row. -/
  lower : Bool
  /-- The position is in the second column. -/
  right : Bool
  size : α

/-- The first largest entry, column by column; the upper left one if all have size zero. -/
def choosePivot (size : Nat → Nat → α) : Pivot α :=
  let better (best : Pivot α) (lower right : Bool) (x : α) : Pivot α :=
    if best.size < x then ⟨lower, right, x⟩ else best
  let best : Pivot α := better ⟨false, false, 0⟩ false false (size 0 0)
  let best := better best true false (size 1 0)
  let best := better best false true (size 0 1)
  better best true true (size 1 1)

/-- The other row or column of a matrix of order two. -/
def exchanged (flip : Bool) (i : Nat) : Nat :=
  if flip then 1 - i else i

/-- The matrix with the pivot moved to the upper left corner. -/
def Pivot.permute (pivot : Pivot α) (c : Mat 2 2 α) : Mat 2 2 α :=
  Mat.ofFn fun i j => c.get (exchanged pivot.lower i) (exchanged pivot.right j)

/-- The right-hand side with its rows in the order of the permuted matrix. -/
def Pivot.permuteRows (pivot : Pivot α) (b : Mat 2 2 α) : Mat 2 2 α :=
  Mat.ofFn fun i j => b.get (exchanged pivot.lower i) j

/-- A solution of the permuted equation with its unknowns put back in order. -/
def Pivot.restore (pivot : Pivot α) (x : Mat 2 2 α) : Mat 2 2 α :=
  Mat.ofFn fun i j => x.get (exchanged pivot.right i) j

/-- The solution when the whole coefficient matrix is below the floor: the floor takes its place. -/
def solveFloored (floor : α) (b : Mat 2 2 α) (size : α) : ShiftedSolution α :=
  let scale := pivotScale floor size
  let temp := scale / floor
  { x := b.map fun v => temp * v, scale, norm := temp * size, perturbed := true }

/-- Scale a solution down when its product with the coefficient matrix might overflow. The solution
occupies the given number of columns. -/
def scaledFurther (columns : Nat) (coefficientSize : α) (solution : ShiftedSolution α) :
    ShiftedSolution α :=
  if 1 < solution.norm ∧ 1 < coefficientSize ∧ largest / coefficientSize < solution.norm then
    let temp := coefficientSize / largest
    { x := Mat.ofFn fun i j =>
        if j < columns then solution.x.get i j * temp else solution.x.get i j
      scale := solution.scale * temp
      norm := solution.norm * temp
      perturbed := solution.perturbed }
  else solution

/-- The scale for the second elimination step. -/
def eliminationScale (pivotSize size : α) : α :=
  if 1 < size ∧ pivotSize < 1 ∧ largest * pivotSize ≤ size then 1 / size else 1

/-- The equation of order two with a real shift, by elimination with complete pivoting. -/
def solveRealTwo (eqn : ShiftedEquation 2 α) (b : Mat 2 2 α) : ShiftedSolution α :=
  let c := eqn.coefficientRe
  let floor := eqn.effectiveFloor
  let pivot := choosePivot fun i j => abs (c.get i j)
  if pivot.size < floor then
    solveFloored floor (Mat.ofRows2 (b.get 0 0) 0 (b.get 1 0) 0)
      (maxNum (abs (b.get 0 0)) (abs (b.get 1 0)))
  else
    let m := pivot.permute c
    let rhs := pivot.permuteRows b
    let u11Inv := 1 / m.get 0 0
    let l21 := u11Inv * m.get 1 0
    let u12 := m.get 0 1
    let reduced := m.get 1 1 - u12 * l21
    let perturbed := decide (abs reduced < floor)
    let u22 := if perturbed then floor else reduced
    let b1 := rhs.get 0 0
    let b2 := rhs.get 1 0 - l21 * b1
    let bound := maxNum (abs (b1 * (u22 * u11Inv))) (abs b2)
    let scale := eliminationScale (abs u22) bound
    let x2 := (b2 * scale) / u22
    let x1 := (scale * b1) * u11Inv - x2 * (u11Inv * u12)
    scaledFurther 1 pivot.size
      { x := pivot.restore (Mat.ofRows2 x1 0 x2 0), scale
        norm := maxNum (abs x1) (abs x2), perturbed }

/-- The first elimination step of a complex equation of order two. -/
structure ComplexElimination (α : Type) where
  u11InvRe : α
  u11InvIm : α
  l21Re : α
  l21Im : α
  u12ScaledRe : α
  u12ScaledIm : α
  u22Re : α
  u22Im : α

/-- Eliminate when the pivot comes from the diagonal, so that the off-diagonal entries are real. -/
def eliminateDiagonal (re im : Mat 2 2 α) : ComplexElimination α :=
  let u11Re := re.get 0 0
  let u11Im := im.get 0 0
  let inverse : α × α :=
    if abs u11Im < abs u11Re then
      let temp := u11Im / u11Re
      let r := 1 / (u11Re * (1 + temp * temp))
      (r, -temp * r)
    else
      let temp := u11Re / u11Im
      let i := -1 / (u11Im * (1 + temp * temp))
      (-temp * i, i)
  let l21Re := re.get 1 0 * inverse.1
  let l21Im := re.get 1 0 * inverse.2
  let u12 := re.get 0 1
  { u11InvRe := inverse.1
    u11InvIm := inverse.2
    l21Re
    l21Im
    u12ScaledRe := u12 * inverse.1
    u12ScaledIm := u12 * inverse.2
    u22Re := re.get 1 1 - u12 * l21Re
    u22Im := im.get 1 1 - u12 * l21Im }

/-- Eliminate when the pivot comes from off the diagonal, so that the diagonal entries are real. -/
def eliminateOffDiagonal (re im : Mat 2 2 α) : ComplexElimination α :=
  let u11Inv := 1 / re.get 0 0
  let l21Re := re.get 1 0 * u11Inv
  let l21Im := im.get 1 0 * u11Inv
  let u12Re := re.get 0 1
  let u12Im := im.get 0 1
  { u11InvRe := u11Inv
    u11InvIm := 0
    l21Re
    l21Im
    u12ScaledRe := u12Re * u11Inv
    u12ScaledIm := u12Im * u11Inv
    u22Re := re.get 1 1 - u12Re * l21Re + u12Im * l21Im
    u22Im := -u12Re * l21Im - u12Im * l21Re }

/-- The equation of order two with a complex shift, by elimination with complete pivoting. -/
def solveComplexTwo (eqn : ShiftedEquation 2 α) (b : Mat 2 2 α) : ShiftedSolution α :=
  let cr := eqn.coefficientRe
  let ci := eqn.coefficientIm
  let floor := eqn.effectiveFloor
  let pivot := choosePivot fun i j => abs (cr.get i j) + abs (ci.get i j)
  if pivot.size < floor then
    solveFloored floor b
      (maxNum (abs (b.get 0 0) + abs (b.get 0 1)) (abs (b.get 1 0) + abs (b.get 1 1)))
  else
    let re := pivot.permute cr
    let im := pivot.permute ci
    let u := if pivot.lower == pivot.right then eliminateDiagonal re im
      else eliminateOffDiagonal re im
    let perturbed := decide (abs u.u22Re + abs u.u22Im < floor)
    let u22Re := if perturbed then floor else u.u22Re
    let u22Im := if perturbed then 0 else u.u22Im
    let rhs := pivot.permuteRows b
    let b1Re := rhs.get 0 0
    let b1Im := rhs.get 0 1
    let b2Re := rhs.get 1 0 - u.l21Re * b1Re + u.l21Im * b1Im
    let b2Im := rhs.get 1 1 - u.l21Im * b1Re - u.l21Re * b1Im
    let u22Size := abs u22Re + abs u22Im
    let bound :=
      maxNum ((abs b1Re + abs b1Im) * (u22Size * (abs u.u11InvRe + abs u.u11InvIm)))
        (abs b2Re + abs b2Im)
    let scale := eliminationScale u22Size bound
    let b1Re := b1Re * scale
    let b1Im := b1Im * scale
    let b2Re := b2Re * scale
    let b2Im := b2Im * scale
    let x2 := complexQuotient b2Re b2Im u22Re u22Im
    let x1Re := u.u11InvRe * b1Re - u.u11InvIm * b1Im - u.u12ScaledRe * x2.1 + u.u12ScaledIm * x2.2
    let x1Im := u.u11InvIm * b1Re + u.u11InvRe * b1Im - u.u12ScaledIm * x2.1 - u.u12ScaledRe * x2.2
    scaledFurther 2 pivot.size
      { x := pivot.restore (Mat.ofRows2 x1Re x1Im x2.1 x2.2), scale
        norm := maxNum (abs x1Re + abs x1Im) (abs x2.1 + abs x2.2), perturbed }

/-- Solve a shifted equation. With a real shift only the first column of `b` and `x` is used. -/
def solve : {p : Nat} → ShiftedEquation p α → Mat 2 2 α → ShiftedSolution α
  | 2, eqn, b => if eqn.shiftIm == 0 then eqn.solveRealTwo b else eqn.solveComplexTwo b
  | _, eqn, b => if eqn.shiftIm == 0 then eqn.solveRealOne b else eqn.solveComplexOne b

end ShiftedEquation

end SchurForm
