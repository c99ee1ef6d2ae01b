import SchurForm.SylvesterEquation.PivotedFactors

/-!
# Small Sylvester equations

The equation `A₁₁ X - X A₂₂ = scale * A₁₂`, and the coupled pair for the unknowns `R` and `L`

    A₁₁ R - L A₂₂ = scale * A₁₂
    B₁₁ R - L B₂₂ = scale * B₁₂

met when adjacent diagonal blocks are exchanged. Both are written as one linear system for the
entries of the unknowns, column by column.
-/

namespace SchurForm

variable {α : Type} [Scalar α] {p q : Nat}

open Scalar

/-- The solution of a Sylvester equation. In the single equation both unknowns are the same. -/
structure SylvesterUnknowns (p q : Nat) (α : Type) where
  right : Mat p q α
  left : Mat p q α
  scale : α
  perturbed : Bool

/-- The coefficient of unknown `r` in the part of equation `e` that multiplies from the left by `a`.
-/
def leftCoefficient (a : Mat p p α) (e r : Nat) : α :=
  if e / p = r / p then a.get (e % p) (r % p) else 0

/-- The coefficient of unknown `r` in the part of equation `e` that multiplies from the right by
`a`. -/
def rightCoefficient (a : Mat q q α) (p e r : Nat) : α :=
  if e % p = r % p then a.get (r / p) (e / p) else 0

/-- The entries of a matrix column by column. -/
def stackColumns (a : Mat p q α) : Vec (p * q) α :=
  Vec.ofFn fun e => a.get (e % p) (e / p)

/-- The matrix whose entries stand in a vector column by column, from `offset` on. -/
def unstackColumns {n : Nat} (x : Vec n α) (offset : Nat) : Mat p q α :=
  Mat.ofFn fun i j => x.get (offset + (i + j * p))

/-- Solve `a11 X - X a22 = scale * a12`. -/
def solveSingleSylvester (a11 : Mat p p α) (a22 : Mat q q α) (a12 : Mat p q α) (steps : Nat) :
    SylvesterUnknowns p q α :=
  let m : Mat (p * q) (p * q) α :=
    Mat.ofFn fun e r => leftCoefficient a11 e r - rightCoefficient a22 p e r
  let solution := solveWithRefinement m (stackColumns a12) steps
  let x := unstackColumns solution.x 0
  { right := x, left := x, scale := solution.scale, perturbed := solution.perturbed }

/-- Solve `a11 R - L a22 = scale * a12` and `b11 R - L b22 = scale * b12`. -/
def solveCoupledSylvester (a11 : Mat p p α) (a22 : Mat q q α) (a12 : Mat p q α)
    (b11 : Mat p p α) (b22 : Mat q q α) (b12 : Mat p q α) (steps : Nat) :
    SylvesterUnknowns p q α :=
  let m : Mat (p * q + p * q) (p * q + p * q) α := Mat.ofFn fun e r =>
    let x11 := if e < p * q then a11 else b11
    let x22 := if e < p * q then a22 else b22
    if r < p * q then leftCoefficient x11 (e % (p * q)) r
    else 0 - rightCoefficient x22 p (e % (p * q)) (r - p * q)
  let rhs : Vec (p * q + p * q) α := Vec.ofFn fun e =>
    if e < p * q then (stackColumns a12).get e else (stackColumns b12).get (e - p * q)
  let solution := solveWithRefinement m rhs steps
  { right := unstackColumns solution.x 0
    left := unstackColumns solution.x (p * q)
    scale := solution.scale
    perturbed := solution.perturbed }

end SchurForm
