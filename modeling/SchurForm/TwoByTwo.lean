import SchurForm.GivensRotation

/-!
# Normal forms of order two

`standardize` finds the real Schur form of a real matrix of order two: upper triangular if its
eigenvalues are real, else with equal diagonal entries and off-diagonal entries of opposite sign.
`diagonalize` makes a real matrix of order two diagonal by one rotation from each side.
-/

namespace SchurForm

variable {α : Type} [Scalar α]

open Scalar

/-- A matrix `[a b; c d]` in standard form, with the rotation that leads to it. -/
structure StandardBlock (α : Type) where
  a : α
  b : α
  c : α
  d : α
  rotation : GivensRotation α

namespace StandardBlock

/-- The block holds a conjugate pair. -/
def holdsPair (block : StandardBlock α) : Bool :=
  block.c != 0

/-- The eigenvalue with non-negative imaginary part. -/
def eigenvalue (block : StandardBlock α) : α × α :=
  if block.c == 0 then (block.a, 0)
  else (block.a, sqrt (abs block.b) * sqrt (abs block.c))

/-- Below this magnitude two numbers are scaled up before their length is taken. -/
def rescaleLow : α := sqrt safeMin

/-- Above this magnitude two numbers are scaled down before their length is taken. -/
def rescaleHigh : α := 1 / rescaleLow

/-- Bring two numbers into the range where their length neither overflows nor vanishes, in at most
`fuel` steps. Only their ratio matters afterwards. -/
def rescale : Nat → α → α → α × α
  | 0, sigma, temp => (sigma, temp)
  | fuel + 1, sigma, temp =>
    let scale := maxNum (abs temp) (abs sigma)
    if rescaleHigh ≤ scale then rescale fuel (sigma * rescaleLow) (temp * rescaleLow)
    else if scale ≤ rescaleLow then rescale fuel (sigma * rescaleHigh) (temp * rescaleHigh)
    else (sigma, temp)

/-- Two distinct real eigenvalues, found from half the difference `p` of the diagonal entries, the
larger magnitude of an off-diagonal entry, the smaller one with the sign of their product, and the
discriminant `z`. -/
def splitReal (b c d p scale larger smaller z : α) : StandardBlock α :=
  let z := p + copySign (sqrt scale * sqrt z) p
  let tau := hypot c z
  { a := d + z, b := b - c, c := 0, d := d - (larger / z) * smaller
    rotation := ⟨z / tau, c / tau⟩ }

/-- The matrix after the rotation that makes its diagonal entries equal, except for rounding. -/
def equalized (a b c d : α) : StandardBlock α :=
  let scaled := rescale 21 (b + c) (a - d)
  let sigma := scaled.1
  let p := half * scaled.2
  let tau := hypot sigma scaled.2
  let cs := sqrt (half * (1 + abs sigma / tau))
  let sn := -(p / (tau * cs)) * copySign 1 sigma
  let aa := a * cs + b * sn
  let bb := -a * sn + b * cs
  let cc := c * cs + d * sn
  let dd := -c * sn + d * cs
  { a := aa * cs + cc * sn
    b := bb * cs + dd * sn
    c := -aa * sn + cc * cs
    d := -bb * sn + dd * cs
    rotation := ⟨cs, sn⟩ }

/-- Finish a matrix whose diagonal entries should be equal: make them so, and reduce it to
triangular form if its eigenvalues turn out to be real. -/
def settle (block : StandardBlock α) : StandardBlock α :=
  let b := block.b
  let c := block.c
  let cs := block.rotation.c
  let sn := block.rotation.s
  let mean := half * (block.a + block.d)
  if c == 0 then { block with a := mean, d := mean }
  else if b == 0 then
    { a := mean, b := -c, c := 0, d := mean, rotation := ⟨-sn, cs⟩ }
  else if sign b == sign c then
    let rootB := sqrt (abs b)
    let rootC := sqrt (abs c)
    let p := copySign (rootB * rootC) c
    let tau := 1 / sqrt (abs (b + c))
    let turnC := rootB * tau
    let turnS := rootC * tau
    { a := mean + p, b := b - c, c := 0, d := mean - p
      rotation := ⟨cs * turnC - sn * turnS, cs * turnS + sn * turnC⟩ }
  else { block with a := mean, d := mean }

end StandardBlock

open StandardBlock in
/-- The factorization `[a b; c d] = R [a' b'; c' d'] Rᵀ` with the block in standard form. -/
def standardize (a b c d : α) : StandardBlock α :=
  if c == 0 then ⟨a, b, c, d, .identity⟩
  else if b == 0 then ⟨d, -c, 0, a, ⟨0, 1⟩⟩
  else if a - d == 0 && sign b != sign c then ⟨a, b, c, d, .identity⟩
  else
    let p := half * (a - d)
    let larger := maxNum (abs b) (abs c)
    let smaller := minNum (abs b) (abs c) * sign b * sign c
    let scale := maxNum (abs p) larger
    let z := (p / scale) * p + (larger / scale) * smaller
    if four * epsilon ≤ z then splitReal b c d p scale larger smaller z
    else settle (equalized a b c d)

/-- A diagonal matrix of order two with the rotations that lead to it. -/
structure DiagonalBlock (α : Type) where
  left : GivensRotation α
  right : GivensRotation α
  d0 : α
  d1 : α

/-- Rotations `L` and `R` such that `Lᵀ M R` is diagonal for `M = [a b; c d]`. The right rotation
diagonalizes `Mᵀ M`, so that the columns of `M R` are orthogonal. -/
def diagonalize (a b c d : α) : DiagonalBlock α :=
  let gram00 := a * a + c * c
  let gram11 := b * b + d * d
  let gram01 := a * b + c * d
  let theta := half * atan2 (two * gram01) (gram00 - gram11)
  let right : GivensRotation α := ⟨cos theta, sin theta⟩
  let x0 := right.c * a + right.s * b
  let y0 := right.c * c + right.s * d
  let x1 := -right.s * a + right.c * b
  let y1 := -right.s * c + right.c * d
  let n0 := hypot x0 y0
  let n1 := hypot x1 y1
  let left : GivensRotation α :=
    if 0 < n0 then ⟨x0 / n0, y0 / n0⟩
    else if 0 < n1 then ⟨y1 / n1, -x1 / n1⟩
    else .identity
  { left, right
    d0 := left.c * x0 + left.s * y0
    d1 := -left.s * x1 + left.c * y1 }

end SchurForm
