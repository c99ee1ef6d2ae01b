import SchurForm.Eigenvector.Standard

/-!
# Eigenvectors of a pencil

Every eigenvalue is written as a quotient `b / a` whose parts are scaled against the column norms of
both matrices, and the vector solves `(a S - b T) x = 0` from its own block upwards. Infinite
eigenvalues have `a = 0` and need no treatment of their own. A second running bound keeps the
contributions of `T` from overflowing.
-/

namespace SchurForm

variable {α : Type} [Scalar α] {n : Nat}

open Scalar

/-- The data that all vectors of one pencil share. -/
structure PencilSweep (n : Nat) (α : Type) where
  s : Mat n n α
  t : Mat n n α
  normS : α
  normT : α
  scaleS : α
  scaleT : α
  sumsS : Vec n α
  sumsT : Vec n α

/-- The largest sum of the magnitudes in a column. -/
def Mat.columnNorm {m : Nat} (a : Mat m n α) : α :=
  maxTo n fun j => a.columnSumAbove m j

/-- The norms and column sums of a pencil. -/
def PencilSweep.ofPencil (s t : Mat n n α) (blocks : List (Block α)) : PencilSweep n α :=
  let normS := s.columnNorm
  let normT := t.columnNorm
  { s, t, normS, normT
    scaleS := 1 / maxNum normS minPositive
    scaleT := 1 / maxNum normT minPositive
    sumsS := sumsAboveBlocks s blocks
    sumsT := sumsAboveBlocks t blocks }

/-- The coefficients of the system `(a S - (re + i * im) T) x = 0`. -/
structure PencilShift (α : Type) where
  a : α
  re : α
  im : α

/-- Multiply a vector by a number and its scale with it. -/
def LeadingVector.scaledBy {rows : Nat} (x : LeadingVector rows α) (factor : α) :
    LeadingVector rows α :=
  { x.times factor with scale := x.scale * factor }

namespace PencilSweep

variable (sweep : PencilSweep n α)

/-- The coefficients for the real eigenvalue `alpha / beta`. Each is lifted when it would underflow
although the quantity that it comes from does not. -/
def shiftOfReal (alpha beta : α) : PencilShift α :=
  let small : α := minPositive * (n : α) / epsilon
  let big := 1 / small
  let temp := 1 / maxNum (maxNum (abs alpha * sweep.scaleS) (abs beta * sweep.scaleT)) minPositive
  let alphaScaled := (temp * alpha) * sweep.scaleS
  let betaScaled := (temp * beta) * sweep.scaleT
  let a := betaScaled * sweep.scaleS
  let b := alphaScaled * sweep.scaleT
  let liftA := decide (minPositive ≤ abs betaScaled) && decide (abs a < small)
  let liftB := decide (minPositive ≤ abs alphaScaled) && decide (abs b < small)
  if liftA || liftB then
    let scale := if liftA then (small / abs betaScaled) * minNum sweep.normS big else 1
    let scale :=
      if liftB then maxNum scale ((small / abs alphaScaled) * minNum sweep.normT big) else scale
    let scale := minNum scale (1 / (minPositive * maxNum (maxNum 1 (abs a)) (abs b)))
    { a := if liftA then sweep.scaleS * (scale * betaScaled) else scale * a
      re := if liftB then sweep.scaleT * (scale * alphaScaled) else scale * b
      im := 0 }
  else { a, re := b, im := 0 }

/-- The coefficients for the eigenvalue `re + i * im` of a conjugate pair. -/
def shiftOfPair (re im : α) : PencilShift α :=
  let ratio := sweep.scaleS / sweep.scaleT
  let scaledRe := re * ratio
  let scaledIm := im * ratio
  let c := 1 / maxNum 1 (abs scaledRe + abs scaledIm)
  { a := sweep.scaleS * c, re := sweep.scaleT * scaledRe * c, im := sweep.scaleT * scaledIm * c }

/-- A vector on its way up, with a bound for its entries. -/
structure Rising (rows : Nat) (α : Type) where
  x : LeadingVector rows α
  bound : α

/-- Subtract the contribution of the entry in row `c` from the rows above row `j`. -/
def subtractColumn {rows : Nat} (shift : PencilShift α) (j : Nat) (x : LeadingVector rows α)
    (c : Nat) : LeadingVector rows α :=
  let xr := x.re.get c
  let xi := x.im.get c
  let p (i : Nat) : α := shift.a * sweep.s.get i c - shift.re * sweep.t.get i c
  let q (i : Nat) : α := shift.im * sweep.t.get i c
  { x with
    re := Vec.ofFn fun i => if i < j then x.re.get i - (p i * xr + q i * xi) else x.re.get i
    im := Vec.ofFn fun i => if i < j then x.im.get i - (p i * xi - q i * xr) else x.im.get i }

/-- The least magnitude of a pivot for a shift. -/
def pivotFloor (shift : PencilShift α) : α :=
  let sizeB := abs shift.re + abs shift.im
  maxNum (maxNum (epsilon * abs shift.a * sweep.normS) (epsilon * sizeB * sweep.normT)) minPositive

/-- The equation for the rows of a block above the eigenvalue. -/
def equation (shift : PencilShift α) (floor : α) (j size : Nat) : ShiftedEquation size α :=
  { transpose := false, floor, factor := shift.a, a := sweep.s.block j j
    d1 := sweep.t.get j j
    d2 := if size = 2 then sweep.t.get (j + 1) (j + 1) else 1
    shiftRe := shift.re, shiftIm := shift.im }

/-- The largest contribution that a unit entry in the rows of a block can make to the rows above. -/
def contribution (shift : PencilShift α) (j size : Nat) : α :=
  let sizeA := abs shift.a
  let sizeB := abs shift.re + abs shift.im
  (List.range size).foldl
    (fun g r => maxNum g (sizeA * sweep.sumsS.get (j + r) + sizeB * sweep.sumsT.get (j + r)))
    (maxNum sizeA sizeB)

/-- Solve for the rows of one block and update the rows above it. -/
def step {rows : Nat} (shift : PencilShift α) (floor : α) (st : Rising rows α) (b : Block α) :
    Rising rows α :=
  let j := b.start
  let solution := (sweep.equation shift floor j b.size).solve (st.x.rowsOf j b.size)
  let scaled := if solution.scale < 1 then st.x.scaledBy solution.scale else st.x
  let bound := maxNum (solution.scale * st.bound) solution.norm
  let solved := { scaled.setRows j b.size solution.x with
    perturbed := st.x.perturbed || solution.perturbed }
  if 0 < j then
    let shrink := 1 / maxNum bound 1
    let largest : α := 1 / (minPositive * (n : α))
    let shrinks := decide (largest * shrink < sweep.contribution shift j b.size)
    let x := if shrinks then solved.scaledBy shrink else solved
    { x := (List.range b.size).foldl (fun y r => sweep.subtractColumn shift j y (j + r)) x
      bound := if shrinks then bound * shrink else bound }
  else { x := solved, bound }

/-- Solve for the rows of all blocks above the eigenvalue, the nearest block first. -/
def climb {rows : Nat} (shift : PencilShift α) (start : Rising rows α) (above : List (Block α)) :
    LeadingVector rows α :=
  (above.foldl (sweep.step shift (sweep.pivotFloor shift)) start).x

/-- Both diagonal entries are so small that any vector solves the system. -/
def degenerate (k : Nat) : Bool :=
  decide (abs (sweep.s.get k k) ≤ minPositive) && decide (abs (sweep.t.get k k) ≤ minPositive)

/-- The coefficients for the real eigenvalue in row `k`. -/
def shiftOfRealAt (k : Nat) : PencilShift α :=
  sweep.shiftOfReal (sweep.s.get k k) (sweep.t.get k k)

/-- The starting vector of a real eigenvalue in row `k`. -/
def startReal (shift : PencilShift α) (k : Nat) : Rising (k + 1) α :=
  { x :=
      { re := Vec.ofFn fun i =>
          if i = k then 1 else shift.re * sweep.t.get i k - shift.a * sweep.s.get i k
        im := Vec.zero
        scale := 1
        perturbed := false }
    bound := 1 }

/-- The unit vector of row `k`, which solves a degenerate system. -/
def unitVector (k : Nat) : LeadingVector (k + 1) α :=
  { re := Vec.ofFn fun i => if i = k then 1 else 0, im := Vec.zero, scale := 1, perturbed := false }

/-- A null vector of the block in rows `k` and `k + 1`, from the larger of its rows: two real and
two imaginary parts. -/
def pairNullVector (shift : PencilShift α) (k : Nat) : (α × α) × (α × α) :=
  let entry10 := shift.a * sweep.s.get (k + 1) k
  let entry11Re := shift.a * sweep.s.get (k + 1) (k + 1) - shift.re * sweep.t.get (k + 1) (k + 1)
  let entry11Im := -shift.im * sweep.t.get (k + 1) (k + 1)
  if abs entry11Re + abs entry11Im ≤ abs entry10 then
    ((-entry11Re / entry10, 1), (-entry11Im / entry10, 0))
  else
    let entry01 := shift.a * sweep.s.get k (k + 1)
    ((1, (shift.re * sweep.t.get k k - shift.a * sweep.s.get k k) / entry01),
      (0, shift.im * sweep.t.get k k / entry01))

/-- The starting vector of the pair in rows `k` and `k + 1`. -/
def startPair (shift : PencilShift α) (k : Nat) : Rising (k + 2) α :=
  let start := sweep.pairNullVector shift k
  let part (x : α × α) : Vec (k + 2) α := Vec.ofFn fun i =>
    if i = k then x.1 else if i = k + 1 then x.2 else 0
  let x : LeadingVector (k + 2) α :=
    { re := part start.1, im := part start.2, scale := 1, perturbed := false }
  { x := [k, k + 1].foldl (sweep.subtractColumn shift k) x
    bound := maxNum (abs start.1.1 + abs start.2.1) (abs start.1.2 + abs start.2.2) }

/-- The vector of a block, in the rows down to the end of the block. -/
def vector (b : Block α) (above : List (Block α)) : LeadingVector b.stop α :=
  match b with
  | .real k =>
    if sweep.degenerate k then unitVector k
    else
      let shift := sweep.shiftOfRealAt k
      sweep.climb shift (sweep.startReal shift k) above
  | .pair k re im =>
    let shift := sweep.shiftOfPair re im
    sweep.climb shift (sweep.startPair shift k) above

end PencilSweep

/-- A pencil with its right factor from matrices of unknown dimensions. Here the order of `T` is
checked as that of an argument. -/
def PencilForm.ofRightTables (s t : Table α) (z : Option (Table α)) :
    Except (FormError α) ((n : Nat) × PencilForm n α) := do
  let ⟨n, s⟩ ← s.square "S"
  if t.rows = n ∧ t.cols = n then
    let z ← Table.factorOf? n 7 "Z" z
    return ⟨n, { s, t := t.leading n n, q := none, z }⟩
  else .error (.invalidArgument 5 "T" (.wrongDimensions n t.rows t.cols))

/-- The eigenvectors of the selected eigenvalues of a pencil, multiplied by its right factor if it
has one. -/
def PencilForm.eigenvectors (norm : Normalization) (form : PencilForm n α)
    (selected : List Bool) : Except (FormError α) (Eigenvectors n α) := do
  let blocks ← pencilBlocks form.s form.t
  let _ ← checkSelection blocks selected 2
  let sweep := PencilSweep.ofPencil form.s form.t blocks
  return packColumns
    (fun b above => (sweep.vector b above).eigenvector? norm form.z b.isPair)
    (selectedWithAbove blocks selected)

end SchurForm
