import SchurForm.Eigenvector
import SchurForm.Reordering
import SchurForm.ShiftedEquation

/-!
# Eigenvectors of a standard form

For the eigenvalue `w` of the block that starts in row `k` the vector solves `(S - w I) x = 0` with
zeros below the block. It starts from a null vector of the block and is found upwards, one diagonal
block at a time. The partial vector is scaled down whenever the next contribution might overflow.
-/

namespace SchurForm

variable {α : Type} [Scalar α] {n : Nat}

open Scalar

/-- The data that all vectors of one standard form share. -/
structure StandardSweep (n : Nat) (α : Type) where
  s : Mat n n α
  /-- For every column the sum of magnitudes above the block that holds the diagonal entry. -/
  sums : Vec n α

/-- The sums of magnitudes of the columns above their diagonal blocks. -/
def sumsAboveBlocks (a : Mat n n α) (blocks : List (Block α)) : Vec n α :=
  Vec.ofFn fun j =>
    match blockAt blocks j with
    | some b => a.columnSumAbove b.start j
    | none => 0

/-- The least magnitude of a pivot for a form of order `n`. -/
def smallestPivot (n : Nat) : α := minPositive * ((n : α) / epsilon)

/-- The largest magnitude that a partial vector may have. -/
def largestEntry (n : Nat) : α := (1 - epsilon) / smallestPivot n

/-- A null vector of `[a b; c d] - (re + i * im) I`, as its two real and its two imaginary parts. -/
def pairNullVector (a b c d re im : α) : (α × α) × (α × α) :=
  if abs c ≤ abs b then ((1, (re - a) / b), (0, im / b))
  else ((-im / c, 0), ((re - d) / c, 1))

/-- The starting vector of a real eigenvalue in row `k`: one in that row, and the right-hand side of
the rows above. -/
def startReal (s : Mat n n α) (k : Nat) : LeadingVector (k + 1) α :=
  { re := Vec.ofFn fun i => if i = k then 1 else -s.get i k
    im := Vec.zero
    scale := 1
    perturbed := false }

/-- The starting vector of the pair in rows `k` and `k + 1`. -/
def startPair (s : Mat n n α) (k : Nat) (re im : α) : LeadingVector (k + 2) α :=
  let start :=
    pairNullVector (s.get k k) (s.get k (k + 1)) (s.get (k + 1) k) (s.get (k + 1) (k + 1)) re im
  let part (x : α × α) : Vec (k + 2) α := Vec.ofFn fun i =>
    if i = k then x.1 else if i = k + 1 then x.2
    else -(x.1 * s.get i k + x.2 * s.get i (k + 1))
  { re := part start.1, im := part start.2, scale := 1, perturbed := false }

/-- The rows of a block of a vector, as the right-hand side of a shifted equation. -/
def LeadingVector.rowsOf {rows : Nat} (x : LeadingVector rows α) (j size : Nat) : Mat 2 2 α :=
  Mat.ofFn fun r c => if r < size then (if c = 0 then x.re else x.im).get (j + r) else 0

/-- Replace the rows of a block of a vector. -/
def LeadingVector.setRows {rows : Nat} (x : LeadingVector rows α) (j size : Nat)
    (values : Mat 2 2 α) : LeadingVector rows α :=
  let part (c : Nat) (v : Vec rows α) : Vec rows α := Vec.ofFn fun i =>
    if j ≤ i ∧ i < j + size then values.get (i - j) c else v.get i
  { x with re := part 0 x.re, im := part 1 x.im }

/-- Subtract the contribution of the entry in row `c` from the rows above row `j`. -/
def LeadingVector.subtractColumn {rows : Nat} (s : Mat n n α) (j : Nat) (x : LeadingVector rows α)
    (c : Nat) : LeadingVector rows α :=
  let part (v : Vec rows α) : Vec rows α := Vec.ofFn fun i =>
    if i < j then v.get i - v.get c * s.get i c else v.get i
  { x with re := part x.re, im := part x.im }

namespace StandardSweep

variable (sweep : StandardSweep n α)

/-- The equation for the rows of a block above the eigenvalue. -/
def equation (shiftRe shiftIm floor : α) (j size : Nat) : ShiftedEquation size α :=
  { transpose := false, floor, factor := 1, a := sweep.s.block j j, d1 := 1, d2 := 1
    shiftRe, shiftIm }

/-- The largest column sum of a block. -/
def contribution (j size : Nat) : α :=
  maxTo size fun c => sweep.sums.get (j + c)

/-- Solve for the rows of one block and update the rows above it. -/
def step {rows : Nat} (shiftRe shiftIm floor : α) (x : LeadingVector rows α) (b : Block α) :
    LeadingVector rows α :=
  let j := b.start
  let solution := (sweep.equation shiftRe shiftIm floor j b.size).solve (x.rowsOf j b.size)
  let shrink := decide (1 < solution.norm) &&
    decide (largestEntry n / solution.norm < sweep.contribution j b.size)
  let values := if shrink then solution.x.map fun v => v / solution.norm else solution.x
  let scale := if shrink then solution.scale / solution.norm else solution.scale
  let scaled :=
    if scale != 1 then { x.times scale with scale := x.scale * scale } else x
  let solved := { scaled.setRows j b.size values with
    perturbed := x.perturbed || solution.perturbed }
  (List.range b.size).foldl (fun y r => y.subtractColumn sweep.s j (j + r)) solved

/-- Solve for the rows of all blocks above the eigenvalue, the nearest block first. -/
def climb {rows : Nat} (shiftRe shiftIm : α) (start : LeadingVector rows α)
    (above : List (Block α)) : LeadingVector rows α :=
  let floor := maxNum (epsilon * (abs shiftRe + abs shiftIm)) (smallestPivot n)
  above.foldl (sweep.step shiftRe shiftIm floor) start

/-- The vector of a block, in the rows down to the end of the block. -/
def vector (b : Block α) (above : List (Block α)) : LeadingVector b.stop α :=
  match b with
  | .real k => sweep.climb (sweep.s.get k k) 0 (startReal sweep.s k) above
  | .pair k re im => sweep.climb re im (startPair sweep.s k re im) above

end StandardSweep

/-- The eigenvectors of the selected eigenvalues of a standard form, multiplied by its factor if it
has one. -/
def StandardForm.eigenvectors (norm : Normalization) (form : StandardForm n α)
    (selected : List Bool) : Except (FormError α) (Eigenvectors n α) := do
  let blocks ← diagonalBlocks form.s
  let _ ← checkSelection blocks selected 2
  let sweep : StandardSweep n α := { s := form.s, sums := sumsAboveBlocks form.s blocks }
  return packColumns
    (fun b above => (sweep.vector b above).eigenvector? norm form.q b.isPair)
    (selectedWithAbove blocks selected)

end SchurForm
