import SchurForm.Mat

/-!
# Factorization with complete pivoting

A small dense matrix is factored by elimination, the largest remaining entry being moved to the
diagonal in every step. Pivots below a floor relative to the largest entry of the matrix are lifted
to the floor, which flags the factorization as perturbed. Solving scales the right-hand side down
where the solution might overflow.
-/

namespace SchurForm

variable {α : Type} [Scalar α]

open Scalar

/-- A factored matrix: both factors in one table, and the row and the column of the matrix that now
stand at each place. -/
structure PivotedFactors (n : Nat) (α : Type) where
  lu : Mat n n α
  rowOrder : Nat → Nat
  colOrder : Nat → Nat
  perturbed : Bool

/-- The position of a pivot with its size. -/
structure LargestEntry (α : Type) where
  row : Nat
  col : Nat
  size : α

namespace PivotedFactors

variable {n : Nat}

/-- The first largest entry of the rows and columns from `k` on, row by row; the diagonal position
if all of them have size zero. -/
def largestFrom (a : Mat n n α) (k : Nat) : LargestEntry α :=
  let trailing := (List.range (n - k)).map fun i => k + i
  trailing.foldl
    (fun best i => trailing.foldl
      (fun best j => if best.size < abs (a.get i j) then ⟨i, j, abs (a.get i j)⟩ else best) best)
    ⟨k, k, 0⟩

/-- The index that stands at place `i` after places `k` and `r` have been exchanged. -/
def transposed (k r i : Nat) : Nat :=
  if i = k then r else if i = r then k else i

/-- A matrix with rows `k` and `r` and columns `k` and `c` exchanged. -/
def exchange (a : Mat n n α) (k r c : Nat) : Mat n n α :=
  Mat.ofFn fun i j => a.get (transposed k r i) (transposed k c j)

/-- Divide the column under the pivot of step `k` and subtract the outer product from the rest. -/
def eliminate (a : Mat n n α) (k : Nat) : Mat n n α :=
  let multipliers : Vec n α := Vec.ofFn fun i => a.get i k / a.get k k
  Mat.ofFn fun i j =>
    if k < i then
      if j = k then multipliers.get i
      else if k < j then a.get i j - multipliers.get i * a.get k j
      else a.get i j
    else a.get i j

/-- One step of the factorization. -/
def step (floor : α) (st : PivotedFactors n α) (k : Nat) : PivotedFactors n α :=
  let best := largestFrom st.lu k
  let exchanged := exchange st.lu k best.row best.col
  let small := decide (abs (exchanged.get k k) < floor)
  let lifted : Mat n n α :=
    if small then Mat.ofFn fun i j => if i = k ∧ j = k then floor else exchanged.get i j
    else exchanged
  { lu := eliminate lifted k
    rowOrder := fun i => st.rowOrder (transposed k best.row i)
    colOrder := fun i => st.colOrder (transposed k best.col i)
    perturbed := st.perturbed || small }

/-- The least magnitude of a pivot of the given matrix. -/
def pivotFloor (a : Mat n n α) : α :=
  maxNum (epsilon * a.supNorm) safeMin

/-- Factor a matrix. -/
def ofMat (a : Mat n n α) : PivotedFactors n α :=
  (List.range n).foldl (step (pivotFloor a))
    { lu := a, rowOrder := id, colOrder := id, perturbed := false }

/-- Subtract the products `f k` from `x` one after the other. -/
def subtractAll (x : α) (ks : List Nat) (f : Nat → α) : α :=
  ks.foldl (fun y k => y - f k) x

/-- Solve with the unit lower triangular factor. -/
def forward (lu : Mat n n α) (y : Vec n α) : Vec n α :=
  (List.range n).foldl
    (fun y i => y.set i (subtractAll (y.get i) (List.range i) fun k => lu.get i k * y.get k)) y

/-- Solve with the upper triangular factor, from the last row up. -/
def backward (lu : Mat n n α) (y : Vec n α) : Vec n α :=
  (List.range n).reverse.foldl
    (fun y i =>
      let later := (List.range (n - (i + 1))).map fun k => i + 1 + k
      y.set i (subtractAll (y.get i) later (fun k => lu.get i k * y.get k) / lu.get i i)) y

/-- The factor by which a forward solution is scaled before the backward solution. -/
def backwardScale (lu : Mat n n α) (y : Vec n α) : α :=
  if 0 < n ∧ abs (lu.get (n - 1) (n - 1)) < two * safeMin * y.supNorm then half / y.supNorm else 1

/-- Put the unknowns of the permuted system back in order. -/
def restore (order : Nat → Nat) (y : Vec n α) : Vec n α :=
  (List.range n).foldl (fun x k => x.set (order k) (y.get k)) Vec.zero

/-- The solution of `A x = scale * rhs` with `scale`. -/
def solve (f : PivotedFactors n α) (rhs : Vec n α) : Vec n α × α :=
  let y := forward f.lu (Vec.ofFn fun i => rhs.get (f.rowOrder i))
  let scale := backwardScale f.lu y
  (restore f.colOrder (backward f.lu (y.map fun v => v * scale)), scale)

end PivotedFactors

/-- The solution of a linear system after refinement. -/
structure RefinedSolution (n : Nat) (α : Type) where
  x : Vec n α
  scale : α
  perturbed : Bool

/-- At most the given number of refinement steps: solve for the residual and add the correction. The
steps end early when a correction would have to be scaled or is negligible. -/
def refine {n : Nat} (m : Mat n n α) (lu : PivotedFactors n α) (rhs : Vec n α) (scale : α) :
    Nat → Vec n α → Vec n α
  | 0, x => x
  | steps + 1, x =>
    let residual : Vec n α := Vec.ofFn fun i =>
      scale * rhs.get i - sumTo n fun j => m.get i j * x.get j
    let correction := lu.solve residual
    if correction.2 != 1 then x
    else
      let improved : Vec n α := Vec.ofFn fun i => x.get i + correction.1.get i
      if correction.1.supNorm ≤ epsilon * improved.supNorm then improved
      else refine m lu rhs scale steps improved

/-- Solve `m x = scale * rhs` with at most the given number of refinement steps. -/
def solveWithRefinement {n : Nat} (m : Mat n n α) (rhs : Vec n α) (steps : Nat) :
    RefinedSolution n α :=
  let lu := PivotedFactors.ofMat m
  let first := lu.solve rhs
  { x := refine m lu rhs first.2 steps first.1, scale := first.2, perturbed := lu.perturbed }

end SchurForm
