import SchurForm.Block.Recognition
import SchurForm.Exchange
import SchurForm.Reflection
import SchurForm.SylvesterEquation
import SchurForm.TwoByTwo

/-!
# Exchanges in a pencil

The subspaces of the lower block pair, one for each side, are found from a coupled pair of Sylvester
equations. Both transformed patches have to pass the tests of the standard exchange. Blocks of order
two are then turned from both sides until the block of the second matrix is diagonal again.
-/

namespace SchurForm

variable {α : Type} [Scalar α] {p q : Nat}

/-- An accepted exchange: `(s, t) = leftᵀ * (patch of S, patch of T) * right`. -/
structure PencilExchange (m : Nat) (α : Type) where
  left : Mat m m α
  right : Mat m m α
  s : Mat m m α
  t : Mat m m α

/-- The coupled Sylvester equations of a pair of patches. -/
def coupledSolution (tol : Tolerance α) (a b : Mat (p + q) (p + q) α) :
    SylvesterUnknowns p q α :=
  solveCoupledSylvester (a.block 0 0) (a.block p p) (a.block 0 p)
    (b.block 0 0) (b.block p p) (b.block 0 p) tol.refinements

/-- Make the block of the second matrix that starts in row `k` diagonal. -/
def PencilExchange.diagonalizeBlock {m : Nat} (row k : Nat) (e : PencilExchange m α) :
    Except (FormError α) (PencilExchange m α) :=
  let block := diagonalize (e.t.get k k) (e.t.get k (k + 1))
    (e.t.get (k + 1) k) (e.t.get (k + 1) (k + 1))
  let turn (patch : Mat m m α) : Mat m m α :=
    block.right.rotateColumns k (k + 1) (block.left.rotateRows k (k + 1) patch)
  let s := turn e.s
  let turned := turn e.t
  let t : Mat m m α := Mat.ofFn fun i j =>
    if i = k ∧ j = k then block.d0
    else if i = k ∧ j = k + 1 then 0
    else if i = k + 1 ∧ j = k then 0
    else if i = k + 1 ∧ j = k + 1 then block.d1
    else turned.get i j
  match pencilComplexEigenvalue? (s.get k k) (s.get k (k + 1)) (s.get (k + 1) k)
      (s.get (k + 1) (k + 1)) block.d0 block.d1 with
  | some _ =>
    .ok
      { left := block.left.rotateColumns k (k + 1) e.left
        right := block.right.rotateColumns k (k + 1) e.right
        s, t }
  | none => .error (.pairSplit row)

/-- Diagonalize the block of order two in row `k`, if the block there has that order. -/
def PencilExchange.diagonalizeSize {m : Nat} (row k size : Nat) (e : PencilExchange m α) :
    Except (FormError α) (PencilExchange m α) :=
  if size = 2 then e.diagonalizeBlock row k else .ok e

/-- Exchange the leading block pair of order `p` of a pair of patches with its trailing block pair
of order `q`. The patches start in the given row of the full matrices. -/
def exchangePencil (tol : Tolerance α) (row : Nat) (a b : Mat (p + q) (p + q) α) :
    Except (FormError α) (PencilExchange (p + q) α) := do
  let limitS := tol.threshold a.supNorm
  let limitT := tol.threshold b.supNorm
  let solution := coupledSolution tol a b
  let right := completeBasis (subspaceBasis solution.right solution.scale)
  let left := completeBasis (subspaceBasis solution.left solution.scale)
  let s := transformed left a right
  let t := transformed left b right
  refuseAbove row (lowerLeft s p q).supNorm limitS
  refuseAbove row (lowerLeft t p q).supNorm limitT
  let s := s.clear q p 0 q
  let t := t.clear q p 0 q
  refuseAbove row (a.sub (rebuilt left s right)).supNorm limitS
  refuseAbove row (b.sub (rebuilt left t right)).supNorm limitT
  let first ← PencilExchange.diagonalizeSize row 0 q ⟨left, right, s, t⟩
  first.diagonalizeSize row q p

end SchurForm
