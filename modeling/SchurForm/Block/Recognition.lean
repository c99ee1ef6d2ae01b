import SchurForm.Block
import SchurForm.FormError
import SchurForm.Mat

/-!
# Recognising a Schur form

`diagonalBlocks` splits the diagonal of a matrix into blocks from top to bottom, or says why the
matrix is not a real Schur form; `pencilBlocks` does the same for a pair of matrices. A block of
order two is accepted only if its eigenvalues are a conjugate pair. The sign of the discriminant is
taken after scaling, so that the product of the off-diagonal entries cannot overflow.
-/

namespace SchurForm

variable {α : Type} [Scalar α]

open Scalar

/-- The eigenvalue with positive imaginary part of the block `[a b; c d]`, if its eigenvalues are
not real. -/
def complexEigenvalue? (a b c d : α) : Option (α × α) :=
  let p := half * (a - d)
  let scale := maxNum (maxNum (abs p) (abs b)) (abs c)
  if scale == 0 then none
  else
    let discriminant := (p / scale) * (p / scale) + (b / scale) * (c / scale)
    if 0 ≤ discriminant then none
    else some (half * (a + d), scale * sqrt (-discriminant))

/-- The eigenvalue with positive imaginary part of the pencil of `[a b; c d]` and the diagonal
matrix with entries `t0` and `t1`, if it has a conjugate pair. -/
def pencilComplexEigenvalue? (a b c d t0 t1 : α) : Option (α × α) :=
  if t0 == 0 || t1 == 0 then none
  else complexEigenvalue? (a / t0) (b / t0) (c / t1) (d / t1)

/-- The eigenvalue of the block of order two that starts in row `k`. -/
def pairAt {n : Nat} (s : Mat n n α) (k : Nat) : Option (α × α) :=
  complexEigenvalue? (s.get k k) (s.get k (k + 1)) (s.get (k + 1) k) (s.get (k + 1) (k + 1))

/-- The eigenvalue of the pencil block of order two that starts in row `k`. -/
def pencilPairAt {n : Nat} (s t : Mat n n α) (k : Nat) : Option (α × α) :=
  pencilComplexEigenvalue? (s.get k k) (s.get k (k + 1)) (s.get (k + 1) k) (s.get (k + 1) (k + 1))
    (t.get k k) (t.get (k + 1) (k + 1))

/-- The positions of an `n` by `n` matrix that lie at least `gap` rows below the diagonal, column by
column. -/
def positionsBelow (n gap : Nat) : List (Nat × Nat) :=
  (List.range n).flatMap fun j => (List.range (n - (j + gap))).map fun i => (j + gap + i, j)

/-- The first non-zero entry at least `gap` rows below the diagonal. -/
def firstNonzeroBelow {n : Nat} (a : Mat n n α) (gap : Nat) : Option (Nat × Nat) :=
  (positionsBelow n gap).find? fun p => a.get p.1 p.2 != 0

/-- Every entry more than one row below the diagonal is zero. -/
def checkSubdiagonal {n : Nat} (s : Mat n n α) : Except (FormError α) Unit :=
  match firstNonzeroBelow s 2 with
  | some (i, j) => .error (.inconsistentInput i (.belowSubdiagonal "S" i j))
  | none => .ok ()

/-- Every entry below the diagonal is zero. -/
def checkTriangular {n : Nat} (t : Mat n n α) : Except (FormError α) Unit :=
  match firstNonzeroBelow t 1 with
  | some (i, j) => .error (.inconsistentInput i (.belowDiagonal "T" i j))
  | none => .ok ()

/-- Walk down the diagonal from row `k` with `left` rows to go. A non-zero entry under the diagonal
opens a block of order two, whose eigenvalue `pair` has to supply. -/
def scanBlocks {n : Nat} (s : Mat n n α) (pair : Nat → Except (FormError α) (α × α)) :
    (left k : Nat) → Except (FormError α) (List (Block α))
  | 0, _ => .ok []
  | 1, k => .ok [.real k]
  | left + 2, k =>
    if s.get (k + 1) k != 0 then
      if decide (0 < left) && s.get (k + 2) (k + 1) != 0 then
        .error (.inconsistentInput k .consecutiveSubdiagonals)
      else do
        let eigenvalue ← pair k
        let rest ← scanBlocks s pair left (k + 2)
        return .pair k eigenvalue.1 eigenvalue.2 :: rest
    else do
      let rest ← scanBlocks s pair (left + 1) (k + 1)
      return .real k :: rest

/-- The eigenvalue of a block of order two, or the fault of a block with real eigenvalues. -/
def requirePair {n : Nat} (s : Mat n n α) (k : Nat) : Except (FormError α) (α × α) :=
  match pairAt s k with
  | some eigenvalue => .ok eigenvalue
  | none => .error (.inconsistentInput k .realEigenvalues)

/-- The eigenvalue of a pencil block of order two, or the fault of the block. -/
def requirePencilPair {n : Nat} (s t : Mat n n α) (k : Nat) : Except (FormError α) (α × α) :=
  if t.get k (k + 1) != 0 then
    .error (.inconsistentInput k .pencilBlockNotDiagonal)
  else
    match pencilPairAt s t k with
    | some eigenvalue => .ok eigenvalue
    | none => .error (.inconsistentInput k .pencilBlockWithoutPair)

/-- The diagonal blocks of a real Schur form, from top to bottom. -/
def diagonalBlocks {n : Nat} (s : Mat n n α) : Except (FormError α) (List (Block α)) := do
  checkSubdiagonal s
  scanBlocks s (requirePair s) n 0

/-- The diagonal blocks of a generalized real Schur form, from top to bottom. The second matrix is
upper triangular, with a non-singular diagonal block under every conjugate pair. -/
def pencilBlocks {n : Nat} (s t : Mat n n α) : Except (FormError α) (List (Block α)) := do
  checkSubdiagonal s
  checkTriangular t
  scanBlocks s (requirePencilPair s t) n 0

/-- A matrix of unknown dimensions as a square one. -/
def Table.square (name : String) (a : Table α) : Except (FormError α) ((n : Nat) × Mat n n α) :=
  if a.rows = a.cols then .ok ⟨a.rows, a.leading a.rows a.rows⟩
  else .error (.shape (.notSquare name a.rows a.cols))

/-- A matrix of unknown dimensions as a square one of the order of `S`. -/
def Table.squareOf (name : String) (n : Nat) (a : Table α) : Except (FormError α) (Mat n n α) :=
  if a.rows = a.cols then
    if a.rows = n then .ok (a.leading n n)
    else .error (.shape (.ordersDiffer n a.rows a.cols))
  else .error (.shape (.notSquare name a.rows a.cols))

/-- The blocks of a matrix of unknown dimensions. -/
def Table.diagonalBlocks (s : Table α) : Except (FormError α) (List (Block α)) := do
  let ⟨_, s⟩ ← s.square "S"
  SchurForm.diagonalBlocks s

/-- The blocks of a pencil of unknown dimensions. -/
def Table.pencilBlocks (s t : Table α) : Except (FormError α) (List (Block α)) := do
  let ⟨n, s⟩ ← s.square "S"
  let t ← t.squareOf "T" n
  SchurForm.pencilBlocks s t

end SchurForm
