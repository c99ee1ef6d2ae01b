import SchurForm.Decimal.Style

/-!
# Errors and statuses

What can be wrong with the arguments of an operation, with the structure of a matrix, or with an
exchange of two blocks. An error is its cause; `FormError.message` is the only place that words it.
A status is the short account that callers with flat storage get, with an integer code.
-/

namespace SchurForm

/-- Why an argument is refused before any matrix is looked at. The last reason is for callers that
report errors of their own. -/
inductive ArgumentFault (α : Type) where
  | leadingDimension (ld rows : Nat)
  | storageTooShort (rows cols ld needed length : Nat)
  | arrayTooShort (expected length : Nat)
  | wrongDimensions (order rows cols : Nat)
  | selectionLength (expected length : Nat)
  | halfSelected (row : Nat)
  | thresholdFactor (factor : α)
  | refinementSteps (steps : Nat)
  /-- A reason in the words of the caller; no operation of this library gives one. -/
  | other (reason : String)

/-- How a matrix departs from the form it claims to have. The last reason is for callers that report
errors of their own. -/
inductive Defect where
  | belowSubdiagonal (matrix : String) (row col : Nat)
  | belowDiagonal (matrix : String) (row col : Nat)
  | consecutiveSubdiagonals
  | realEigenvalues
  | pencilBlockNotDiagonal
  | pencilBlockWithoutPair
  /-- A reason in the words of the caller; no operation of this library gives one. -/
  | other (reason : String)

/-- Why a matrix does not fit, or a view of storage cannot exist. The last reason is for callers
that report errors of their own. -/
inductive ShapeFault where
  | notSquare (matrix : String) (rows cols : Nat)
  | ordersDiffer (order rows cols : Nat)
  | patchTooSmall (order upper : Nat)
  | notExchangeable (upper lower row : Nat)
  | outOfBounds
  | overlapping
  | tooLarge
  /-- A reason in the words of the caller; no operation of this library gives one. -/
  | other (reason : String)

/-- Everything that can go wrong in selecting, reordering and solving for eigenvectors. -/
inductive FormError (α : Type) where
  /-- The argument with the given one-based ordinal is structurally inconsistent. -/
  | invalidArgument (position : Nat) (name : String) (fault : ArgumentFault α)
  /-- The matrix is not a Schur form; `row` is the first row of the offending block. -/
  | inconsistentInput (row : Nat) (defect : Defect)
  /-- An exchange would have left more than the tolerated residual behind. -/
  | swapRejected (row : Nat) (residual threshold : α)
  /-- An exchange would have turned a conjugate pair into two real eigenvalues. -/
  | pairSplit (row : Nat)
  | shape (fault : ShapeFault)

/-- The account of an operation on flat storage. -/
inductive Status where
  | success
  | invalidArgument (position : Nat)
  /-- Kept for the stage that computes Schur forms; no operation of this library reports it. -/
  | didNotConverge
  /-- Some selected eigenvalues could not be moved to the front. -/
  | partialReordering
  /-- Some eigenvectors could not be computed and were left at zero. -/
  | partialEigenvectors
  deriving DecidableEq, Repr

/-- Zero for success, minus the ordinal of an invalid argument, and a positive number for a partial
result. The code is a 32-bit number, so an ordinal counts modulo `2 ^ 32`. -/
def Status.code : Status → Int
  | .success => 0
  | .invalidArgument position => Int.bmod (-(Int.ofNat position)) (twoPow 32)
  | .didNotConverge => 1
  | .partialReordering => 2
  | .partialEigenvectors => 3

/-- Whether everything that was asked for has been done. -/
def Status.isSuccess (s : Status) : Bool :=
  s == .success

/-- The name of a status, with the ordinal of an invalid argument. -/
def Status.text : Status → String
  | .success => "Success"
  | .invalidArgument position => "InvalidArgument(" ++ toString position ++ ")"
  | .didNotConverge => "DidNotConverge"
  | .partialReordering => "PartialReordering"
  | .partialEigenvectors => "PartialEigenvectors"

/-- The status of an error. Faults found inside a matrix are charged to `matrixPosition`, the
ordinal of the matrix that held them. -/
def FormError.status {α : Type} (matrixPosition : Nat) : FormError α → Status
  | .invalidArgument position _ _ => .invalidArgument position
  | .swapRejected _ _ _ => .partialReordering
  | .pairSplit _ => .partialReordering
  | .inconsistentInput _ _ => .invalidArgument matrixPosition
  | .shape _ => .invalidArgument matrixPosition

/-- No error is reported as a success. -/
@[simp] theorem FormError.isSuccess_status {α : Type} (matrixPosition : Nat) (e : FormError α) :
    (e.status matrixPosition).isSuccess = false := by
  cases e <;> rfl

/-- Dimensions as they are written in messages. -/
def dimensionsText (rows cols : Nat) : String :=
  toString rows ++ "x" ++ toString cols

/-- A matrix entry as it is written in messages. -/
def entryText (matrix : String) (row col : Nat) : String :=
  matrix ++ "[" ++ toString row ++ ", " ++ toString col ++ "]"

/-- What is wrong with an argument, in words. -/
def ArgumentFault.reason : ArgumentFault Float → String
  | .leadingDimension ld rows =>
    s!"leading dimension {ld} is smaller than max(1, {rows})"
  | .storageTooShort rows cols ld needed length =>
    dimensionsText rows cols ++
      s!" matrix with leading dimension {ld} needs {needed} entries, got {length}"
  | .arrayTooShort expected length =>
    s!"expected at least {expected} entries, got {length}"
  | .wrongDimensions order rows cols =>
    "expected " ++ dimensionsText order order ++ ", got " ++ dimensionsText rows cols
  | .selectionLength expected length =>
    s!"expected {expected} entries, got {length}"
  | .halfSelected row =>
    s!"conjugate pair at rows {row} and {row + 1} is only half selected"
  | .thresholdFactor factor =>
    "must be a finite value >= 1, got " ++ Decimal.Style.plain.write factor
  | .refinementSteps steps =>
    s!"at most 16 refinement steps are allowed, got {steps}"
  | .other reason => reason

/-- What is wrong with a form, in words. -/
def Defect.reason : Defect → String
  | .belowSubdiagonal matrix row col =>
    entryText matrix row col ++ " lies below the sub-diagonal but is non-zero"
  | .belowDiagonal matrix row col =>
    entryText matrix row col ++ " lies below the diagonal but is non-zero"
  | .consecutiveSubdiagonals => "two consecutive non-zero sub-diagonal entries"
  | .realEigenvalues => "non-zero sub-diagonal entry on a block with real eigenvalues"
  | .pencilBlockNotDiagonal => "T block under a conjugate pair is not diagonal"
  | .pencilBlockWithoutPair =>
    "non-zero sub-diagonal entry on a pencil block without a conjugate pair"
  | .other reason => reason

/-- What is wrong with a shape, in words. -/
def ShapeFault.reason : ShapeFault → String
  | .notSquare matrix rows cols =>
    matrix ++ " must be square, got " ++ dimensionsText rows cols
  | .ordersDiffer order rows cols =>
    "S is " ++ dimensionsText order order ++ " but T is " ++ dimensionsText rows cols
  | .patchTooSmall order upper =>
    s!"patch of order {order} cannot hold an upper block of order {upper}"
  | .notExchangeable upper lower row =>
    s!"blocks of order {upper} and {lower} at row {row} cannot be exchanged"
  | .outOfBounds => "ShapeError/OutOfBounds: out of bounds indexing"
  | .overlapping => "ShapeError/Unsupported: unsupported operation"
  | .tooLarge => "ShapeError/Overflow: arithmetic overflow"
  | .other reason => reason

/-- The wording of an error. -/
def FormError.message : FormError Float → String
  | .invalidArgument position name fault =>
    "Invalid argument #" ++ toString position ++ " '" ++ name ++ "': " ++ fault.reason
  | .inconsistentInput row defect =>
    "Inconsistent Schur form at row " ++ toString row ++ ": " ++ defect.reason
  | .swapRejected row residual threshold =>
    "Swap at row " ++ toString row ++ " rejected: residual " ++
      Decimal.Style.scientific.write residual ++ " exceeds threshold " ++
      Decimal.Style.scientific.write threshold
  | .pairSplit row =>
    "Swap at row " ++ toString row ++
      " rejected: a conjugate pair would split into real eigenvalues"
  | .shape fault => "Shape error: " ++ fault.reason

end SchurForm
