import SchurForm.FormError
import SchurForm.Mat

/-!
# Exchanging adjacent blocks

Two adjacent diagonal blocks form a patch of the matrix. An exchange is an orthogonal change of
basis of the patch after which the lower block comes first. This module holds what the exchanges of
standard forms and of pencils share: the admissible block orders, the tolerance for the residual,
and the basis of the subspace that is moved to the front.
-/

namespace SchurForm

/-- The orders of the two blocks of a patch. -/
inductive ExchangeCase where
  | oneOne
  | oneTwo
  | twoOne
  | twoTwo
  deriving DecidableEq, Repr

namespace ExchangeCase

/-- The case of the given orders of the upper and the lower block. -/
def ofSizes? : Nat → Nat → Option ExchangeCase
  | 1, 1 => some .oneOne
  | 1, 2 => some .oneTwo
  | 2, 1 => some .twoOne
  | 2, 2 => some .twoTwo
  | _, _ => none

/-- The orders of the upper and the lower block. -/
def sizes : ExchangeCase → Nat × Nat
  | .oneOne => (1, 1)
  | .oneTwo => (1, 2)
  | .twoOne => (2, 1)
  | .twoTwo => (2, 2)

/-- The name of a case, as reports give it. -/
def name : ExchangeCase → String
  | .oneOne => "OneOne"
  | .oneTwo => "OneTwo"
  | .twoOne => "TwoOne"
  | .twoTwo => "TwoTwo"

end ExchangeCase

/-- How much an exchange may leave behind, and how often the solution of a Sylvester equation is
refined. -/
structure Tolerance (α : Type) where
  /-- Multiple of the working precision, relative to the patch. -/
  factor : α
  refinements : Nat

namespace Tolerance

variable {α : Type} [Scalar α]

open Scalar

/-- The tolerance that is used when none is asked for. -/
def standard : Tolerance α := ⟨((20 : Nat) : α), 2⟩

/-- A tolerance with a finite factor of at least one and at most 16 refinements. -/
def make? (factor : α) (refinements : Nat) : Except (FormError α) (Tolerance α) :=
  if isFinite factor && decide (1 ≤ factor) then
    if 16 < refinements then
      .error (.invalidArgument 2 "max_refinement_steps" (.refinementSteps refinements))
    else .ok ⟨factor, refinements⟩
  else .error (.invalidArgument 1 "threshold_factor" (.thresholdFactor factor))

/-- The largest residual that an exchange of a patch of the given size may leave behind. -/
def threshold (tol : Tolerance α) (size : α) : α :=
  maxNum (tol.factor * epsilon * size) safeMin

end Tolerance

variable {α : Type} [Scalar α]

open Scalar

/-- The orders of the two blocks of a patch of order `m` whose upper block has order `p`. -/
def exchangeOrders (m p row : Nat) : Except (FormError α) (Nat × Nat) :=
  if m < p then .error (.shape (.patchTooSmall m p))
  else
    match ExchangeCase.ofSizes? p (m - p) with
    | some c => .ok c.sizes
    | none => .error (.shape (.notExchangeable p (m - p) row))

omit [Scalar α] in
/-- The orders of two blocks that can be exchanged are admitted. -/
theorem exchangeOrders_eq_ok {p q : Nat} (hp : p = 1 ∨ p = 2) (hq : q = 1 ∨ q = 2) (row : Nat) :
    (exchangeOrders (p + q) p row : Except (FormError α) (Nat × Nat)) = .ok (p, q) := by
  rcases hp with rfl | rfl <;> rcases hq with rfl | rfl <;> rfl

/-- The columns `[-x; scale * I]`, which span the subspace that belongs to the lower block. -/
def subspaceBasis {p q : Nat} (x : Mat p q α) (scale : α) : Mat (p + q) q α :=
  Mat.ofFn fun i j => if i < p then -x.get i j else if i - p = j then scale else 0

/-- The block of a patch below the first `q` rows and in the first `q` columns, which an exact
exchange makes zero. -/
def lowerLeft {m : Nat} (patch : Mat m m α) (p q : Nat) : Mat p q α :=
  patch.block q 0

/-- The first of two quantities that exceeds its bound refuses the exchange. -/
def refuseAbove (row : Nat) (residual threshold : α) : Except (FormError α) Unit :=
  if threshold < residual then .error (.swapRejected row residual threshold) else .ok ()

/-- The change of basis back: `u * patch * vᵀ`. -/
def rebuilt {m : Nat} (u patch v : Mat m m α) : Mat m m α :=
  (u.mul patch).mul v.transpose

/-- The change of basis `uᵀ * a * v`. -/
def transformed {m : Nat} (u a v : Mat m m α) : Mat m m α :=
  (u.transpose.mul a).mul v

end SchurForm
