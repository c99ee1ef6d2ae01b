import SchurForm.Mat

/-!
# Applying a patch transformation to whole matrices

A change of basis of a patch changes more than the patch: the rows of the patch continue to the
right of it, and its columns continue above it. Accumulated orthogonal factors have their columns
changed.
-/

namespace SchurForm

namespace Mat

variable {α : Type} [Scalar α] {m n : Nat}

open Scalar

/-- Replace the patch that starts in row `j` by `patch`, multiply the rows to the right of it by the
transposed `left` factor and the columns above it by the `right` factor. -/
def transformPatch (a : Mat n n α) (j : Nat) (left right patch : Mat m m α) : Mat n n α :=
  ofFn fun r c =>
    if j ≤ r ∧ r < j + m then
      if j ≤ c ∧ c < j + m then patch.get (r - j) (c - j)
      else if j + m ≤ c then sumTo m fun k => left.get k (r - j) * a.get (j + k) c
      else a.get r c
    else if r < j ∧ j ≤ c ∧ c < j + m then
      sumTo m fun k => a.get r (j + k) * right.get k (c - j)
    else a.get r c

/-- Multiply the columns from `j` on by a factor. -/
def transformColumns (a : Mat n n α) (j : Nat) (factor : Mat m m α) : Mat n n α :=
  ofFn fun r c =>
    if j ≤ c ∧ c < j + m then sumTo m fun k => a.get r (j + k) * factor.get k (c - j)
    else a.get r c

end Mat

end SchurForm
