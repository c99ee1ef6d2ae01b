import Mathlib.Analysis.Matrix.Normed
import SchurForm.Exchange
import SchurForm.Proofs.ExactArithmetic

/-!
# Tables as matrices

Over the real numbers a table of entries is a matrix, its operations are those of matrix algebra,
and its size is measured by the Frobenius norm. Entries are still read by plain numbers: outside the
table all of them are zero, so the formulas for entries of products, transposes and differences hold
at every position.
-/

namespace SchurForm

open Scalar Matrix
open scoped Matrix.Norms.Frobenius

variable {k l m n : Nat}

namespace Mat

/-- The entries as a function on the positions of the matrix. -/
def toMatrix (a : Mat m n ℝ) : Matrix (Fin m) (Fin n) ℝ :=
  Matrix.of fun i j => a.get i j

/-- Columns of length one that are orthogonal to each other. -/
def IsOrthogonal (u : Mat n n ℝ) : Prop :=
  u.transpose.mul u = identity

/-- The square root of the sum of all squared entries. -/
noncomputable def frobenius (a : Mat m n ℝ) : ℝ :=
  √(∑ i ∈ Finset.range m, ∑ j ∈ Finset.range n, a.get i j ^ 2)

/-- The entries stay in their places. -/
@[simp] theorem toMatrix_apply (a : Mat m n ℝ) (i : Fin m) (j : Fin n) :
    a.toMatrix i j = a.get i j := rfl

/-- A table is determined by its matrix. -/
theorem toMatrix_injective : Function.Injective (toMatrix : Mat m n ℝ → Matrix (Fin m) (Fin n) ℝ) :=
  fun _ _ h => ext_get fun i hi j hj => congrFun (congrFun h ⟨i, hi⟩) ⟨j, hj⟩

/-- Transposing exchanges the indices. -/
@[simp] theorem get_transpose (a : Mat m n ℝ) (i j : Nat) : a.transpose.get i j = a.get j i := by
  simp only [transpose, get_ofFn]
  split
  · rfl
  · rename_i h
    rcases not_and_or.mp h with h | h
    · exact (a.get_of_cols_le j (Nat.le_of_not_lt h)).symm
    · exact (a.get_of_rows_le (Nat.le_of_not_lt h) i).symm

/-- An entry of a product is a sum of products. -/
theorem get_mul (a : Mat m k ℝ) (b : Mat k n ℝ) (i j : Nat) :
    (a.mul b).get i j = ∑ r ∈ Finset.range k, a.get i r * b.get r j := by
  simp only [mul, get_ofFn, sumTo_real]
  split
  · rfl
  · rename_i h
    symm
    apply Finset.sum_eq_zero
    intro r _
    rcases not_and_or.mp h with h | h
    · rw [a.get_of_rows_le (Nat.le_of_not_lt h), zero_mul]
    · rw [b.get_of_cols_le r (Nat.le_of_not_lt h), mul_zero]

/-- An entry of a difference. -/
@[simp] theorem get_sub (a b : Mat m n ℝ) (i j : Nat) :
    (a.sub b).get i j = a.get i j - b.get i j := by
  simp only [sub, get_ofFn]
  split
  · rfl
  · rename_i h
    rcases not_and_or.mp h with h | h
    · simp [get_of_rows_le _ (Nat.le_of_not_lt h)]
    · simp [get_of_cols_le _ _ (Nat.le_of_not_lt h)]

/-- An entry of the identity. -/
theorem get_identity {i j : Nat} (hi : i < n) :
    (identity : Mat n n ℝ).get i j = if i = j then 1 else 0 := by
  rw [identity, get_ofFn]
  split
  · rfl
  · rw [if_neg (by omega)]

/-- Transposes agree. -/
@[simp] theorem toMatrix_transpose (a : Mat m n ℝ) : a.transpose.toMatrix = a.toMatrixᵀ := by
  ext i j
  simp

/-- Products agree. -/
@[simp] theorem toMatrix_mul (a : Mat m k ℝ) (b : Mat k n ℝ) :
    (a.mul b).toMatrix = a.toMatrix * b.toMatrix := by
  ext i j
  simp [get_mul, Matrix.mul_apply, Finset.sum_range]

/-- The product of three matrices does not depend on the order of multiplication. -/
theorem mul_mul {l : Nat} (a : Mat m k ℝ) (b : Mat k n ℝ) (c : Mat n l ℝ) :
    (a.mul b).mul c = a.mul (b.mul c) := by
  apply toMatrix_injective
  simp only [toMatrix_mul, Matrix.mul_assoc]

/-- The identity is neutral on the right. -/
theorem mul_identity (a : Mat m n ℝ) : a.mul identity = a := by
  apply ext_get
  intro i hi j hj
  rw [get_mul, Finset.sum_eq_single j (fun r hr hne => ?_) fun hout => ?_]
  · rw [get_identity hj, if_pos rfl, mul_one]
  · rw [get_identity (Finset.mem_range.mp hr), if_neg hne, mul_zero]
  · exact absurd (Finset.mem_range.mpr hj) hout

/-- Differences agree. -/
@[simp] theorem toMatrix_sub (a b : Mat m n ℝ) : (a.sub b).toMatrix = a.toMatrix - b.toMatrix := by
  ext i j
  simp

/-- Identities agree. -/
@[simp] theorem toMatrix_identity : (identity : Mat n n ℝ).toMatrix = 1 := by
  ext i j
  simp [get_identity i.isLt, Matrix.one_apply, Fin.ext_iff]

/-- The transformed matrix as a product. -/
@[simp] theorem toMatrix_transformed (u a v : Mat m m ℝ) :
    (transformed u a v).toMatrix = u.toMatrixᵀ * a.toMatrix * v.toMatrix := by
  simp [transformed]

/-- The rebuilt matrix as a product. -/
@[simp] theorem toMatrix_rebuilt (u a v : Mat m m ℝ) :
    (rebuilt u a v).toMatrix = u.toMatrix * a.toMatrix * v.toMatrixᵀ := by
  simp [rebuilt]

/-- Orthogonality, said of the matrix. -/
theorem isOrthogonal_iff {u : Mat n n ℝ} : u.IsOrthogonal ↔ u.toMatrixᵀ * u.toMatrix = 1 := by
  rw [IsOrthogonal, ← toMatrix_injective.eq_iff]
  simp

/-- The inverse of an orthogonal matrix is its transpose on either side. -/
theorem IsOrthogonal.mul_transpose {u : Mat n n ℝ} (h : u.IsOrthogonal) :
    u.toMatrix * u.toMatrixᵀ = 1 :=
  mul_eq_one_comm.mp (isOrthogonal_iff.mp h)

/-- The identity is orthogonal. -/
theorem isOrthogonal_identity : (identity : Mat n n ℝ).IsOrthogonal := by
  simp [isOrthogonal_iff]

/-- Products of orthogonal matrices are orthogonal. -/
theorem IsOrthogonal.mul {u v : Mat n n ℝ} (hu : u.IsOrthogonal) (hv : v.IsOrthogonal) :
    (u.mul v).IsOrthogonal := by
  rw [isOrthogonal_iff] at hu hv ⊢
  calc (u.mul v).toMatrixᵀ * (u.mul v).toMatrix
      = v.toMatrixᵀ * (u.toMatrixᵀ * u.toMatrix) * v.toMatrix := by
        simp only [toMatrix_mul, Matrix.transpose_mul, Matrix.mul_assoc]
    _ = 1 := by rw [hu, Matrix.mul_one, hv]

/-- The size of a table is the Frobenius norm of its matrix. -/
theorem frobenius_eq_norm (a : Mat m n ℝ) : a.frobenius = ‖a.toMatrix‖ := by
  rw [frobenius, Matrix.frobenius_norm_def, Real.sqrt_eq_rpow]
  simp [Finset.sum_range]

/-- The Frobenius norm is not negative. -/
theorem frobenius_nonneg (a : Mat m n ℝ) : 0 ≤ a.frobenius :=
  Real.sqrt_nonneg _

/-- No entry is larger than the matrix. -/
theorem abs_get_le_frobenius (a : Mat m n ℝ) (i j : Nat) :
    |a.get i j| ≤ a.frobenius := by
  by_cases hi : i < m
  · by_cases hj : j < n
    · refine Real.le_sqrt_of_sq_le ?_
      rw [sq_abs]
      calc a.get i j ^ 2
          ≤ ∑ j ∈ Finset.range n, a.get i j ^ 2 :=
            Finset.single_le_sum (f := fun j => a.get i j ^ 2) (fun _ _ => sq_nonneg _)
              (Finset.mem_range.mpr hj)
        _ ≤ ∑ i ∈ Finset.range m, ∑ j ∈ Finset.range n, a.get i j ^ 2 :=
            Finset.single_le_sum (f := fun i => ∑ j ∈ Finset.range n, a.get i j ^ 2)
              (fun _ _ => Finset.sum_nonneg fun _ _ => sq_nonneg _) (Finset.mem_range.mpr hi)
    · rw [a.get_of_cols_le i (Nat.le_of_not_lt hj), abs_zero]
      exact a.frobenius_nonneg
  · rw [a.get_of_rows_le (Nat.le_of_not_lt hi) j, abs_zero]
    exact a.frobenius_nonneg

/-- Every magnitude is at most the largest one. -/
theorem abs_get_le_supNorm (a : Mat m n ℝ) (i j : Nat) : |a.get i j| ≤ a.supNorm := by
  by_cases hi : i < m
  · by_cases hj : j < n
    · calc |a.get i j| ≤ maxTo n fun j => Scalar.abs (a.get i j) :=
            le_maxTo (fun j => Scalar.abs (a.get i j)) hj
        _ ≤ a.supNorm := le_maxTo (fun i => maxTo n fun j => Scalar.abs (a.get i j)) hi
    · rw [a.get_of_cols_le i (Nat.le_of_not_lt hj), abs_zero]
      exact maxTo_nonneg m _
  · rw [a.get_of_rows_le (Nat.le_of_not_lt hi) j, abs_zero]
    exact maxTo_nonneg m _

/-- The largest magnitude is the least bound of all magnitudes. -/
theorem supNorm_le_iff {a : Mat m n ℝ} {bound : ℝ} (hbound : 0 ≤ bound) :
    a.supNorm ≤ bound ↔ ∀ i j, |a.get i j| ≤ bound := by
  constructor
  · exact fun h i j => (a.abs_get_le_supNorm i j).trans h
  · intro h
    refine (maxTo_le_iff hbound).mpr fun i _ => (maxTo_le_iff hbound).mpr fun j _ => h i j

/-- A matrix of order `n` is at most `n` times as large as its largest entry. -/
theorem frobenius_le_supNorm (a : Mat n n ℝ) : a.frobenius ≤ n * a.supNorm := by
  have hsup : 0 ≤ a.supNorm := maxTo_nonneg n _
  refine Real.sqrt_le_iff.mpr ⟨by positivity, ?_⟩
  calc ∑ i ∈ Finset.range n, ∑ j ∈ Finset.range n, a.get i j ^ 2
      ≤ ∑ _i ∈ Finset.range n, ∑ _j ∈ Finset.range n, a.supNorm ^ 2 := by
        refine Finset.sum_le_sum fun i _ => Finset.sum_le_sum fun j _ => ?_
        exact sq_le_sq' (neg_le_of_abs_le (a.abs_get_le_supNorm i j))
          (le_of_abs_le (a.abs_get_le_supNorm i j))
    _ = (n * a.supNorm) ^ 2 := by
        simp
        ring

end Mat

/-- The squared Frobenius norm is a trace. -/
theorem frobenius_sq_eq_trace (a : Matrix (Fin m) (Fin n) ℝ) : ‖a‖ ^ 2 = (aᵀ * a).trace := by
  have hnonneg : 0 ≤ ∑ i, ∑ j, a i j ^ 2 :=
    Finset.sum_nonneg fun i _ => Finset.sum_nonneg fun j _ => sq_nonneg _
  have hnorm : ‖a‖ = √(∑ i, ∑ j, a i j ^ 2) := by
    rw [Matrix.frobenius_norm_def, Real.sqrt_eq_rpow]
    simp
  rw [hnorm, Real.sq_sqrt hnonneg, Finset.sum_comm]
  simp [Matrix.trace, Matrix.mul_apply, sq]

/-- An orthogonal matrix on the left does not change the size of a matrix. -/
theorem norm_orthogonal_mul {u : Matrix (Fin m) (Fin m) ℝ} (hu : uᵀ * u = 1)
    (a : Matrix (Fin m) (Fin n) ℝ) : ‖u * a‖ = ‖a‖ := by
  rw [← sq_eq_sq₀ (norm_nonneg _) (norm_nonneg _), frobenius_sq_eq_trace, frobenius_sq_eq_trace,
    Matrix.transpose_mul, Matrix.mul_assoc, ← Matrix.mul_assoc uᵀ, hu, Matrix.one_mul]

/-- An orthogonal matrix on the right does not change the size of a matrix. -/
theorem norm_mul_orthogonal {v : Matrix (Fin n) (Fin n) ℝ} (hv : vᵀ * v = 1)
    (a : Matrix (Fin m) (Fin n) ℝ) : ‖a * v‖ = ‖a‖ := by
  have hv' : vᵀᵀ * vᵀ = 1 := by rw [Matrix.transpose_transpose]; exact mul_eq_one_comm.mp hv
  rw [← Matrix.frobenius_norm_transpose, Matrix.transpose_mul, norm_orthogonal_mul hv',
    Matrix.frobenius_norm_transpose]

end SchurForm
