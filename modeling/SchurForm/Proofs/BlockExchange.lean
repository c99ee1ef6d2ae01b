import Mathlib.LinearAlgebra.Matrix.Determinant.Basic
import SchurForm.Proofs.HouseholderCompletion
import SchurForm.Proofs.PatchEmbedding
import SchurForm.Proofs.SylvesterSolution

/-!
# Bases that exchange the blocks of a patch

A solution of the Sylvester equations gives, for the columns `[-x; scale * I]`, a pair of subspaces
that the patch maps into each other. If orthogonal bases begin with these subspaces, the transformed
patch is block triangular with the blocks exchanged, each of them multiplied by an invertible factor
from either side. The factors depend on the bases alone, so they are the same for both matrices of
a pencil, and in the standard form the left and the right factor agree.
-/

namespace SchurForm

open Scalar Matrix

variable {k l m n p q : Nat}

namespace Mat

/-- An entry of a block is an entry of the matrix. -/
theorem get_block (a : Mat m n ℝ) (i j : Nat) {r c : Nat} (hr : r < k) (hc : c < l) :
    (a.block i j : Mat k l ℝ).get r c = a.get (i + r) (j + c) := by
  rw [block, get_ofFn, if_pos ⟨hr, hc⟩]

/-- A block of a product, with the rows and columns between the factors split in two. -/
theorem toMatrix_block_mul {inner : Nat} (hinner : inner = p + q) (a : Mat m inner ℝ)
    (b : Mat inner n ℝ) (i j : Nat) :
    ((a.mul b).block i j : Mat k l ℝ).toMatrix =
      (a.block i 0 : Mat k p ℝ).toMatrix * (b.block 0 j : Mat p l ℝ).toMatrix +
        (a.block i p : Mat k q ℝ).toMatrix * (b.block p j : Mat q l ℝ).toMatrix := by
  ext ⟨r, hr⟩ ⟨c, hc⟩
  subst hinner
  simp only [Matrix.add_apply, Matrix.mul_apply, toMatrix_apply, get_block _ _ _ hr hc,
    get_block _ _ _ hr (Fin.is_lt _), get_block _ _ _ (Fin.is_lt _) hc, get_mul, Nat.zero_add]
  rw [Finset.sum_range_add, Finset.sum_range, Finset.sum_range]

/-- Rows of a product. -/
theorem toMatrix_block_mul_right (a : Mat m n ℝ) (b : Mat n l ℝ) (i : Nat) :
    ((a.mul b).block i 0 : Mat k l ℝ).toMatrix =
      (a.block i 0 : Mat k n ℝ).toMatrix * b.toMatrix := by
  ext ⟨r, hr⟩ ⟨c, hc⟩
  simp only [Matrix.mul_apply, toMatrix_apply, get_block _ _ _ hr hc,
    get_block _ _ _ hr (Fin.is_lt _), get_mul, Nat.zero_add]
  rw [Finset.sum_range]

/-- A matrix is determined by its upper and its lower rows. -/
theorem ext_blocks {a b : Mat (p + q) n ℝ}
    (hupper : (a.block 0 0 : Mat p n ℝ).toMatrix = (b.block 0 0 : Mat p n ℝ).toMatrix)
    (hlower : (a.block p 0 : Mat q n ℝ).toMatrix = (b.block p 0 : Mat q n ℝ).toMatrix) : a = b := by
  apply ext_get
  intro i hi j hj
  by_cases hip : i < p
  · have h := congrFun (congrFun hupper ⟨i, hip⟩) ⟨j, hj⟩
    simpa only [toMatrix_apply, get_block _ _ _ hip hj, Nat.zero_add] using h
  · have hiq : i - p < q := by omega
    have h := congrFun (congrFun hlower ⟨i - p, hiq⟩) ⟨j, hj⟩
    simpa only [toMatrix_apply, get_block _ _ _ hiq hj, Nat.zero_add,
      Nat.add_sub_cancel' (Nat.le_of_not_lt hip)] using h

/-- The block below a cut vanishes. -/
theorem IsCut.block_eq_zero {a : Mat n n ℝ} {t : Nat} (h : a.IsCut t) :
    (a.block t 0 : Mat k t ℝ).toMatrix = 0 := by
  ext ⟨r, hr⟩ ⟨c, hc⟩
  rw [toMatrix_apply, get_block _ _ _ hr hc, Nat.zero_add, h _ _ (Nat.le_add_right t r) hc,
    Matrix.zero_apply]

/-- A matrix of order `t + k` has a cut at `t` if the block below it vanishes. -/
theorem isCut_of_block_eq_zero {a : Mat n n ℝ} {t : Nat} (hn : n ≤ t + k)
    (h : (a.block t 0 : Mat k t ℝ).toMatrix = 0) : a.IsCut t := by
  intro r c hr hc
  by_cases hrn : r < n
  · have hrk : r - t < k := by omega
    have hentry := congrFun (congrFun h ⟨r - t, hrk⟩) ⟨c, hc⟩
    simpa only [toMatrix_apply, get_block _ _ _ hrk hc, Nat.zero_add, Nat.add_sub_cancel' hr,
      Matrix.zero_apply] using hentry
  · exact a.get_of_rows_le (Nat.le_of_not_lt hrn) c

end Mat

section SubspaceBasis

variable (x : Mat p q ℝ) (scale : ℝ)

/-- The upper part of the basis is the negative solution. -/
theorem toMatrix_subspaceBasis_upper :
    ((subspaceBasis x scale).block 0 0 : Mat p q ℝ).toMatrix = -x.toMatrix := by
  ext ⟨r, hr⟩ ⟨c, hc⟩
  rw [Mat.toMatrix_apply, Mat.get_block _ _ _ hr hc, subspaceBasis, Mat.get_ofFn,
    if_pos ⟨by omega, by omega⟩, if_pos (by omega), Nat.zero_add, Nat.zero_add]
  rfl

/-- The lower part of the basis is a multiple of the identity. -/
theorem toMatrix_subspaceBasis_lower :
    ((subspaceBasis x scale).block p 0 : Mat q q ℝ).toMatrix =
      scale • (1 : Matrix (Fin q) (Fin q) ℝ) := by
  ext ⟨r, hr⟩ ⟨c, hc⟩
  rw [Mat.toMatrix_apply, Mat.get_block _ _ _ hr hc, subspaceBasis, Mat.get_ofFn,
    if_pos ⟨by omega, by omega⟩, if_neg (by omega), Nat.zero_add, Nat.add_sub_cancel_left,
    Matrix.smul_apply, Matrix.one_apply]
  simp only [Fin.mk.injEq, smul_eq_mul, mul_ite, mul_one, mul_zero]

/-- The patch maps the subspace on the right into the one on the left, as the lower block does. -/
theorem mul_subspaceBasis {a : Mat (p + q) (p + q) ℝ} (hcut : a.IsCut p) {right left : Mat p q ℝ}
    {scale : ℝ} (h : SolvesSylvester (a.block 0 0) (a.block p p) (a.block 0 p) right left scale) :
    a.mul (subspaceBasis right scale) = (subspaceBasis left scale).mul (a.block p p) := by
  refine Mat.ext_blocks ?_ ?_
  · rw [SolvesSylvester, sub_eq_iff_eq_add] at h
    rw [Mat.toMatrix_block_mul rfl, Mat.toMatrix_block_mul_right, toMatrix_subspaceBasis_upper,
      toMatrix_subspaceBasis_upper, toMatrix_subspaceBasis_lower, Matrix.mul_neg, h,
      Matrix.mul_smul, Matrix.mul_one, Matrix.neg_mul, neg_add_rev, neg_add_cancel_right]
  · rw [Mat.toMatrix_block_mul rfl, Mat.toMatrix_block_mul_right, toMatrix_subspaceBasis_lower,
      toMatrix_subspaceBasis_lower, hcut.block_eq_zero, Matrix.zero_mul, zero_add, Matrix.mul_smul,
      Matrix.smul_mul, Matrix.mul_one, Matrix.one_mul]

end SubspaceBasis

/-- An orthogonal basis whose leading vectors span the columns `[-x; scale * I]`. -/
structure IsAdapted (u : Mat (p + q) (p + q) ℝ) (x : Mat p q ℝ) (scale : ℝ) : Prop where
  orthogonal : u.IsOrthogonal
  aligned : ((u.transpose.mul (subspaceBasis x scale)).block q 0 : Mat p q ℝ).toMatrix = 0

/-- The columns `[-x; scale * I]` in terms of the leading vectors of a basis. -/
noncomputable def leadFactor (u : Mat (p + q) (p + q) ℝ) (x : Mat p q ℝ) (scale : ℝ) :
    Matrix (Fin q) (Fin q) ℝ :=
  ((u.transpose.mul (subspaceBasis x scale)).block 0 0 : Mat q q ℝ).toMatrix

/-- The upper components of the trailing vectors of a basis, as rows. -/
def trailFactor (u : Mat (p + q) (p + q) ℝ) : Matrix (Fin p) (Fin p) ℝ :=
  (u.transpose.block q 0 : Mat p p ℝ).toMatrix

/-- Completing the columns gives an adapted basis. -/
theorem isAdapted_completeBasis (x : Mat p q ℝ) (scale : ℝ) :
    IsAdapted (completeBasis (subspaceBasis x scale)) x scale := by
  obtain ⟨horthogonal, htriangular⟩ := completeBasis_triangular (subspaceBasis x scale)
  refine ⟨horthogonal, ?_⟩
  ext ⟨r, hr⟩ ⟨c, hc⟩
  rw [Mat.toMatrix_apply, Mat.get_block _ _ _ hr hc, htriangular _ _ (by omega), Matrix.zero_apply]

namespace IsAdapted

variable {u v : Mat (p + q) (p + q) ℝ} {x y : Mat p q ℝ} {scale : ℝ}

/-- The lower components of the columns are independent, so the leading factor is invertible. -/
theorem det_leadFactor_ne_zero (h : IsAdapted u x scale) (hscale : scale ≠ 0) :
    (leadFactor u x scale).det ≠ 0 := by
  have hback : u.mul (u.transpose.mul (subspaceBasis x scale)) = subspaceBasis x scale := by
    apply Mat.toMatrix_injective
    rw [Mat.toMatrix_mul, Mat.toMatrix_mul, Mat.toMatrix_transpose, ← Matrix.mul_assoc,
      h.orthogonal.mul_transpose, Matrix.one_mul]
  have hlower : (u.block p 0 : Mat q q ℝ).toMatrix * leadFactor u x scale =
      scale • (1 : Matrix (Fin q) (Fin q) ℝ) := by
    rw [← toMatrix_subspaceBasis_lower x scale, ← hback,
      Mat.toMatrix_block_mul (Nat.add_comm p q), h.aligned, Matrix.mul_zero, add_zero, leadFactor]
  have hdet := congrArg Matrix.det hlower
  rw [Matrix.det_mul, Matrix.det_smul, Matrix.det_one, mul_one] at hdet
  exact right_ne_zero_of_mul (hdet ▸ pow_ne_zero _ hscale)

/-- The trailing vectors are orthogonal to the columns, so their upper components determine them. -/
theorem det_trailFactor_ne_zero (h : IsAdapted u x scale) (hscale : scale ≠ 0) :
    (trailFactor u).det ≠ 0 := by
  have horth : scale • (u.transpose.block q p : Mat p q ℝ).toMatrix =
      trailFactor u * x.toMatrix := by
    have haligned := h.aligned
    rw [Mat.toMatrix_block_mul rfl, toMatrix_subspaceBasis_upper, toMatrix_subspaceBasis_lower,
      Matrix.mul_neg, Matrix.mul_smul, Matrix.mul_one, neg_add_eq_zero] at haligned
    exact haligned.symm
  have hone : trailFactor u * (u.block 0 q : Mat p p ℝ).toMatrix +
      (u.transpose.block q p : Mat p q ℝ).toMatrix * (u.block p q : Mat q p ℝ).toMatrix = 1 := by
    rw [trailFactor, ← Mat.toMatrix_block_mul rfl, h.orthogonal]
    ext ⟨r, hr⟩ ⟨c, hc⟩
    rw [Mat.toMatrix_apply, Mat.get_block _ _ _ hr hc, Mat.get_identity (by omega),
      Matrix.one_apply]
    simp only [Fin.mk.injEq, Nat.add_right_inj]
  have hfactor : trailFactor u * (scale • (u.block 0 q : Mat p p ℝ).toMatrix +
      x.toMatrix * (u.block p q : Mat q p ℝ).toMatrix) =
        scale • (1 : Matrix (Fin p) (Fin p) ℝ) := by
    rw [← hone, Matrix.mul_add, ← Matrix.mul_assoc, ← horth, Matrix.mul_smul, smul_add,
      Matrix.smul_mul]
  have hdet := congrArg Matrix.det hfactor
  rw [Matrix.det_mul, Matrix.det_smul, Matrix.det_one, mul_one] at hdet
  exact left_ne_zero_of_mul (hdet ▸ pow_ne_zero _ hscale)

variable {a : Mat (p + q) (p + q) ℝ}

/-- The transformed patch is block triangular, and its first block is the lower block of the patch
between the leading factors. -/
theorem transformed_lead (hu : IsAdapted u x scale) (hv : IsAdapted v y scale) (hscale : scale ≠ 0)
    (hcut : a.IsCut p)
    (h : SolvesSylvester (a.block 0 0) (a.block p p) (a.block 0 p) y x scale) :
    (transformed u a v).IsCut q ∧
      ((transformed u a v).block 0 0 : Mat q q ℝ).toMatrix * leadFactor v y scale =
        leadFactor u x scale * (a.block p p : Mat q q ℝ).toMatrix := by
  have hcolumns : (transformed u a v).mul (v.transpose.mul (subspaceBasis y scale)) =
      (u.transpose.mul (subspaceBasis x scale)).mul (a.block p p) := by
    have hmap := congrArg Mat.toMatrix (mul_subspaceBasis hcut h)
    apply Mat.toMatrix_injective
    rw [Mat.toMatrix_mul, Mat.toMatrix_mul] at hmap
    simp only [Mat.toMatrix_mul, Mat.toMatrix_transformed, Mat.toMatrix_transpose]
    calc u.toMatrixᵀ * a.toMatrix * v.toMatrix * (v.toMatrixᵀ * (subspaceBasis y scale).toMatrix)
        = u.toMatrixᵀ * (a.toMatrix * ((v.toMatrix * v.toMatrixᵀ) *
            (subspaceBasis y scale).toMatrix)) := by simp only [Matrix.mul_assoc]
      _ = u.toMatrixᵀ * (subspaceBasis x scale).toMatrix * (a.block p p : Mat q q ℝ).toMatrix := by
        rw [hv.orthogonal.mul_transpose, Matrix.one_mul, hmap, Matrix.mul_assoc]
  have hblock (i count : Nat) : ((transformed u a v).block i 0 : Mat count q ℝ).toMatrix *
      leadFactor v y scale = ((u.transpose.mul (subspaceBasis x scale)).block i 0 :
        Mat count q ℝ).toMatrix * (a.block p p : Mat q q ℝ).toMatrix := by
    rw [← Mat.toMatrix_block_mul_right, ← hcolumns, Mat.toMatrix_block_mul (Nat.add_comm p q),
      hv.aligned, Matrix.mul_zero, add_zero, leadFactor]
  refine ⟨Mat.isCut_of_block_eq_zero (Nat.add_comm p q).le ?_, hblock 0 q⟩
  have hzero := hblock q p
  rw [hu.aligned, Matrix.zero_mul] at hzero
  have hunit : IsUnit (leadFactor v y scale).det :=
    isUnit_iff_ne_zero.mpr (hv.det_leadFactor_ne_zero hscale)
  rw [← Matrix.mul_nonsing_inv_cancel_right (leadFactor v y scale)
    ((transformed u a v).block q 0 : Mat p q ℝ).toMatrix hunit, hzero, Matrix.zero_mul]

/-- The last block of a block triangular transformed patch is the upper block of the patch between
the trailing factors. -/
theorem transformed_trail (hv : v.IsOrthogonal) (hcut : a.IsCut p)
    (hblock : (transformed u a v).IsCut q) :
    ((transformed u a v).block q q : Mat p p ℝ).toMatrix * trailFactor v =
      trailFactor u * (a.block 0 0 : Mat p p ℝ).toMatrix := by
  have hrows : (transformed u a v).mul v.transpose = u.transpose.mul a := by
    apply Mat.toMatrix_injective
    simp only [Mat.toMatrix_mul, Mat.toMatrix_transformed, Mat.toMatrix_transpose]
    rw [Matrix.mul_assoc, hv.mul_transpose, Matrix.mul_one]
  have hleft : ((u.transpose.mul a).block q 0 : Mat p p ℝ).toMatrix =
      trailFactor u * (a.block 0 0 : Mat p p ℝ).toMatrix := by
    rw [Mat.toMatrix_block_mul rfl, hcut.block_eq_zero, Matrix.mul_zero, add_zero, trailFactor]
  rw [← hleft, ← hrows, Mat.toMatrix_block_mul (Nat.add_comm p q), hblock.block_eq_zero,
    Matrix.zero_mul, zero_add, trailFactor]

end IsAdapted

end SchurForm
