import SchurForm.Proofs.BlockSpectrum
import SchurForm.Proofs.CheckedSteps

/-!
# The tests of an exchange

An exchange is accepted if what it leaves below its first block and what is lost by clearing that
part are within the threshold. The second test bounds how far the cleared patch is from the
transformed one, and turning the blocks afterwards does not change that distance. A transformed
patch that is already block triangular passes both tests with nothing lost. Put into the whole
matrix, a patch adds its own distance to the distance that the matrix had before.
-/

namespace SchurForm

open Scalar Matrix
open scoped Matrix.Norms.Frobenius

variable {m n p q : Nat}

/-- A quantity within its bound does not refuse the exchange. -/
theorem refuseAbove_eq_ok {row : Nat} {residual threshold : ℝ} {u : Unit} :
    refuseAbove row residual threshold = .ok u ↔ residual ≤ threshold := by
  rw [refuseAbove]
  split
  · simpa
  · simpa using not_lt.mp ‹_›

/-- Some residual is always allowed. -/
theorem Tolerance.threshold_pos (tol : Tolerance ℝ) (size : ℝ) : 0 < tol.threshold size := by
  rw [threshold, maxNum_real]
  exact lt_max_of_lt_right safeMin_pos

namespace Mat

/-- Clearing the part below the first block makes a cut. -/
theorem isCut_clear (a : Mat (p + q) (p + q) ℝ) : (a.clear q p 0 q).IsCut q := by
  intro r c hr hc
  rw [clear, get_ofFn]
  split
  · rw [if_pos (by omega)]
  · rfl

/-- A patch that is zero below its first block is not changed by clearing. -/
theorem IsCut.clear_eq {a : Mat (p + q) (p + q) ℝ} (h : a.IsCut q) : a.clear q p 0 q = a := by
  apply ext_get
  intro r hr c hc
  rw [clear, get_ofFn, if_pos ⟨hr, hc⟩]
  split
  · rw [h r c (by omega) (by omega)]
  · rfl

/-- Nothing is left below the first block of a patch with a cut behind it. -/
theorem IsCut.supNorm_lowerLeft {a : Mat m m ℝ} (h : a.IsCut q) :
    (lowerLeft a p q).supNorm = 0 := by
  refine le_antisymm ((supNorm_le_iff le_rfl).mpr fun i j => ?_) (maxTo_nonneg p _)
  rw [lowerLeft, block, get_ofFn]
  split
  · rw [Nat.zero_add, h _ _ (Nat.le_add_right q i) (by omega), abs_zero]
  · rw [abs_zero]

/-- Identity factors leave a matrix as it is. -/
theorem transformed_identity (a : Mat m m ℝ) : transformed identity a identity = a := by
  apply toMatrix_injective
  simp

/-- Transforming twice is transforming by the products. -/
theorem transformed_transformed (u a v w w' : Mat m m ℝ) :
    transformed w (transformed u a v) w' = transformed (u.mul w) a (v.mul w') := by
  apply toMatrix_injective
  simp only [toMatrix_transformed, toMatrix_mul, Matrix.transpose_mul, Matrix.mul_assoc]

/-- Going back by orthogonal factors undoes the transformation. -/
theorem rebuilt_transformed {u v : Mat m m ℝ} (hu : u.IsOrthogonal) (hv : v.IsOrthogonal)
    (a : Mat m m ℝ) : rebuilt u (transformed u a v) v = a := by
  apply toMatrix_injective
  rw [toMatrix_rebuilt, toMatrix_transformed]
  calc u.toMatrix * (u.toMatrixᵀ * a.toMatrix * v.toMatrix) * v.toMatrixᵀ
      = (u.toMatrix * u.toMatrixᵀ) * a.toMatrix * (v.toMatrix * v.toMatrixᵀ) := by
        simp only [Matrix.mul_assoc]
    _ = a.toMatrix := by
      rw [hu.mul_transpose, hv.mul_transpose, Matrix.one_mul, Matrix.mul_one]

/-- Going back by two products is going back twice. -/
theorem rebuilt_rebuilt (u v w w' a : Mat m m ℝ) :
    rebuilt u (rebuilt w a w') v = rebuilt (u.mul w) a (v.mul w') := by
  apply toMatrix_injective
  simp only [toMatrix_rebuilt, toMatrix_mul, Matrix.transpose_mul, Matrix.mul_assoc]

/-- What is lost by going back is what the patch departs from the transformed one. -/
theorem frobenius_sub_transformed {u v : Mat m m ℝ} (hu : u.IsOrthogonal) (hv : v.IsOrthogonal)
    (a d : Mat m m ℝ) :
    (a.sub (transformed u d v)).frobenius = (d.sub (rebuilt u a v)).frobenius := by
  have hback : (d.sub (rebuilt u a v)).toMatrix =
      -(u.toMatrix * ((a.sub (transformed u d v)).toMatrix * v.toMatrixᵀ)) := by
    simp only [toMatrix_sub, toMatrix_rebuilt, toMatrix_transformed, Matrix.sub_mul, Matrix.mul_sub]
    have hd : u.toMatrix * (u.toMatrixᵀ * d.toMatrix * v.toMatrix * v.toMatrixᵀ) = d.toMatrix := by
      rw [Matrix.mul_assoc _ v.toMatrix, hv.mul_transpose, Matrix.mul_one, ← Matrix.mul_assoc,
        hu.mul_transpose, Matrix.one_mul]
    rw [hd, ← Matrix.mul_assoc]
    abel
  have hvt : v.toMatrixᵀᵀ * v.toMatrixᵀ = 1 := by
    rw [Matrix.transpose_transpose]
    exact hv.mul_transpose
  rw [frobenius_eq_norm, frobenius_eq_norm, hback, norm_neg,
    norm_orthogonal_mul (isOrthogonal_iff.mp hu), norm_mul_orthogonal hvt]

/-- Transforming both sides of a comparison by orthogonal factors keeps the distance. -/
theorem frobenius_transformed_sub {w w' : Mat m m ℝ} (hw : w.IsOrthogonal) (hw' : w'.IsOrthogonal)
    (a b : Mat m m ℝ) :
    ((transformed w a w').sub (transformed w b w')).frobenius = (a.sub b).frobenius := by
  have hfactor : ((transformed w a w').sub (transformed w b w')).toMatrix =
      w.toMatrixᵀ * (a.sub b).toMatrix * w'.toMatrix := by
    simp only [toMatrix_sub, toMatrix_transformed, Matrix.mul_sub, Matrix.sub_mul]
  have hwt : w.toMatrixᵀᵀ * w.toMatrixᵀ = 1 := by
    rw [Matrix.transpose_transpose]
    exact hw.mul_transpose
  rw [frobenius_eq_norm, frobenius_eq_norm, hfactor, norm_mul_orthogonal (isOrthogonal_iff.mp hw'),
    norm_orthogonal_mul hwt]

/-- Matrices at distance zero are equal. -/
theorem frobenius_sub_eq_zero_iff {a b : Mat m n ℝ} : (a.sub b).frobenius = 0 ↔ a = b := by
  rw [frobenius_eq_norm, norm_eq_zero, toMatrix_sub, sub_eq_zero, toMatrix_injective.eq_iff]

/-- Transforming a patch adds what the new patch departs from the transformed old one to what the
matrix departs from the transformed original. -/
theorem frobenius_transformPatch_le {j : Nat} (hj : j + m ≤ n) {a : Mat n n ℝ} (hfirst : a.IsCut j)
    (hlast : a.IsCut (j + m)) (wl a₀ wr : Mat n n ℝ) {left right : Mat m m ℝ}
    (hleft : left.IsOrthogonal) (hright : right.IsOrthogonal) (patch : Mat m m ℝ) :
    ((a.transformPatch j left right patch).sub
        (transformed (wl.mul (embed n j left)) a₀ (wr.mul (embed n j right)))).frobenius ≤
      (a.sub (transformed wl a₀ wr)).frobenius +
        (patch.sub (transformed left (a.block j j) right)).frobenius := by
  have hsplit : ((a.transformPatch j left right patch).sub
      (transformed (wl.mul (embed n j left)) a₀ (wr.mul (embed n j right)))).toMatrix =
        ((transformed (embed n j left) a (embed n j right)).sub
          (transformed (embed n j left) (transformed wl a₀ wr) (embed n j right))).toMatrix +
        (placeAt n j (patch.sub (transformed left (a.block j j) right))).toMatrix := by
    rw [transformed_transformed, toMatrix_sub, toMatrix_sub,
      toMatrix_transformPatch hj hfirst hlast]
    abel
  have horthLeft : (embed n j left).IsOrthogonal := hleft.embed hj
  have horthRight : (embed n j right).IsOrthogonal := hright.embed hj
  rw [frobenius_eq_norm, hsplit]
  refine (norm_add_le _ _).trans (le_of_eq ?_)
  rw [norm_placeAt hj, ← frobenius_eq_norm, frobenius_transformed_sub horthLeft horthRight]

/-- An exact patch of an exactly transformed matrix gives an exactly transformed matrix. -/
theorem transformPatch_eq {j : Nat} (hj : j + m ≤ n) {a a₀ wl wr : Mat n n ℝ}
    (hfirst : a.IsCut j) (hlast : a.IsCut (j + m)) {left right patch : Mat m m ℝ}
    (hleft : left.IsOrthogonal) (hright : right.IsOrthogonal) (ha : a = transformed wl a₀ wr)
    (hpatch : patch = transformed left (a.block j j) right) :
    a.transformPatch j left right patch =
      transformed (wl.mul (embed n j left)) a₀ (wr.mul (embed n j right)) := by
  refine frobenius_sub_eq_zero_iff.mp (le_antisymm ?_ (frobenius_nonneg _))
  refine (frobenius_transformPatch_le hj hfirst hlast wl a₀ wr hleft hright patch).trans
    (le_of_eq ?_)
  rw [frobenius_sub_eq_zero_iff.mpr ha, frobenius_sub_eq_zero_iff.mpr hpatch, add_zero]

end Mat

/-- The accepted patch is within four thresholds of the transformed one. -/
theorem frobenius_cleared_le {u v : Mat (p + q) (p + q) ℝ} (hu : u.IsOrthogonal)
    (hv : v.IsOrthogonal) (hp : p ≤ 2) (hq : q ≤ 2) {a d : Mat (p + q) (p + q) ℝ} {threshold : ℝ}
    (htest : (d.sub (rebuilt u a v)).supNorm ≤ threshold) :
    (a.sub (transformed u d v)).frobenius ≤ 4 * threshold := by
  have hsup : 0 ≤ (d.sub (rebuilt u a v)).supNorm := maxTo_nonneg _ _
  have horder : ((p + q : Nat) : ℝ) ≤ 4 := by exact_mod_cast show p + q ≤ 4 by omega
  calc (a.sub (transformed u d v)).frobenius
      = (d.sub (rebuilt u a v)).frobenius := Mat.frobenius_sub_transformed hu hv a d
    _ ≤ (p + q : Nat) * (d.sub (rebuilt u a v)).supNorm := Mat.frobenius_le_supNorm _
    _ ≤ 4 * threshold := mul_le_mul horder htest hsup (by norm_num)

/-- A block triangular transformed patch passes both tests, and clearing does not change it. -/
theorem tests_of_isCut {u v : Mat (p + q) (p + q) ℝ} (hu : u.IsOrthogonal) (hv : v.IsOrthogonal)
    {d : Mat (p + q) (p + q) ℝ} (hcut : (transformed u d v).IsCut q) {threshold : ℝ}
    (hthreshold : 0 < threshold) :
    (transformed u d v).clear q p 0 q = transformed u d v ∧
      (lowerLeft (transformed u d v) p q).supNorm ≤ threshold ∧
      (d.sub (rebuilt u (transformed u d v) v)).supNorm ≤ threshold := by
  refine ⟨hcut.clear_eq, by rw [hcut.supNorm_lowerLeft]; exact hthreshold.le, ?_⟩
  rw [Mat.rebuilt_transformed hu hv, Mat.supNorm_le_iff hthreshold.le]
  intro i j
  rw [Mat.get_sub, sub_self, abs_zero]
  exact hthreshold.le

end SchurForm
