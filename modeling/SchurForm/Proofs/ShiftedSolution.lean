import Mathlib.Data.Complex.BigOperators
import Mathlib.Tactic.FieldSimp
import SchurForm.Proofs.ExactArithmetic
import SchurForm.ShiftedEquation

/-!
# Shifted equations are solved up to their floor

Read as one complex equation, a shifted equation of order one or two is solved exactly once a
complex perturbation is added to its coefficients. The perturbation is zero unless the solution is
flagged, its entries have at most twice the size of the floor, and for a real shift it is real. The
right-hand side is scaled by a positive number. The order one is settled here.
-/

namespace SchurForm

open Scalar

/-- The sum of the magnitudes of the two parts, by which the sizes of complex numbers are taken. -/
def magnitude (z : ℂ) : ℝ := |z.re| + |z.im|

/-- Zero has magnitude zero. -/
@[simp] theorem magnitude_zero : magnitude 0 = 0 := by
  simp [magnitude]

/-- The magnitude of a real number. -/
@[simp] theorem magnitude_ofReal (x : ℝ) : magnitude x = |x| := by
  simp [magnitude]

/-- Magnitudes are not negative. -/
theorem magnitude_nonneg (z : ℂ) : 0 ≤ magnitude z :=
  add_nonneg (abs_nonneg _) (abs_nonneg _)

/-- Numbers of positive magnitude are not zero. -/
theorem ne_zero_of_magnitude_pos {z : ℂ} (h : 0 < magnitude z) : z ≠ 0 := by
  rintro rfl
  simp at h

/-- The magnitude of a difference is at most the sum of the magnitudes. -/
theorem magnitude_sub_le (z w : ℂ) : magnitude (z - w) ≤ magnitude z + magnitude w := by
  have hre := abs_sub z.re w.re
  have him := abs_sub z.im w.im
  rw [magnitude, Complex.sub_re, Complex.sub_im, magnitude, magnitude]
  linarith

/-- A real factor that is not negative multiplies the magnitude. -/
theorem magnitude_ofReal_mul {factor : ℝ} (h : 0 ≤ factor) (z : ℂ) :
    magnitude (factor * z) = factor * magnitude z := by
  rw [magnitude, magnitude, Complex.re_ofReal_mul, Complex.im_ofReal_mul, abs_mul, abs_mul,
    abs_of_nonneg h, mul_add]

/-- Numbers other than zero have positive magnitude. -/
theorem magnitude_pos {z : ℂ} (h : z ≠ 0) : 0 < magnitude z := by
  refine lt_of_le_of_ne (magnitude_nonneg z) fun hzero => h ?_
  have hparts := (add_eq_zero_iff_of_nonneg (abs_nonneg z.re) (abs_nonneg z.im)).mp hzero.symm
  exact Complex.ext (abs_eq_zero.mp hparts.1) (abs_eq_zero.mp hparts.2)

/-- A pivot, lifted to the floor if it is smaller. -/
noncomputable def liftedPivot (floor : ℝ) (z : ℂ) : ℂ :=
  if magnitude z < floor then floor else z

/-- A real pivot below the floor is replaced by the floor. -/
theorem liftedPivot_ofReal (floor x : ℝ) :
    liftedPivot floor x = ((if |x| < floor then floor else x : ℝ) : ℂ) := by
  rw [liftedPivot, magnitude_ofReal]
  split <;> rfl

/-- A complex pivot below the floor is replaced by the floor, without an imaginary part. -/
theorem liftedPivot_mk (floor re im : ℝ) : liftedPivot floor ⟨re, im⟩ =
    ⟨if |re| + |im| < floor then floor else re, if |re| + |im| < floor then 0 else im⟩ := by
  rw [liftedPivot, magnitude]
  split <;> rfl

section LiftedPivot

variable {floor : ℝ} (hfloor : 0 < floor) (z : ℂ)

include hfloor

/-- A lifted pivot is not zero. -/
theorem liftedPivot_ne_zero : liftedPivot floor z ≠ 0 := by
  rw [liftedPivot]
  split
  · exact_mod_cast hfloor.ne'
  · exact ne_zero_of_magnitude_pos (hfloor.trans_le (not_lt.mp ‹_›))

/-- Lifting changes a pivot by less than twice the floor. -/
theorem magnitude_liftedPivot_sub_le : magnitude (liftedPivot floor z - z) ≤ 2 * floor := by
  rw [liftedPivot]
  split
  · have hsub := magnitude_sub_le floor z
    rw [magnitude_ofReal, abs_of_pos hfloor] at hsub
    linarith
  · rw [sub_self, magnitude_zero]
    positivity

omit hfloor in
/-- Lifting keeps real pivots real. -/
theorem im_liftedPivot_sub (hz : z.im = 0) : (liftedPivot floor z - z).im = 0 := by
  rw [liftedPivot]
  split <;> simp [hz]

end LiftedPivot

/-- The squared modulus of a number other than zero is not zero. -/
theorem sq_add_sq_ne_zero {c d : ℝ} (h : (⟨c, d⟩ : ℂ) ≠ 0) : c ^ 2 + d ^ 2 ≠ 0 := by
  intro hzero
  have hc : c = 0 := by nlinarith
  have hd : d = 0 := by nlinarith
  exact h (by rw [hc, hd]; rfl)

/-- The quotient is formed with the larger part of the divisor first. -/
theorem complexQuotient_eq {a b c d : ℝ} (h : (⟨c, d⟩ : ℂ) ≠ 0) :
    (⟨(complexQuotient a b c d).1, (complexQuotient a b c d).2⟩ : ℂ) = ⟨a, b⟩ / ⟨c, d⟩ := by
  have hsq := sq_add_sq_ne_zero h
  rw [eq_div_iff h, complexQuotient]
  split
  · have hc : c ≠ 0 := by
      rintro rfl
      have hd : d = 0 := by simpa using ‹Scalar.abs d ≤ Scalar.abs (0 : ℝ)›
      exact h (by rw [hd]; rfl)
    have hf : c + d * (d / c) ≠ 0 := by
      have : c + d * (d / c) = (c ^ 2 + d ^ 2) / c := by field_simp
      rw [this]
      exact div_ne_zero hsq hc
    apply Complex.ext <;> simp only [Complex.mul_re, Complex.mul_im] <;> field_simp <;> ring
  · have hd : d ≠ 0 := by
      rintro rfl
      exact ‹¬ Scalar.abs (0 : ℝ) ≤ Scalar.abs c› (by simp)
    have hf : d + c * (c / d) ≠ 0 := by
      have : d + c * (c / d) = (c ^ 2 + d ^ 2) / d := by field_simp; ring
      rw [this]
      exact div_ne_zero hsq hd
    apply Complex.ext <;> simp only [Complex.mul_re, Complex.mul_im] <;> field_simp <;> ring

/-- A row of a right-hand side or of a solution as a complex number. -/
noncomputable def Mat.complexRow (x : Mat 2 2 ℝ) (i : Nat) : ℂ := ⟨x.get i 0, x.get i 1⟩

/-- The first row as a complex number. -/
theorem Mat.complexRow_ofRows2_zero (a b c d : ℝ) :
    (Mat.ofRows2 a b c d).complexRow 0 = ⟨a, b⟩ := by
  simp [Mat.complexRow, Mat.ofRows2]

/-- The second row as a complex number. -/
theorem Mat.complexRow_ofRows2_one (a b c d : ℝ) :
    (Mat.ofRows2 a b c d).complexRow 1 = ⟨c, d⟩ := by
  simp [Mat.complexRow, Mat.ofRows2]

namespace ShiftedEquation

variable {p : Nat}

/-- An entry of the complex coefficient matrix. -/
noncomputable def coefficient (eqn : ShiftedEquation p ℝ) (i j : Nat) : ℂ :=
  ⟨eqn.coefficientRe.get i j, eqn.coefficientIm.get i j⟩

/-- A solution of a shifted equation with `e` added to the coefficients. The right-hand side is not
scaled up unless the order is two and a coefficient is too large. -/
structure SolvedNear (eqn : ShiftedEquation p ℝ) (b : Mat 2 2 ℝ) (e : Nat → Nat → ℂ)
    (solution : ShiftedSolution ℝ) : Prop where
  scale_pos : 0 < solution.scale
  scale_le_one : (p = 2 → ∀ i j, magnitude (eqn.coefficient i j) ≤ largest) → solution.scale ≤ 1
  solves : ∀ i < p, ∑ j ∈ Finset.range p, (eqn.coefficient i j + e i j) * solution.x.complexRow j =
    solution.scale * b.complexRow i
  bounded : ∀ i j, magnitude (e i j) ≤ 2 * eqn.effectiveFloor
  unperturbed : solution.perturbed = false → ∀ i j, e i j = 0
  real : eqn.shiftIm = 0 → (∀ i j, (e i j).im = 0) ∧ ∀ i, solution.x.get i 1 = 0

/-- The least floor is positive. -/
theorem leastFloor_pos : 0 < (leastFloor : ℝ) := by
  have := minPositive_pos
  rw [leastFloor, two_real]
  positivity

/-- The largest number that a solution is scaled for is positive. -/
theorem largest_pos : 0 < (largest : ℝ) :=
  one_div_pos.mpr leastFloor_pos

/-- The largest number that a solution is scaled for is at least two. -/
theorem two_le_largest : 2 ≤ (largest : ℝ) := by
  rw [largest, le_div_iff₀ leastFloor_pos, leastFloor, two_real]
  linarith [minPositive_le]

/-- The floor that is used is positive. -/
theorem effectiveFloor_pos (eqn : ShiftedEquation p ℝ) : 0 < eqn.effectiveFloor := by
  rw [effectiveFloor, maxNum_real]
  exact leastFloor_pos.trans_le (le_max_right _ _)

/-- The floor that is used is at most one if the given one is. -/
theorem effectiveFloor_le_one {eqn : ShiftedEquation p ℝ} (h : eqn.floor ≤ 1) :
    eqn.effectiveFloor ≤ 1 := by
  rw [effectiveFloor, maxNum_real, leastFloor, two_real]
  exact max_le h (by linarith [minPositive_le])

/-- The scale of a division is positive. -/
theorem pivotScale_pos (pivot size : ℝ) : 0 < pivotScale pivot size := by
  rw [pivotScale]
  split
  · rename_i h
    exact one_div_pos.mpr (one_pos.trans h.2.1)
  · exact one_pos

/-- Without the further scaling a solution is never scaled up. -/
theorem pivotScale_le_one (pivot size : ℝ) : pivotScale pivot size ≤ 1 := by
  rw [pivotScale]
  split
  · rename_i h
    exact (div_le_one (one_pos.trans h.2.1)).mpr h.2.1.le
  · exact le_rfl

variable {eqn : ShiftedEquation p ℝ} {b : Mat 2 2 ℝ} {e : Nat → Nat → ℂ}
  {solution : ShiftedSolution ℝ}

/-- With a real shift all coefficients are real. -/
theorem coefficient_eq_ofReal (h : eqn.shiftIm = 0) (i j : Nat) :
    eqn.coefficient i j = (eqn.coefficientRe.get i j : ℂ) := by
  apply Complex.ext
  · rfl
  · simp [coefficient, coefficientIm, h]

/-- The coefficients off the diagonal are real. -/
theorem coefficient_im_of_ne {i j : Nat} (h : i ≠ j) : (eqn.coefficient i j).im = 0 := by
  simp [coefficient, coefficientIm, h]

section OrderOne

variable {eqn : ShiftedEquation 1 ℝ}

/-- How an equation of order one is solved: its unknown is the quotient by the lifted
coefficient. -/
structure Divided (eqn : ShiftedEquation 1 ℝ) (b : Mat 2 2 ℝ) (solution : ShiftedSolution ℝ) :
    Prop where
  scale_pos : 0 < solution.scale
  scale_le_one : solution.scale ≤ 1
  first : solution.x.complexRow 0 = solution.scale * b.complexRow 0 /
    liftedPivot eqn.effectiveFloor (eqn.coefficient 0 0)
  last : solution.x.complexRow 1 = 0
  norm : solution.norm = magnitude (solution.x.complexRow 0)
  perturbed : solution.perturbed = decide (magnitude (eqn.coefficient 0 0) < eqn.effectiveFloor)
  real : eqn.shiftIm = 0 → ∀ i, solution.x.get i 1 = 0

/-- An equation of order one is solved with its coefficient lifted. -/
theorem Divided.solvedNear (h : eqn.Divided b solution) :
    eqn.SolvedNear b
      (fun _ _ => liftedPivot eqn.effectiveFloor (eqn.coefficient 0 0) - eqn.coefficient 0 0)
      solution where
  scale_pos := h.scale_pos
  scale_le_one _ := h.scale_le_one
  solves i hi := by
    obtain rfl : i = 0 := by omega
    rw [Finset.sum_range_one, add_sub_cancel, h.first,
      mul_div_cancel₀ _ (liftedPivot_ne_zero eqn.effectiveFloor_pos _)]
  bounded _ _ := magnitude_liftedPivot_sub_le eqn.effectiveFloor_pos _
  unperturbed hexact _ _ := by
    have hlarge : ¬magnitude (eqn.coefficient 0 0) < eqn.effectiveFloor := by
      simpa [hexact] using h.perturbed
    rw [liftedPivot, if_neg hlarge, sub_self]
  real hshift :=
    ⟨fun _ _ => im_liftedPivot_sub _ (by simp [coefficient_eq_ofReal hshift]), h.real hshift⟩

/-- The real equation of order one is solved by a division. -/
theorem divided_solveRealOne (hshift : eqn.shiftIm = 0) (hb : ∀ i, b.get i 1 = 0) :
    eqn.Divided b (eqn.solveRealOne b) := by
  have hc : eqn.coefficient 0 0 = (eqn.coefficientRe.get 0 0 : ℂ) :=
    coefficient_eq_ofReal hshift 0 0
  refine ⟨pivotScale_pos _ _, pivotScale_le_one _ _, ?_, ?_, ?_, ?_, fun _ i => ?_⟩
  · have hrow : b.complexRow 0 = (b.get 0 0 : ℂ) := Complex.ext rfl (hb 0)
    rw [hc, liftedPivot_ofReal, hrow, ← Complex.ofReal_mul, ← Complex.ofReal_div]
    apply Complex.ext <;> simp [solveRealOne, Mat.complexRow, Mat.ofRows2, mul_comm]
  · exact Mat.complexRow_ofRows2_one _ _ _ _
  · simp [solveRealOne, Mat.complexRow_ofRows2_zero, magnitude]
  · simp [solveRealOne, hc]
  · simp [solveRealOne, Mat.ofRows2]

/-- The complex equation of order one is solved by a division. -/
theorem divided_solveComplexOne (hshift : eqn.shiftIm ≠ 0) :
    eqn.Divided b (eqn.solveComplexOne b) := by
  refine ⟨pivotScale_pos _ _, pivotScale_le_one _ _, ?_, ?_, ?_, ?_, fun h => absurd h hshift⟩
  · have hne := liftedPivot_ne_zero eqn.effectiveFloor_pos (eqn.coefficient 0 0)
    rw [coefficient, liftedPivot_mk] at hne ⊢
    have hscaled : ((eqn.solveComplexOne b).scale : ℂ) * b.complexRow 0 =
        ⟨(eqn.solveComplexOne b).scale * b.get 0 0, (eqn.solveComplexOne b).scale * b.get 0 1⟩ := by
      apply Complex.ext <;> simp [Mat.complexRow]
    rw [hscaled, ← complexQuotient_eq hne]
    simp [solveComplexOne, Mat.complexRow, Mat.ofRows2]
  · exact Mat.complexRow_ofRows2_one _ _ _ _
  · simp [solveComplexOne, Mat.complexRow_ofRows2_zero, magnitude]
  · rfl

end OrderOne

end ShiftedEquation

end SchurForm
