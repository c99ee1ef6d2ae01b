import SchurForm.Proofs.ShiftedNorms

/-!
# The scale of a shifted equation

The scale is positive. It is at most one for equations of order one, and for equations of order two
whose coefficients do not exceed the largest number, the reciprocal of the least floor. A larger
coefficient can raise the scale above one: when the solution is larger than one, the further scaling
multiplies it by the quotient of that coefficient and the largest number.
-/

namespace SchurForm

open Scalar

namespace ShiftedEquation

variable {p : Nat} {b : Mat 2 2 ℝ} {solution : ShiftedSolution ℝ} {bound : ℝ}

/-- The scale of an equation of order two exceeds one at most as far as its largest coefficient
exceeds the largest number. -/
theorem SolvedTwo.scale_le {eqn : ShiftedEquation 2 ℝ} (h : SolvedTwo eqn b solution)
    (hbound : ∀ i j, magnitude (eqn.system i j) ≤ bound) :
    solution.scale ≤ max 1 (bound / largest) := by
  cases h with
  | floored b' small rows real => exact (pivotScale_le_one _ _).trans (le_max_left _ _)
  | eliminated pivot y unscaled columns chosen large elimination norm scaled =>
    obtain ⟨factor, hpos, hle, hfurther⟩ := elimination.exists_multiplied scaled
    have hsize : pivot.size ≤ bound := by
      have hentry := hbound ⟨_, exchanged_lt pivot.lower two_pos⟩
        ⟨_, exchanged_lt pivot.right two_pos⟩
      rw [system_apply] at hentry
      exact (magnitude_coefficient_pivot chosen large).ge.trans hentry
    calc (scaledFurther columns pivot.size unscaled).scale = factor * unscaled.scale :=
          hfurther.scale
      _ ≤ factor := mul_le_of_le_one_right hpos.le elimination.scale_le_one
      _ ≤ max 1 (pivot.size / largest) := hle
      _ ≤ max 1 (bound / largest) :=
          max_le_max le_rfl (div_le_div_of_nonneg_right hsize largest_pos.le)

/-- The scale of a shifted equation is positive. It is at most one for order one and for
coefficients up to the largest number, and in general it exceeds one at most as far as a coefficient
exceeds that number. -/
theorem solve_scale_bounds (hp : p = 1 ∨ p = 2) (eqn : ShiftedEquation p ℝ) (b : Mat 2 2 ℝ) :
    0 < (eqn.solve b).scale ∧
      ((p = 1 ∨ ∀ i j, magnitude (eqn.system i j) ≤ largest) → (eqn.solve b).scale ≤ 1) ∧
      ∀ bound, (∀ i j, magnitude (eqn.system i j) ≤ bound) →
        (eqn.solve b).scale ≤ max 1 (bound / largest) := by
  have hread : eqn.shiftIm = 0 → ∀ i, (eqn.readPart b).get i 1 = 0 := readPart_real
  rw [← solve_readPart hp]
  rcases hp with rfl | rfl
  · have hdivided := divided_solve hread
    exact ⟨hdivided.scale_pos, fun _ => hdivided.scale_le_one,
      fun _ _ => hdivided.scale_le_one.trans (le_max_left _ _)⟩
  · have hsolved := solvedTwo_solve hread
    obtain ⟨e, hnear⟩ := hsolved.exists_solvedNear
    refine ⟨hnear.scale_pos, fun hsmall => ?_, fun _ hbound => hsolved.scale_le hbound⟩
    obtain h | hsmall := hsmall
    · exact absurd h (by decide)
    · simpa [div_self largest_pos.ne'] using hsolved.scale_le hsmall

/-- A diagonal matrix with one given entry, which is not shifted. -/
noncomputable def besideOne (size : ℝ) : ShiftedEquation 2 ℝ :=
  ⟨false, 0, 1, Mat.ofRows2 size 0 0 1, 1, 1, 0, 0⟩

/-- The bound is reached by every entry beyond the largest number: the pivot does not take part in
the solution, yet the further scaling multiplies by its size. -/
theorem scale_besideOne {size : ℝ} (hsize : largest < size) :
    ((besideOne size).solve (Mat.ofRows2 0 0 2 0)).scale = size / largest := by
  have hone : 1 < size := by linarith [two_le_largest]
  have hfloor : (besideOne size).effectiveFloor ≤ 1 := effectiveFloor_le_one zero_le_one
  have hcoefficient : (besideOne size).coefficientRe = Mat.ofRows2 size 0 0 1 :=
    Mat.ext_get fun i hi j hj => by
      interval_cases i <;> interval_cases j <;> simp [coefficientRe, besideOne, Mat.ofRows2]
  have hpivot : (choosePivot fun i j => |(Mat.ofRows2 size 0 0 1 : Mat 2 2 ℝ).get i j|) =
      ⟨false, false, size⟩ := by
    have hpos : 0 < size := one_pos.trans hone
    simp [choosePivot, Mat.ofRows2, abs_of_pos hpos, hpos, hpos.not_gt, hone.le]
  have hlarge : ¬ size < (besideOne size).effectiveFloor := not_lt.mpr (hfloor.trans hone.le)
  have hfurther : largest / size < 2 :=
    ((div_lt_one (one_pos.trans hone)).mpr hsize).trans one_lt_two
  have hreal : (besideOne size).solve (Mat.ofRows2 0 0 2 0) =
      (besideOne size).solveRealTwo (Mat.ofRows2 0 0 2 0) :=
    if_pos (by simp [besideOne])
  rw [hreal, solveRealTwo]
  simp only [abs_real, hpivot, if_neg hlarge, hcoefficient]
  simp [scaledFurther, eliminationScale, hone, hfurther, Pivot.permute, Pivot.permuteRows,
    exchanged, Mat.ofRows2, not_lt.mpr hfloor]

/-- The largest power of two in the range is four times the largest number that a solution is scaled
for. -/
theorem two_pow_eq_largest : (2 : ℝ) ^ 1023 = 4 * largest := by
  have hmin : (minPositive : ℝ) = ((2 : ℝ) ^ 1022)⁻¹ := rfl
  rw [largest, leastFloor, two_real, hmin, pow_succ]
  field_simp
  norm_num

/-- A normal number can scale a solution up. -/
theorem not_scale_besideOne_le_one :
    ¬ ((besideOne (2 ^ 1023)).solve (Mat.ofRows2 0 0 2 0)).scale ≤ 1 := by
  have hsize : (largest : ℝ) < 2 ^ 1023 := by
    rw [two_pow_eq_largest]
    linarith [two_le_largest]
  rw [scale_besideOne hsize, div_le_one largest_pos]
  exact not_le.mpr hsize

/-- With an entry of four times the largest number the scale is four at most. -/
theorem solve_scale_bounds_besideOne :
    0 < ((besideOne (2 ^ 1023)).solve (Mat.ofRows2 0 0 2 0)).scale ∧
      ((besideOne (2 ^ 1023)).solve (Mat.ofRows2 0 0 2 0)).scale ≤ 4 := by
  have hbound (i j : Fin 2) : magnitude ((besideOne (2 ^ 1023)).system i j) ≤ 2 ^ 1023 := by
    rw [system_apply, coefficient_eq_ofReal rfl, magnitude_ofReal]
    fin_cases i <;> fin_cases j <;> simp [coefficientRe, besideOne, Mat.ofRows2, one_le_pow₀]
  obtain ⟨hpos, -, hle⟩ :=
    solve_scale_bounds (Or.inr rfl) (besideOne (2 ^ 1023)) (Mat.ofRows2 0 0 2 0)
  have hquotient : (2 : ℝ) ^ 1023 / largest = 4 := by
    rw [two_pow_eq_largest, mul_div_cancel_right₀ _ largest_pos.ne']
  have hfour := hle _ hbound
  rw [hquotient, max_eq_right (by norm_num)] at hfour
  exact ⟨hpos, hfour⟩

end ShiftedEquation

end SchurForm
