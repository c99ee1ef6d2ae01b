import SchurForm.Proofs.MatrixAlgebra
import SchurForm.Proofs.ShiftedElimination

/-!
# Shifted equations as complex matrix equations

A shifted equation of order one or two is one complex matrix equation, and its solution solves it
once a perturbation of the size of the floor is added to the matrix. The norm that comes with the
solution is the size of its largest row. It is bounded by the size of the right-hand side over the
floor, for every quotient that elimination forms has a divisor of the size of the floor at least.

With a real shift only the first column of the right-hand side counts.
-/

namespace SchurForm

open Scalar Matrix

/-- The sum of magnitudes of a product is at most the product of the sums. -/
theorem magnitude_mul_le (z w : ℂ) : magnitude (z * w) ≤ magnitude z * magnitude w := by
  have hre : |z.re * w.re - z.im * w.im| ≤ |z.re| * |w.re| + |z.im| * |w.im| := by
    rw [← abs_mul, ← abs_mul]
    exact abs_sub _ _
  have him : |z.re * w.im + z.im * w.re| ≤ |z.re| * |w.im| + |z.im| * |w.re| := by
    rw [← abs_mul, ← abs_mul]
    exact abs_add_le _ _
  rw [magnitude, magnitude, magnitude, Complex.mul_re, Complex.mul_im]
  linarith

/-- Dividing can double the sum of magnitudes over that of the divisor. -/
theorem magnitude_inv_le (w : ℂ) : magnitude w⁻¹ ≤ 2 / magnitude w := by
  by_cases hw : w = 0
  · simp [hw]
  have hsq : 0 < Complex.normSq w := Complex.normSq_pos.mpr hw
  have hinv : magnitude w⁻¹ = magnitude w / Complex.normSq w := by
    rw [magnitude, magnitude, Complex.inv_re, Complex.inv_im, abs_div, abs_div, abs_neg,
      abs_of_pos hsq, add_div]
  rw [hinv, div_le_div_iff₀ hsq (magnitude_pos hw), Complex.normSq_apply, magnitude]
  nlinarith [sq_abs w.re, sq_abs w.im, sq_nonneg (|w.re| - |w.im|)]

/-- The magnitude of a quotient is at most twice the quotient of the bounds. -/
theorem magnitude_div_le {z w : ℂ} {size floor : ℝ} (hz : magnitude z ≤ size)
    (hw : floor ≤ magnitude w) (hfloor : 0 < floor) : magnitude (z / w) ≤ 2 * (size / floor) := by
  rw [div_eq_mul_inv]
  calc magnitude (z * w⁻¹) ≤ magnitude z * magnitude w⁻¹ := magnitude_mul_le z w⁻¹
    _ ≤ size * (2 / floor) := by
        have hinv : magnitude w⁻¹ ≤ 2 / floor :=
          (magnitude_inv_le w).trans (div_le_div_of_nonneg_left zero_le_two hfloor hw)
        exact mul_le_mul hz hinv (magnitude_nonneg _) ((magnitude_nonneg z).trans hz)
    _ = 2 * (size / floor) := by ring

/-- Lifting makes a pivot at least as large as the floor. -/
theorem le_magnitude_liftedPivot {floor : ℝ} (hfloor : 0 < floor) (z : ℂ) :
    floor ≤ magnitude (liftedPivot floor z) := by
  rw [liftedPivot]
  split
  · rw [magnitude_ofReal, abs_of_pos hfloor]
  · exact not_lt.mp ‹_›

section RowNorm

variable {p : Nat}

/-- The size of the largest row. -/
noncomputable def rowNorm (x : Fin p → ℂ) : ℝ := ⨆ i, magnitude (x i)

/-- No entry exceeds the norm. -/
theorem magnitude_le_rowNorm (x : Fin p → ℂ) (i : Fin p) : magnitude (x i) ≤ rowNorm x :=
  le_ciSup (f := fun i => magnitude (x i)) (Finite.bddAbove_range _) i

/-- The norm of a single entry. -/
theorem rowNorm_one (x : Fin 1 → ℂ) : rowNorm x = magnitude (x 0) :=
  ciSup_unique

/-- The norm of two entries. -/
theorem rowNorm_two (x : Fin 2 → ℂ) : rowNorm x = max (magnitude (x 0)) (magnitude (x 1)) := by
  apply le_antisymm
  · refine ciSup_le fun i => ?_
    fin_cases i
    · exact le_max_left _ _
    · exact le_max_right _ _
  · exact max_le (magnitude_le_rowNorm x 0) (magnitude_le_rowNorm x 1)

/-- The norm is not negative. -/
theorem rowNorm_nonneg (x : Fin p → ℂ) : 0 ≤ rowNorm x :=
  Real.iSup_nonneg fun i => magnitude_nonneg (x i)

/-- A factor that is not negative multiplies the norm. -/
theorem rowNorm_ofReal_mul {factor : ℝ} (h : 0 ≤ factor) (x : Fin p → ℂ) :
    (rowNorm fun i => factor * x i) = factor * rowNorm x := by
  simp only [rowNorm, magnitude_ofReal_mul h, Real.mul_iSup_of_nonneg h]

end RowNorm

namespace ShiftedEquation

variable {p : Nat} {b : Mat 2 2 ℝ} {solution : ShiftedSolution ℝ}

/-- The complex coefficient matrix: the matrix, transposed if so asked, times its factor, less the
shift times the diagonal matrix. -/
noncomputable def system (eqn : ShiftedEquation p ℝ) : Matrix (Fin p) (Fin p) ℂ :=
  (eqn.factor : ℂ) •
      (if eqn.transpose then eqn.a.toMatrixᵀ else eqn.a.toMatrix).map Complex.ofReal -
    (⟨eqn.shiftRe, eqn.shiftIm⟩ : ℂ) • Matrix.diagonal fun i : Fin p => (eqn.d i : ℂ)

/-- An entry of the system is a coefficient. -/
theorem system_apply (eqn : ShiftedEquation p ℝ) (i j : Fin p) :
    eqn.system i j = eqn.coefficient i j := by
  have hentry : (if eqn.transpose then eqn.a.toMatrixᵀ else eqn.a.toMatrix) i j =
      if eqn.transpose then eqn.a.get j i else eqn.a.get i j := by
    split <;> rfl
  rw [system, Matrix.sub_apply, Matrix.smul_apply, Matrix.map_apply, hentry, Matrix.smul_apply,
    Matrix.diagonal_apply]
  apply Complex.ext
  · by_cases hij : i = j
    · simp [coefficient, coefficientRe, hij]
    · simp [coefficient, coefficientRe, hij, Fin.val_inj]
  · by_cases hij : i = j
    · simp [coefficient, coefficientIm, hij]
    · simp [coefficient, coefficientIm, hij, Fin.val_inj]

/-- The right-hand side without what a real shift does not read. -/
noncomputable def readPart (eqn : ShiftedEquation p ℝ) (b : Mat 2 2 ℝ) : Mat 2 2 ℝ :=
  Mat.ofFn fun i j => if eqn.shiftIm = 0 ∧ j = 1 then 0 else b.get i j

/-- A real equation reads the real column of the right-hand side only. -/
theorem get_readPart (eqn : ShiftedEquation p ℝ) (b : Mat 2 2 ℝ) (i j : Nat) :
    (eqn.readPart b).get i j = if eqn.shiftIm = 0 ∧ j = 1 then 0 else b.get i j := by
  rw [readPart, Mat.get_ofFn, ite_eq_left_iff]
  intro houtside
  have hzero : b.get i j = 0 := by
    by_cases hi : i < 2
    · exact b.get_of_cols_le i (Nat.le_of_not_lt fun hj => houtside ⟨hi, hj⟩)
    · exact b.get_of_rows_le (Nat.le_of_not_lt hi) j
  rw [hzero, ite_self]

/-- What a real equation reads is real. -/
theorem readPart_real {eqn : ShiftedEquation p ℝ} (hshift : eqn.shiftIm = 0) (i : Nat) :
    (eqn.readPart b).get i 1 = 0 := by
  rw [get_readPart, if_pos ⟨hshift, rfl⟩]

/-- The rows of the right-hand side as complex numbers, real ones if the shift is real. -/
noncomputable def rightHandSide (eqn : ShiftedEquation p ℝ) (b : Mat 2 2 ℝ) (i : Fin p) : ℂ :=
  if eqn.shiftIm = 0 then (b.get i 0 : ℂ) else ⟨b.get i 0, b.get i 1⟩

/-- What is read is the right-hand side. -/
theorem complexRow_readPart (eqn : ShiftedEquation p ℝ) (b : Mat 2 2 ℝ) (i : Fin p) :
    (eqn.readPart b).complexRow i = eqn.rightHandSide b i := by
  rw [rightHandSide, Mat.complexRow, get_readPart, get_readPart]
  by_cases hshift : eqn.shiftIm = 0
  · simp only [hshift, and_true, zero_ne_one, and_false, if_false, if_true, Complex.ofReal_def]
  · simp only [hshift, false_and, if_false]

/-- Only what is read matters for the solution. -/
theorem solve_readPart (hp : p = 1 ∨ p = 2) (eqn : ShiftedEquation p ℝ) (b : Mat 2 2 ℝ) :
    eqn.solve (eqn.readPart b) = eqn.solve b := by
  by_cases hshift : eqn.shiftIm = 0
  · have hfirst (i : Nat) : (eqn.readPart b).get i 0 = b.get i 0 := by
      rw [get_readPart, if_neg fun h => zero_ne_one h.2]
    rcases hp with rfl | rfl
    · simp [solve, solveRealOne, hshift, hfirst]
    · simp [solve, solveRealTwo, hshift, hfirst]
  · have hall : eqn.readPart b = b :=
      Mat.ext_get fun i hi j hj => by rw [get_readPart, if_neg fun h => hshift h.1]
    rw [hall]

/-- A solution near the coefficients, read as one matrix equation. -/
theorem SolvedNear.mulVec_eq {eqn : ShiftedEquation p ℝ} {e : Nat → Nat → ℂ}
    (h : eqn.SolvedNear b e solution) :
    (eqn.system + Matrix.of fun i j : Fin p => e i j) *ᵥ
        (fun i : Fin p => solution.x.complexRow i) =
      (solution.scale : ℂ) • fun i : Fin p => b.complexRow i := by
  funext i
  have hrow := h.solves i i.isLt
  rw [Finset.sum_range] at hrow
  simpa only [mulVec, dotProduct, Matrix.add_apply, system_apply, of_apply, Pi.smul_apply,
    smul_eq_mul] using hrow

/-- A solution with the size of its largest row, which the right-hand side over the floor bounds. -/
structure NormBounded (eqn : ShiftedEquation p ℝ) (b : Mat 2 2 ℝ) (solution : ShiftedSolution ℝ) :
    Prop where
  norm : solution.norm = rowNorm fun i : Fin p => solution.x.complexRow i
  norm_le : solution.norm ≤
    16 * (solution.scale * rowNorm (fun i : Fin p => b.complexRow i) / eqn.effectiveFloor)

/-- Scaling a solution scales its norm along. -/
theorem NormBounded.of_multiplied {eqn : ShiftedEquation p ℝ} {further : ShiftedSolution ℝ}
    {factor : ℝ} (h : eqn.NormBounded b solution) (hpos : 0 < factor)
    (hfurther : Multiplied factor solution further) : eqn.NormBounded b further where
  norm := by
    rw [hfurther.norm, h.norm, ← rowNorm_ofReal_mul hpos.le]
    simp only [hfurther.row]
  norm_le := by
    rw [hfurther.norm, hfurther.scale]
    calc factor * solution.norm
        ≤ factor * (16 * (solution.scale * rowNorm (fun i : Fin p => b.complexRow i) /
            eqn.effectiveFloor)) := mul_le_mul_of_nonneg_left h.norm_le hpos.le
      _ = _ := by ring

/-- An unknown of order one is a single quotient. -/
theorem Divided.normBounded {eqn : ShiftedEquation 1 ℝ} (h : eqn.Divided b solution) :
    eqn.NormBounded b solution where
  norm := by rw [h.norm, rowNorm_one]; rfl
  norm_le := by
    have hfloor := eqn.effectiveFloor_pos
    have hsize : magnitude (solution.scale * b.complexRow 0) ≤
        solution.scale * rowNorm fun i : Fin 1 => b.complexRow i := by
      rw [magnitude_ofReal_mul h.scale_pos.le]
      exact mul_le_mul_of_nonneg_left (magnitude_le_rowNorm (fun i : Fin 1 => b.complexRow i) 0)
        h.scale_pos.le
    have hquotient := magnitude_div_le hsize
      (le_magnitude_liftedPivot hfloor (eqn.coefficient 0 0)) hfloor
    have hnonneg := div_nonneg ((magnitude_nonneg _).trans hsize) hfloor.le
    rw [h.norm, h.first]
    linarith

section OrderTwo

variable {eqn : ShiftedEquation 2 ℝ}

/-- Elimination with multipliers of at most size two triples a right-hand side at most. The unknown
that is found last is then at most seven times as large as a single quotient could be. -/
theorem magnitude_eliminate_le {lower upper m r b1 b2 x1 x2 : ℂ} {scale size floor : ℝ}
    (hfloor : 0 < floor) (hscale : 0 ≤ scale) (hlower : magnitude lower ≤ 2)
    (hupper : magnitude upper ≤ 2) (hm : floor ≤ magnitude m) (hr : floor ≤ magnitude r)
    (hb1 : magnitude b1 ≤ size) (hb2 : magnitude b2 ≤ size)
    (hx2 : x2 = scale * (b2 - lower * b1) / r) (hx1 : x1 = scale * b1 / m - x2 * upper) :
    magnitude x2 ≤ 6 * (scale * size / floor) ∧ magnitude x1 ≤ 14 * (scale * size / floor) := by
  have hsecond : magnitude (scale * (b2 - lower * b1)) ≤ scale * (size + 2 * size) := by
    rw [magnitude_ofReal_mul hscale]
    refine mul_le_mul_of_nonneg_left ((magnitude_sub_le _ _).trans ?_) hscale
    exact add_le_add hb2 ((magnitude_mul_le _ _).trans
      (mul_le_mul hlower hb1 (magnitude_nonneg _) zero_le_two))
  have hfirst : magnitude (scale * b1) ≤ scale * size := by
    rw [magnitude_ofReal_mul hscale]
    exact mul_le_mul_of_nonneg_left hb1 hscale
  have hx2 : magnitude x2 ≤ 6 * (scale * size / floor) := by
    rw [hx2]
    calc magnitude (scale * (b2 - lower * b1) / r) ≤ 2 * (scale * (size + 2 * size) / floor) :=
          magnitude_div_le hsecond hr hfloor
      _ = 6 * (scale * size / floor) := by ring
  refine ⟨hx2, ?_⟩
  have hsubtracted : magnitude (x2 * upper) ≤ 6 * (scale * size / floor) * 2 :=
    (magnitude_mul_le _ _).trans
      (mul_le_mul hx2 hupper (magnitude_nonneg _) ((magnitude_nonneg _).trans hx2))
  rw [hx1]
  calc magnitude (scale * b1 / m - x2 * upper)
      ≤ magnitude (scale * b1 / m) + magnitude (x2 * upper) := magnitude_sub_le _ _
    _ ≤ 2 * (scale * size / floor) + 6 * (scale * size / floor) * 2 :=
        add_le_add (magnitude_div_le hfirst hm hfloor) hsubtracted
    _ = 14 * (scale * size / floor) := by ring

/-- The quotient of an entry by the pivot, which is at least as large, has at most size two. -/
theorem magnitude_div_pivot_le {pivot : Pivot ℝ}
    (hchosen : pivot = choosePivot fun i j => magnitude (eqn.coefficient i j))
    (hlarge : ¬ pivot.size < eqn.effectiveFloor) (i j : Nat) :
    magnitude (eqn.coefficient i j /
      eqn.coefficient (exchanged pivot.lower 0) (exchanged pivot.right 0)) ≤ 2 := by
  have hsize : 0 < pivot.size := eqn.effectiveFloor_pos.trans_le (not_lt.mp hlarge)
  have hle := magnitude_div_le (hchosen ▸ magnitude_coefficient_le i j)
    (magnitude_coefficient_pivot hchosen hlarge).ge hsize
  rwa [div_self hsize.ne', mul_one] at hle

/-- Elimination finds a norm that the right-hand side bounds: neither the pivot nor the lifted
reduced entry is below the floor. -/
theorem Eliminated.normBounded {pivot : Pivot ℝ} {y : Mat 2 2 ℝ}
    (h : eqn.Eliminated b pivot y solution)
    (hnorm : solution.norm = max (magnitude (y.complexRow 0)) (magnitude (y.complexRow 1)))
    (hchosen : pivot = choosePivot fun i j => magnitude (eqn.coefficient i j))
    (hlarge : ¬ pivot.size < eqn.effectiveFloor) : eqn.NormBounded b solution := by
  have hfloor := eqn.effectiveFloor_pos
  have hrow {i : Nat} (hi : i < 2) : magnitude (b.complexRow (exchanged pivot.lower i)) ≤
      rowNorm fun i : Fin 2 => b.complexRow i :=
    magnitude_le_rowNorm (fun i : Fin 2 => b.complexRow i) ⟨_, exchanged_lt pivot.lower hi⟩
  have hpivot : eqn.effectiveFloor ≤ magnitude
      (eqn.coefficient (exchanged pivot.lower 0) (exchanged pivot.right 0)) :=
    (not_lt.mp hlarge).trans (magnitude_coefficient_pivot hchosen hlarge).ge
  obtain ⟨hlast, hfirst⟩ := magnitude_eliminate_le hfloor h.scale_pos.le
    (magnitude_div_pivot_le hchosen hlarge _ _) (magnitude_div_pivot_le hchosen hlarge _ _) hpivot
    (le_magnitude_liftedPivot hfloor _) (hrow two_pos) (hrow one_lt_two) h.last h.first
  refine ⟨?_, ?_⟩
  · have hrestored (i : Fin 2) : solution.x.complexRow i = y.complexRow (exchanged pivot.right i) :=
      h.x ▸ complexRow_restore y i.isLt
    simp only [hnorm, rowNorm_two, hrestored]
    cases pivot.right
    · rfl
    · exact max_comm _ _
  · have hnonneg := (magnitude_nonneg _).trans hfirst
    rw [hnorm]
    exact max_le (by linarith) (by linarith)

/-- However an equation of order two is solved, its norm is that of its largest row. -/
theorem SolvedTwo.normBounded (h : SolvedTwo eqn b solution) : eqn.NormBounded b solution := by
  cases h with
  | floored b' small rows real =>
    have hfloor := eqn.effectiveFloor_pos
    have hsize : (rowNorm fun i : Fin 2 => b.complexRow i) =
      max (magnitude (b.complexRow 0)) (magnitude (b.complexRow 1)) := rowNorm_two _
    rw [← hsize]
    set β := rowNorm fun i : Fin 2 => b.complexRow i with hβ
    have hquotient : 0 ≤ pivotScale eqn.effectiveFloor β / eqn.effectiveFloor :=
      div_nonneg (pivotScale_pos _ _).le hfloor.le
    have hnorm : (solveFloored eqn.effectiveFloor b' β).norm =
        pivotScale eqn.effectiveFloor β / eqn.effectiveFloor * β := rfl
    refine ⟨?_, ?_⟩
    · have hrows (i : Fin 2) := complexRow_solveFloored eqn.effectiveFloor b' β i.isLt
      simp only [hrows, rows, rowNorm_ofReal_mul hquotient]
      exact hnorm
    · have hnonneg := mul_nonneg hquotient (rowNorm_nonneg fun i : Fin 2 => b.complexRow i)
      rw [← hβ, ← hnorm] at hnonneg
      calc (solveFloored eqn.effectiveFloor b' β).norm
          ≤ 16 * (solveFloored eqn.effectiveFloor b' β).norm := by linarith
        _ = _ := by
          rw [hnorm, solveFloored]
          ring
  | eliminated pivot y unscaled columns chosen large elimination norm scaled =>
    obtain ⟨factor, hpos, -, hfurther⟩ := elimination.exists_multiplied scaled
    exact (elimination.normBounded norm chosen large).of_multiplied hpos hfurther

end OrderTwo

/-- The norm of a solution is exact and bounded. -/
theorem normBounded_solve (hp : p = 1 ∨ p = 2) (eqn : ShiftedEquation p ℝ)
    (hb : eqn.shiftIm = 0 → ∀ i, b.get i 1 = 0) : eqn.NormBounded b (eqn.solve b) := by
  rcases hp with rfl | rfl
  · exact (divided_solve hb).normBounded
  · exact (solvedTwo_solve hb).normBounded

/-- Every shifted equation of order one or two is solved, with a positive scale, as one matrix
equation with at most twice the floor added to each entry: nothing unless the solution is flagged,
and real numbers if the shift is real. The norm that is returned is the size of the largest row, at
most sixteen times that of the scaled right-hand side over the floor. -/
theorem solve_nearSystem (hp : p = 1 ∨ p = 2) (eqn : ShiftedEquation p ℝ) (b : Mat 2 2 ℝ) :
    let solution := eqn.solve b
    let x (i : Fin p) := solution.x.complexRow i
    0 < solution.scale ∧
      (∃ e : Matrix (Fin p) (Fin p) ℂ,
        (eqn.system + e) *ᵥ x = (solution.scale : ℂ) • eqn.rightHandSide b ∧
          (∀ i j, magnitude (e i j) ≤ 2 * eqn.effectiveFloor) ∧
          (solution.perturbed = false → e = 0) ∧
          (eqn.shiftIm = 0 → (∀ i j, (e i j).im = 0) ∧ ∀ i, (x i).im = 0)) ∧
      solution.norm = rowNorm x ∧
      solution.norm ≤ 16 * solution.scale * rowNorm (eqn.rightHandSide b) / eqn.effectiveFloor := by
  have hread : eqn.shiftIm = 0 → ∀ i, (eqn.readPart b).get i 1 = 0 := readPart_real
  have hrhs : (fun i : Fin p => (eqn.readPart b).complexRow i) = eqn.rightHandSide b :=
    funext (complexRow_readPart eqn b)
  obtain ⟨e, hsolved⟩ := exists_solvedNear hp eqn hread
  have hbounded := normBounded_solve hp eqn hread
  have hle := hbounded.norm_le
  have hequation := hsolved.mulVec_eq
  rw [hrhs] at hequation hle
  rw [solve_readPart hp] at hsolved hbounded hequation hle
  refine ⟨hsolved.scale_pos, ⟨Matrix.of fun i j => e i j, hequation,
    fun i j => hsolved.bounded i j, fun hexact => ?_, fun hshift => ?_⟩, hbounded.norm, ?_⟩
  · ext i j
    exact hsolved.unperturbed hexact i j
  · exact ⟨fun i j => (hsolved.real hshift).1 i j, fun i => (hsolved.real hshift).2 i⟩
  · rwa [mul_div_assoc, mul_assoc, ← mul_div_assoc]

/-- A quarter turn, shifted by one plus the imaginary unit. -/
def shiftedQuarterTurn : ShiftedEquation 2 ℝ :=
  ⟨false, 0, 1, Mat.ofRows2 0 1 (-1) 0, 1, 1, 1, 1⟩

/-- The system of the example. -/
theorem system_shiftedQuarterTurn :
    shiftedQuarterTurn.system = !![-1 - Complex.I, 1; -1, -1 - Complex.I] := by
  ext i j
  fin_cases i <;> fin_cases j <;> apply Complex.ext <;>
    simp [system_apply, coefficient, coefficientRe, coefficientIm, shiftedQuarterTurn, d,
      Mat.ofRows2]

/-- The example is solved without a perturbation. -/
theorem perturbed_shiftedQuarterTurn (b : Mat 2 2 ℝ) :
    (shiftedQuarterTurn.solve b).perturbed = false := by
  have hfloor : shiftedQuarterTurn.effectiveFloor ≤ 1 := effectiveFloor_le_one zero_le_one
  have hre : shiftedQuarterTurn.coefficientRe = Mat.ofRows2 (-1) 1 (-1) (-1) :=
    Mat.ext_get fun i hi j hj => by
      interval_cases i <;> interval_cases j <;>
        simp [coefficientRe, shiftedQuarterTurn, d, Mat.ofRows2]
  have him : shiftedQuarterTurn.coefficientIm = Mat.ofRows2 (-1) 0 0 (-1) :=
    Mat.ext_get fun i hi j hj => by
      interval_cases i <;> interval_cases j <;>
        simp [coefficientIm, shiftedQuarterTurn, d, Mat.ofRows2]
  have hcoefficient (i j : Nat) : shiftedQuarterTurn.coefficient i j =
      ⟨(Mat.ofRows2 (-1) 1 (-1) (-1) : Mat 2 2 ℝ).get i j,
        (Mat.ofRows2 (-1) 0 0 (-1) : Mat 2 2 ℝ).get i j⟩ := by
    rw [coefficient, hre, him]
  have hsolved : SolvedTwo shiftedQuarterTurn b (shiftedQuarterTurn.solve b) :=
    solvedTwo_solve fun h => absurd h one_ne_zero
  generalize shiftedQuarterTurn.solve b = solution at hsolved
  cases hsolved with
  | floored b' small rows real =>
    have hsmall := small 0 0
    norm_num [hcoefficient, magnitude, Mat.ofRows2] at hsmall
    linarith
  | eliminated pivot y unscaled columns chosen large elimination norm scaled =>
    obtain ⟨factor, -, -, hfurther⟩ := elimination.exists_multiplied scaled
    have hchosen : pivot = ⟨false, false, 2⟩ := by
      rw [chosen]
      norm_num [choosePivot, hcoefficient, magnitude, Mat.ofRows2]
    have hreduced : shiftedQuarterTurn.reduced pivot = ⟨-3 / 2, -1 / 2⟩ := by
      rw [hchosen]
      apply Complex.ext <;>
        norm_num [reduced, exchanged, hcoefficient, Mat.ofRows2, Complex.div_re, Complex.div_im,
          Complex.normSq_apply]
    rw [hfurther.perturbed, elimination.perturbed, hreduced, decide_eq_false_iff_not, not_lt]
    refine hfloor.trans ?_
    norm_num [magnitude, abs_of_nonpos]

/-- At one plus the imaginary unit a shifted quarter turn is far from singular, and is solved as it
is. -/
theorem solve_nearSystem_quarterTurn :
    let solution := shiftedQuarterTurn.solve (Mat.ofRows2 1 0 0 0)
    0 < solution.scale ∧ !![-1 - Complex.I, 1; -1, -1 - Complex.I] *ᵥ
      (fun i : Fin 2 => solution.x.complexRow i) = (solution.scale : ℂ) • ![1, 0] := by
  have hrhs : shiftedQuarterTurn.rightHandSide (Mat.ofRows2 1 0 0 0) = ![1, 0] := by
    ext i
    fin_cases i <;> apply Complex.ext <;> simp [rightHandSide, shiftedQuarterTurn, Mat.ofRows2]
  obtain ⟨hscale, ⟨e, hequation, -, hexact, -⟩, -⟩ :=
    solve_nearSystem (Or.inr rfl) shiftedQuarterTurn (Mat.ofRows2 1 0 0 0)
  rw [hexact (perturbed_shiftedQuarterTurn _), add_zero, system_shiftedQuarterTurn, hrhs]
    at hequation
  exact ⟨hscale, hequation⟩

end ShiftedEquation

end SchurForm
