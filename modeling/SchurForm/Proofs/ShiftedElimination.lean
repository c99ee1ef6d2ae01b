import Mathlib.Tactic.IntervalCases
import Mathlib.Tactic.LinearCombination
import SchurForm.Proofs.ShiftedSolution

/-!
# Shifted equations of order two

Elimination with complete pivoting is the same algebra for real and for complex shifts. If the whole
coefficient matrix is below the floor, the floor takes its place; else only the reduced pivot may be
lifted. The further scaling multiplies a solution and its scale alike, by a number that exceeds one
only for very large coefficients.
-/

namespace SchurForm

open Scalar

namespace ShiftedEquation

variable {p : Nat} {b : Mat 2 2 ℝ} {e : Nat → Nat → ℂ} {solution : ShiftedSolution ℝ}

/-- The scale of an elimination is positive. -/
theorem eliminationScale_pos (pivotSize size : ℝ) : 0 < eliminationScale pivotSize size := by
  rw [eliminationScale]
  split
  · rename_i h
    exact one_div_pos.mpr (one_pos.trans h.1)
  · exact one_pos

/-- The scale of an elimination is at most one. -/
theorem eliminationScale_le_one (pivotSize size : ℝ) : eliminationScale pivotSize size ≤ 1 := by
  rw [eliminationScale]
  split
  · rename_i h
    exact (div_le_one (one_pos.trans h.1)).mpr h.1.le
  · exact le_rfl

section OrderTwo

variable {eqn : ShiftedEquation 2 ℝ}

/-- The chosen pivot is the largest entry, unless all entries are zero. -/
theorem choosePivot_spec (size : Nat → Nat → ℝ) (hsize : ∀ i j, 0 ≤ size i j) :
    (∀ i < 2, ∀ j < 2, size i j ≤ (choosePivot size).size) ∧
      (0 < (choosePivot size).size →
        size (exchanged (choosePivot size).lower 0) (exchanged (choosePivot size).right 0) =
          (choosePivot size).size) := by
  have h00 := hsize 0 0
  have h01 := hsize 0 1
  have h10 := hsize 1 0
  have h11 := hsize 1 1
  constructor
  · intro i hi j hj
    interval_cases i <;> interval_cases j <;> simp only [choosePivot] <;> split_ifs <;> linarith
  · simp only [choosePivot]
    split_ifs <;> simp_all [exchanged]

/-- Elimination in a matrix of order two whose upper left entry is the pivot. -/
theorem eliminate_two {m00 m01 m10 m11 e b1 b2 scale x1 x2 : ℂ} (hpivot : m00 ≠ 0)
    (hreduced : m11 - m01 * (m10 / m00) + e ≠ 0)
    (hx2 : x2 = scale * (b2 - m10 / m00 * b1) / (m11 - m01 * (m10 / m00) + e))
    (hx1 : x1 = scale * b1 / m00 - x2 * (m01 / m00)) :
    m00 * x1 + m01 * x2 = scale * b1 ∧ m10 * x1 + (m11 + e) * x2 = scale * b2 := by
  have hsolved : x2 * (m11 - m01 * (m10 / m00) + e) = scale * (b2 - m10 / m00 * b1) := by
    rw [hx2, div_mul_cancel₀ _ hreduced]
  have hfirst : m00 * x1 + m01 * x2 = scale * b1 := by
    rw [hx1]
    field_simp
    ring
  refine ⟨hfirst, ?_⟩
  have hlast : m10 * x1 + (m11 + e) * x2 =
      m10 / m00 * (m00 * x1 + m01 * x2) + x2 * (m11 - m01 * (m10 / m00) + e) := by
    field_simp
    ring
  rw [hlast, hfirst, hsolved]
  ring

/-- The perturbation that lifts the reduced entry, which stands opposite the pivot. -/
def Pivot.opposite (pivot : Pivot ℝ) (e : ℂ) (i j : Nat) : ℂ :=
  if i = exchanged pivot.lower 1 ∧ j = exchanged pivot.right 1 then e else 0

/-- A solution of the permuted equation, put back in order, solves the equation. -/
theorem Pivot.solves_of_permuted (pivot : Pivot ℝ) {c : Nat → Nat → ℂ} {b y x : Nat → ℂ}
    {e scale : ℂ} (hx : ∀ i < 2, x i = y (exchanged pivot.right i))
    (hfirst : c (exchanged pivot.lower 0) (exchanged pivot.right 0) * y 0 +
      c (exchanged pivot.lower 0) (exchanged pivot.right 1) * y 1 =
        scale * b (exchanged pivot.lower 0))
    (hlast : c (exchanged pivot.lower 1) (exchanged pivot.right 0) * y 0 +
      (c (exchanged pivot.lower 1) (exchanged pivot.right 1) + e) * y 1 =
        scale * b (exchanged pivot.lower 1)) :
    ∀ i < 2, ∑ j ∈ Finset.range 2, (c i j + pivot.opposite e i j) * x j = scale * b i := by
  intro i hi
  rw [Finset.sum_range_succ, Finset.sum_range_one, hx 0 two_pos, hx 1 one_lt_two]
  obtain ⟨lower, right, size⟩ := pivot
  cases lower <;> cases right <;> interval_cases i <;>
    simp only [Pivot.opposite, exchanged] at * <;> simp at * <;>
    first | linear_combination hfirst | linear_combination hlast

variable {pivot : Pivot ℝ}

/-- An exchanged index is one of two. -/
theorem exchanged_lt (flip : Bool) {i : Nat} (hi : i < 2) : exchanged flip i < 2 := by
  rw [exchanged]
  split <;> omega

/-- The pivot is moved to the first row and column. -/
@[simp] theorem get_permute (c : Mat 2 2 ℝ) {i j : Nat} (hi : i < 2) (hj : j < 2) :
    (pivot.permute c).get i j = c.get (exchanged pivot.lower i) (exchanged pivot.right j) := by
  simp [Pivot.permute, hi, hj]

/-- The right-hand side follows the rows. -/
@[simp] theorem get_permuteRows (b : Mat 2 2 ℝ) {i j : Nat} (hi : i < 2) (hj : j < 2) :
    (pivot.permuteRows b).get i j = b.get (exchanged pivot.lower i) j := by
  simp [Pivot.permuteRows, hi, hj]

/-- Unknowns are returned to their places. -/
theorem complexRow_restore (y : Mat 2 2 ℝ) {i : Nat} (hi : i < 2) :
    (pivot.restore y).complexRow i = y.complexRow (exchanged pivot.right i) := by
  simp [Mat.complexRow, Pivot.restore, hi]

/-- The entry that is left opposite the pivot when the row of the pivot has been subtracted. -/
noncomputable def reduced (eqn : ShiftedEquation 2 ℝ) (pivot : Pivot ℝ) : ℂ :=
  let m (i j : Nat) := eqn.coefficient (exchanged pivot.lower i) (exchanged pivot.right j)
  m 1 1 - m 0 1 * (m 1 0 / m 0 0)

/-- What elimination computes before any further scaling: the unknowns in the order of the permuted
columns, the last one from the lifted reduced entry. -/
structure Eliminated (eqn : ShiftedEquation 2 ℝ) (b : Mat 2 2 ℝ) (pivot : Pivot ℝ) (y : Mat 2 2 ℝ)
    (solution : ShiftedSolution ℝ) : Prop where
  scale_pos : 0 < solution.scale
  scale_le_one : solution.scale ≤ 1
  x : solution.x = pivot.restore y
  last : y.complexRow 1 = solution.scale * (b.complexRow (exchanged pivot.lower 1) -
      eqn.coefficient (exchanged pivot.lower 1) (exchanged pivot.right 0) /
        eqn.coefficient (exchanged pivot.lower 0) (exchanged pivot.right 0) *
          b.complexRow (exchanged pivot.lower 0)) /
    liftedPivot eqn.effectiveFloor (eqn.reduced pivot)
  first : y.complexRow 0 = solution.scale * b.complexRow (exchanged pivot.lower 0) /
      eqn.coefficient (exchanged pivot.lower 0) (exchanged pivot.right 0) -
    y.complexRow 1 * (eqn.coefficient (exchanged pivot.lower 0) (exchanged pivot.right 1) /
      eqn.coefficient (exchanged pivot.lower 0) (exchanged pivot.right 0))
  perturbed : solution.perturbed = decide (magnitude (eqn.reduced pivot) < eqn.effectiveFloor)
  real : eqn.shiftIm = 0 → ∀ i, y.get i 1 = 0

/-- A real equation has a real solution. -/
theorem Eliminated.x_real {y : Mat 2 2 ℝ} (h : eqn.Eliminated b pivot y solution)
    (hshift : eqn.shiftIm = 0) (i : Nat) : solution.x.get i 1 = 0 := by
  rw [h.x, Pivot.restore, Mat.get_ofFn]
  split
  · exact h.real hshift _
  · rfl

/-- An equation of order two is solved by elimination with the reduced entry lifted. -/
theorem Eliminated.solvedNear {y : Mat 2 2 ℝ} (h : eqn.Eliminated b pivot y solution)
    (hpivot : eqn.coefficient (exchanged pivot.lower 0) (exchanged pivot.right 0) ≠ 0) :
    eqn.SolvedNear b (pivot.opposite
      (liftedPivot eqn.effectiveFloor (eqn.reduced pivot) - eqn.reduced pivot)) solution where
  scale_pos := h.scale_pos
  scale_le_one _ := h.scale_le_one
  solves := by
    have hlifted := liftedPivot_ne_zero eqn.effectiveFloor_pos (eqn.reduced pivot)
    have hlast := h.last
    rw [← add_sub_cancel (eqn.reduced pivot) (liftedPivot eqn.effectiveFloor (eqn.reduced pivot))]
      at hlast hlifted
    obtain ⟨htop, hbottom⟩ := eliminate_two hpivot hlifted hlast h.first
    exact pivot.solves_of_permuted (fun i hi => by rw [h.x, complexRow_restore y hi]) htop hbottom
  bounded i j := by
    rw [Pivot.opposite]
    split
    · exact magnitude_liftedPivot_sub_le eqn.effectiveFloor_pos _
    · have := eqn.effectiveFloor_pos
      rw [magnitude_zero]
      positivity
  unperturbed hexact i j := by
    have hlarge : ¬ magnitude (eqn.reduced pivot) < eqn.effectiveFloor := by
      simpa [hexact] using h.perturbed
    rw [Pivot.opposite, liftedPivot, if_neg hlarge, sub_self, ite_self]
  real hshift := by
    have hreduced : (eqn.reduced pivot).im = 0 := by
      simp only [reduced, coefficient_eq_ofReal hshift, ← Complex.ofReal_div, ← Complex.ofReal_mul,
        ← Complex.ofReal_sub, Complex.ofReal_im]
    refine ⟨fun i j => ?_, h.x_real hshift⟩
    rw [Pivot.opposite]
    split
    · exact im_liftedPivot_sub _ hreduced
    · rfl

/-- With all coefficients lifted, the solution is the scaled right-hand side over the floor. -/
theorem complexRow_solveFloored (floor : ℝ) (x : Mat 2 2 ℝ) (size : ℝ) {i : Nat} (hi : i < 2) :
    (solveFloored floor x size).x.complexRow i =
      ((pivotScale floor size / floor : ℝ) : ℂ) * x.complexRow i := by
  apply Complex.ext <;> simp [solveFloored, Mat.complexRow, Mat.map, hi]

/-- When all coefficients are below the floor, the floor takes the place of the matrix. -/
theorem SolvedNear.of_floored (hsmall : ∀ i j, magnitude (eqn.coefficient i j) < eqn.effectiveFloor)
    {b' : Mat 2 2 ℝ} (hrows : ∀ i, b'.complexRow i = b.complexRow i) (size : ℝ)
    (hreal : eqn.shiftIm = 0 → ∀ i, b'.get i 1 = 0) :
    eqn.SolvedNear b (fun i j => (if i = j then (eqn.effectiveFloor : ℂ) else 0) -
      eqn.coefficient i j) (solveFloored eqn.effectiveFloor b' size) where
  scale_pos := pivotScale_pos _ _
  scale_le_one _ := pivotScale_le_one _ _
  solves i hi := by
    have hfloor : (eqn.effectiveFloor : ℂ) ≠ 0 := by
      exact_mod_cast eqn.effectiveFloor_pos.ne'
    simp only [add_sub_cancel, ite_mul, zero_mul, Finset.sum_ite_eq, Finset.mem_range, hi,
      if_true, complexRow_solveFloored _ _ _ hi, hrows, Complex.ofReal_div]
    rw [← mul_assoc, mul_div_cancel₀ _ hfloor]
    rfl
  bounded i j := by
    have hsub := magnitude_sub_le (if i = j then (eqn.effectiveFloor : ℂ) else 0)
      (eqn.coefficient i j)
    have hdiagonal : magnitude (if i = j then (eqn.effectiveFloor : ℂ) else 0) ≤
        eqn.effectiveFloor := by
      split
      · rw [magnitude_ofReal, abs_of_pos eqn.effectiveFloor_pos]
      · rw [magnitude_zero]
        exact eqn.effectiveFloor_pos.le
    linarith [hsmall i j]
  unperturbed h := by simp [solveFloored] at h
  real h := by
    refine ⟨fun i j => ?_, fun i => ?_⟩
    · rw [coefficient_eq_ofReal h]
      split <;> simp
    · simp [solveFloored, Mat.map, hreal h]

/-- A solution multiplied, together with its scale and its norm, by one number. -/
structure Multiplied (factor : ℝ) (solution further : ShiftedSolution ℝ) : Prop where
  row : ∀ i, further.x.complexRow i = factor * solution.x.complexRow i
  scale : further.scale = factor * solution.scale
  norm : further.norm = factor * solution.norm
  perturbed : further.perturbed = solution.perturbed

/-- Multiplying a solution multiplies the right-hand side with it. -/
theorem SolvedNear.of_multiplied {further : ShiftedSolution ℝ} {factor : ℝ}
    (h : eqn.SolvedNear b e solution) (hfurther : Multiplied factor solution further)
    (hpos : 0 < factor)
    (hle : (∀ i j, magnitude (eqn.coefficient i j) ≤ largest) → factor ≤ 1) :
    eqn.SolvedNear b e further := by
  refine ⟨hfurther.scale ▸ mul_pos hpos h.scale_pos, fun hsmall => ?_, fun i hi => ?_, h.bounded,
    fun hexact => h.unperturbed (hfurther.perturbed ▸ hexact), fun hshift => ?_⟩
  · rw [hfurther.scale]
    exact mul_le_one₀ (hle (hsmall rfl)) h.scale_pos.le (h.scale_le_one hsmall)
  · simp only [hfurther.row, hfurther.scale, mul_left_comm _ (factor : ℂ), ← Finset.mul_sum,
      h.solves i hi, Complex.ofReal_mul, mul_assoc]
  · obtain ⟨he, hx⟩ := h.real hshift
    refine ⟨he, fun i => ?_⟩
    have hrow := congrArg Complex.im (hfurther.row i)
    rwa [Complex.im_ofReal_mul, show (solution.x.complexRow i).im = 0 from hx i, mul_zero] at hrow

/-- The further scaling multiplies by a positive number, which exceeds one only as far as the pivot
exceeds the largest number. The second column has to be among the scaled ones unless the shift is
real. -/
theorem Eliminated.exists_multiplied {y : Mat 2 2 ℝ} {columns : Nat}
    (h : eqn.Eliminated b pivot y solution)
    (hcolumns : columns = 2 ∨ columns = 1 ∧ eqn.shiftIm = 0) :
    ∃ factor, 0 < factor ∧ factor ≤ max 1 (pivot.size / largest) ∧
      Multiplied factor solution (scaledFurther columns pivot.size solution) := by
  rw [scaledFurther]
  split
  · rename_i hlarge
    refine ⟨pivot.size / largest, div_pos (one_pos.trans hlarge.2.1) largest_pos,
      le_max_right _ _, fun i => ?_, mul_comm _ _, mul_comm _ _, rfl⟩
    by_cases hi : i < 2
    · apply Complex.ext
      · rcases hcolumns with rfl | ⟨rfl, -⟩ <;> simp [Mat.complexRow, hi, mul_comm]
      · rcases hcolumns with rfl | ⟨rfl, hshift⟩
        · simp [Mat.complexRow, hi, mul_comm]
        · simp [Mat.complexRow, h.x_real hshift]
    · apply Complex.ext <;> simp [Mat.complexRow, Mat.get_of_rows_le _ (Nat.le_of_not_lt hi)]
  · exact ⟨1, one_pos, le_max_left _ _, fun i => by simp, by simp, by simp, rfl⟩

/-- The sizes of the coefficients by which the pivot is chosen. -/
theorem magnitude_coefficient_le (i j : Nat) : magnitude (eqn.coefficient i j) ≤
    (choosePivot fun i j => magnitude (eqn.coefficient i j)).size := by
  obtain ⟨hle, -⟩ := choosePivot_spec (fun i j => magnitude (eqn.coefficient i j))
    fun _ _ => magnitude_nonneg _
  by_cases hij : i < 2 ∧ j < 2
  · exact hle i hij.1 j hij.2
  · have hzero : eqn.coefficient i j = 0 := by
      apply Complex.ext <;> simp only [coefficient, coefficientRe, coefficientIm, Mat.get_ofFn,
        if_neg hij, Complex.zero_re, Complex.zero_im]
    rw [hzero, magnitude_zero]
    exact (magnitude_nonneg _).trans (hle 0 two_pos 0 two_pos)

/-- A pivot that reaches the floor is an entry of the size that was found. -/
theorem magnitude_coefficient_pivot {pivot : Pivot ℝ}
    (hchosen : pivot = choosePivot fun i j => magnitude (eqn.coefficient i j))
    (hlarge : ¬ pivot.size < eqn.effectiveFloor) :
    magnitude (eqn.coefficient (exchanged pivot.lower 0) (exchanged pivot.right 0)) =
      pivot.size := by
  have hsize : 0 < pivot.size := eqn.effectiveFloor_pos.trans_le (not_lt.mp hlarge)
  subst hchosen
  exact (choosePivot_spec (fun i j => magnitude (eqn.coefficient i j))
    fun _ _ => magnitude_nonneg _).2 hsize

/-- A pivot that reaches the floor is not zero. -/
theorem coefficient_pivot_ne_zero {pivot : Pivot ℝ}
    (hchosen : pivot = choosePivot fun i j => magnitude (eqn.coefficient i j))
    (hlarge : ¬ pivot.size < eqn.effectiveFloor) :
    eqn.coefficient (exchanged pivot.lower 0) (exchanged pivot.right 0) ≠ 0 := by
  apply ne_zero_of_magnitude_pos
  rw [magnitude_coefficient_pivot hchosen hlarge]
  exact eqn.effectiveFloor_pos.trans_le (not_lt.mp hlarge)

/-- Elimination with a real shift. -/
theorem exists_eliminated_of_real {pivot : Pivot ℝ} (hshift : eqn.shiftIm = 0)
    (hb : ∀ i, b.get i 1 = 0) (hchosen : pivot = choosePivot fun i j => |eqn.coefficientRe.get i j|)
    (hlarge : ¬ pivot.size < eqn.effectiveFloor) :
    ∃ y solution, eqn.Eliminated b pivot y solution ∧
      solution.norm = max (magnitude (y.complexRow 0)) (magnitude (y.complexRow 1)) ∧
      eqn.solveRealTwo b = ShiftedEquation.scaledFurther 1 pivot.size solution := by
  have hrow (i : Nat) : b.complexRow i = (b.get i 0 : ℂ) := Complex.ext rfl (hb i)
  set m := fun i j => eqn.coefficientRe.get (exchanged pivot.lower i) (exchanged pivot.right j)
    with hmdef
  set rhs := fun i => b.get (exchanged pivot.lower i) 0 with hrhsdef
  have hm (i j : Nat) (hi : i < 2) (hj : j < 2) :
      (pivot.permute eqn.coefficientRe).get i j = m i j := get_permute _ hi hj
  have hrhs (i : Nat) (hi : i < 2) : (pivot.permuteRows b).get i 0 = rhs i :=
    get_permuteRows _ hi two_pos
  have hreduced : eqn.reduced pivot = ((m 1 1 - m 0 1 * (m 1 0 / m 0 0) : ℝ) : ℂ) := by
    simp [reduced, coefficient_eq_ofReal hshift, m]
  rw [solveRealTwo]
  simp only [abs_real, ← hchosen, if_neg hlarge, hm 0 0 two_pos two_pos, hm 0 1 two_pos one_lt_two,
    hm 1 0 one_lt_two two_pos, hm 1 1 one_lt_two one_lt_two, hrhs 0 two_pos, hrhs 1 one_lt_two,
    one_div_mul_eq_div, decide_eq_true_eq]
  refine ⟨_, _, ⟨eliminationScale_pos _ _, eliminationScale_le_one _ _, rfl, ?_, ?_, ?_, ?_⟩, ?_,
    rfl⟩
  · rw [Mat.complexRow_ofRows2_one]
    simp only [hreduced, liftedPivot_ofReal, hrow, coefficient_eq_ofReal hshift,
      ← Complex.ofReal_div, ← Complex.ofReal_mul, ← Complex.ofReal_sub]
    exact congrArg Complex.ofReal (by rw [mul_comm])
  · rw [Mat.complexRow_ofRows2_one, Mat.complexRow_ofRows2_zero]
    simp only [hrow, coefficient_eq_ofReal hshift, ← Complex.ofReal_def, ← Complex.ofReal_div,
      ← Complex.ofReal_mul, ← Complex.ofReal_sub]
    exact congrArg Complex.ofReal (by rw [mul_one_div])
  · rw [hreduced, magnitude_ofReal]
  · exact fun _ i => by simp [Mat.ofRows2]
  · rw [Mat.complexRow_ofRows2_zero, Mat.complexRow_ofRows2_one]
    simp [magnitude]

section ComplexElimination

variable {re im : Mat 2 2 ℝ} {m : Nat → Nat → ℂ}
  (hm : ∀ i < 2, ∀ j < 2, m i j = ⟨re.get i j, im.get i j⟩)

/-- The first elimination step of a complex matrix, read as complex numbers. -/
structure ComplexElimination.Reduces (u : ComplexElimination ℝ) (m : Nat → Nat → ℂ) : Prop where
  inverse : (⟨u.u11InvRe, u.u11InvIm⟩ : ℂ) = (m 0 0)⁻¹
  lower : (⟨u.l21Re, u.l21Im⟩ : ℂ) = m 1 0 / m 0 0
  upper : (⟨u.u12ScaledRe, u.u12ScaledIm⟩ : ℂ) = m 0 1 / m 0 0
  reduced : (⟨u.u22Re, u.u22Im⟩ : ℂ) = m 1 1 - m 0 1 * (m 1 0 / m 0 0)

include hm

/-- Elimination with a pivot from the diagonal, so that the entries beside it are real. -/
theorem eliminateDiagonal_reduces (hpivot : m 0 0 ≠ 0) (h01 : im.get 0 1 = 0)
    (h10 : im.get 1 0 = 0) : (eliminateDiagonal re im).Reduces m := by
  have h00 := hm 0 two_pos 0 two_pos
  have hreal {x y : ℝ} (hy : y = 0) : (⟨x, y⟩ : ℂ) = (x : ℂ) := Complex.ext rfl hy
  have hinverse : (⟨(eliminateDiagonal re im).u11InvRe, (eliminateDiagonal re im).u11InvIm⟩ : ℂ) =
      (m 0 0)⁻¹ := by
    apply eq_inv_of_mul_eq_one_left
    rw [h00] at hpivot ⊢
    have hsq := sq_add_sq_ne_zero hpivot
    simp only [eliminateDiagonal, abs_real]
    split
    · rename_i hless
      have ha : re.get 0 0 ≠ 0 := abs_pos.mp ((abs_nonneg _).trans_lt hless)
      apply Complex.ext
      · simp
        field_simp
      · simp
        field_simp
        ring
    · rename_i hless
      have hb : im.get 0 0 ≠ 0 := by
        intro hb
        rw [hb, abs_zero, not_lt, abs_nonpos_iff] at hless
        exact hsq (by rw [hb, hless]; norm_num)
      apply Complex.ext
      · simp
        field_simp
        ring
      · simp
        field_simp
        ring
  have hlower : (⟨(eliminateDiagonal re im).l21Re, (eliminateDiagonal re im).l21Im⟩ : ℂ) =
      m 1 0 / m 0 0 := by
    rw [div_eq_mul_inv, ← hinverse, hm 1 one_lt_two 0 two_pos, hreal h10]
    apply Complex.ext <;> simp [eliminateDiagonal]
  have hupper :
      (⟨(eliminateDiagonal re im).u12ScaledRe, (eliminateDiagonal re im).u12ScaledIm⟩ : ℂ) =
        m 0 1 / m 0 0 := by
    rw [div_eq_mul_inv, ← hinverse, hm 0 two_pos 1 one_lt_two, hreal h01]
    apply Complex.ext <;> simp [eliminateDiagonal]
  refine ⟨hinverse, hlower, hupper, ?_⟩
  rw [← hlower, hm 0 two_pos 1 one_lt_two, hm 1 one_lt_two 1 one_lt_two, hreal h01]
  apply Complex.ext <;> simp [eliminateDiagonal]

/-- Elimination with a pivot from off the diagonal, so that it and the entry opposite are real. -/
theorem eliminateOffDiagonal_reduces (h00 : im.get 0 0 = 0) (h11 : im.get 1 1 = 0) :
    (eliminateOffDiagonal re im).Reduces m := by
  have hreal {x y : ℝ} (hy : y = 0) : (⟨x, y⟩ : ℂ) = (x : ℂ) := Complex.ext rfl hy
  have hinverse : (⟨(eliminateOffDiagonal re im).u11InvRe,
      (eliminateOffDiagonal re im).u11InvIm⟩ : ℂ) = (m 0 0)⁻¹ := by
    rw [hm 0 two_pos 0 two_pos, hreal h00, ← Complex.ofReal_inv]
    apply Complex.ext <;> simp [eliminateOffDiagonal]
  have hlower : (⟨(eliminateOffDiagonal re im).l21Re, (eliminateOffDiagonal re im).l21Im⟩ : ℂ) =
      m 1 0 / m 0 0 := by
    rw [div_eq_mul_inv, ← hinverse, hm 1 one_lt_two 0 two_pos]
    apply Complex.ext <;> simp [eliminateOffDiagonal]
  have hupper : (⟨(eliminateOffDiagonal re im).u12ScaledRe,
      (eliminateOffDiagonal re im).u12ScaledIm⟩ : ℂ) = m 0 1 / m 0 0 := by
    rw [div_eq_mul_inv, ← hinverse, hm 0 two_pos 1 one_lt_two]
    apply Complex.ext <;> simp [eliminateOffDiagonal]
  refine ⟨hinverse, hlower, hupper, ?_⟩
  rw [← hlower, hm 0 two_pos 1 one_lt_two, hm 1 one_lt_two 1 one_lt_two, hreal h11]
  apply Complex.ext
  · simp [eliminateOffDiagonal]
    ring
  · simp [eliminateOffDiagonal]
    ring

end ComplexElimination

/-- Elimination with a complex shift. -/
theorem exists_eliminated_of_complex {pivot : Pivot ℝ} (hshift : eqn.shiftIm ≠ 0)
    (hchosen : pivot = choosePivot fun i j => magnitude (eqn.coefficient i j))
    (hlarge : ¬ pivot.size < eqn.effectiveFloor) :
    ∃ y solution, eqn.Eliminated b pivot y solution ∧
      solution.norm = max (magnitude (y.complexRow 0)) (magnitude (y.complexRow 1)) ∧
      eqn.solveComplexTwo b = ShiftedEquation.scaledFurther 2 pivot.size solution := by
  have hpivot := coefficient_pivot_ne_zero hchosen hlarge
  set re := pivot.permute eqn.coefficientRe with hre
  set im := pivot.permute eqn.coefficientIm with him
  set u := if pivot.lower == pivot.right then eliminateDiagonal re im
    else eliminateOffDiagonal re im with hu
  have hm : ∀ i < 2, ∀ j < 2,
      eqn.coefficient (exchanged pivot.lower i) (exchanged pivot.right j) =
        ⟨re.get i j, im.get i j⟩ := by
    intro i hi j hj
    rw [hre, him, get_permute _ hi hj, get_permute _ hi hj, coefficient]
  have hreduces : u.Reduces fun i j =>
      eqn.coefficient (exchanged pivot.lower i) (exchanged pivot.right j) := by
    have hzero (i j : Nat) (hi : i < 2) (hj : j < 2)
        (hne : exchanged pivot.lower i ≠ exchanged pivot.right j) : im.get i j = 0 := by
      have hcoefficient :
          (eqn.coefficient (exchanged pivot.lower i) (exchanged pivot.right j)).im = 0 :=
        coefficient_im_of_ne hne
      rwa [hm i hi j hj] at hcoefficient
    rw [hu]
    split
    · rename_i hsame
      have hsame : pivot.lower = pivot.right := by simpa using hsame
      refine eliminateDiagonal_reduces hm hpivot (hzero 0 1 two_pos one_lt_two ?_)
        (hzero 1 0 one_lt_two two_pos ?_) <;> rw [hsame] <;> cases pivot.right <;> simp [exchanged]
    · rename_i hother
      have hother : pivot.lower = !pivot.right := by
        cases hl : pivot.lower <;> cases hr : pivot.right <;> simp_all
      refine eliminateOffDiagonal_reduces hm (hzero 0 0 two_pos two_pos ?_)
        (hzero 1 1 one_lt_two one_lt_two ?_) <;> rw [hother] <;> cases pivot.right <;>
          simp [exchanged]
  have hreduced : eqn.reduced pivot = ⟨u.u22Re, u.u22Im⟩ := hreduces.reduced.symm
  have hlifted := liftedPivot_ne_zero eqn.effectiveFloor_pos (eqn.reduced pivot)
  rw [hreduced, liftedPivot_mk] at hlifted
  rw [solveComplexTwo]
  change pivot = choosePivot fun i j =>
    |eqn.coefficientRe.get i j| + |eqn.coefficientIm.get i j| at hchosen
  simp only [abs_real, ← hchosen, if_neg hlarge, ← hre, ← him, ← hu, decide_eq_true_eq]
  refine ⟨_, _, ⟨eliminationScale_pos _ _, eliminationScale_le_one _ _, rfl, ?_, ?_, ?_,
    fun h => absurd h hshift⟩, ?_, rfl⟩
  · rw [Mat.complexRow_ofRows2_one, complexQuotient_eq hlifted, hreduced, liftedPivot_mk,
      ← hreduces.lower]
    congr 1
    dsimp only
    generalize (eliminationScale _ _ : ℝ) = scale
    apply Complex.ext
    · simp [Mat.complexRow]
      ring
    · simp [Mat.complexRow]
      ring
  · rw [Mat.complexRow_ofRows2_one, Mat.complexRow_ofRows2_zero, ← hreduces.upper, div_eq_mul_inv,
      ← hreduces.inverse]
    dsimp only
    generalize (eliminationScale _ _ : ℝ) = scale
    generalize (complexQuotient _ _ _ _ : ℝ × ℝ) = x2
    apply Complex.ext
    · simp [Mat.complexRow]
      ring
    · simp [Mat.complexRow]
      ring
  · rw [hreduced, magnitude]
  · rw [Mat.complexRow_ofRows2_zero, Mat.complexRow_ofRows2_one]
    exact maxNum_real _ _

/-- How an equation of order two is solved: the floor takes the place of a matrix below it, and any
other matrix is eliminated from its largest entry. -/
inductive SolvedTwo (eqn : ShiftedEquation 2 ℝ) (b : Mat 2 2 ℝ) : ShiftedSolution ℝ → Prop
  | floored (b' : Mat 2 2 ℝ)
      (small : ∀ i j, magnitude (eqn.coefficient i j) < eqn.effectiveFloor)
      (rows : ∀ i, b'.complexRow i = b.complexRow i)
      (real : eqn.shiftIm = 0 → ∀ i, b'.get i 1 = 0) :
      SolvedTwo eqn b (solveFloored eqn.effectiveFloor b'
        (max (magnitude (b.complexRow 0)) (magnitude (b.complexRow 1))))
  | eliminated (pivot : Pivot ℝ) (y : Mat 2 2 ℝ) (solution : ShiftedSolution ℝ) (columns : Nat)
      (chosen : pivot = choosePivot fun i j => magnitude (eqn.coefficient i j))
      (large : ¬ pivot.size < eqn.effectiveFloor)
      (elimination : eqn.Eliminated b pivot y solution)
      (norm : solution.norm = max (magnitude (y.complexRow 0)) (magnitude (y.complexRow 1)))
      (scaled : columns = 2 ∨ columns = 1 ∧ eqn.shiftIm = 0) :
      SolvedTwo eqn b (ShiftedEquation.scaledFurther columns pivot.size solution)

/-- The real equation of order two is solved. -/
theorem solvedTwo_solveRealTwo (hshift : eqn.shiftIm = 0) (hb : ∀ i, b.get i 1 = 0) :
    SolvedTwo eqn b (eqn.solveRealTwo b) := by
  have hsizes : (choosePivot fun i j => |eqn.coefficientRe.get i j|) =
      choosePivot fun i j => magnitude (eqn.coefficient i j) := by
    simp only [coefficient_eq_ofReal hshift, magnitude_ofReal]
  by_cases hlarge : (choosePivot fun i j => |eqn.coefficientRe.get i j|).size < eqn.effectiveFloor
  · have hrow (i : Nat) : b.complexRow i = (b.get i 0 : ℂ) := Complex.ext rfl (hb i)
    have hrows (i : Nat) : (Mat.ofRows2 (b.get 0 0) 0 (b.get 1 0) 0).complexRow i =
        b.complexRow i := by
      by_cases hi : i < 2
      · interval_cases i <;> simp [Mat.complexRow, Mat.ofRows2, hb]
      · have hi := Nat.le_of_not_lt hi
        simp [Mat.complexRow, Mat.get_of_rows_le _ hi]
    have hfloored : SolvedTwo eqn b _ := .floored _
      (fun i j => (magnitude_coefficient_le i j).trans_lt (hsizes ▸ hlarge)) hrows
      fun _ i => by simp [Mat.ofRows2]
    rw [solveRealTwo]
    simp only [abs_real, if_pos hlarge, maxNum_real]
    rwa [hrow, hrow, magnitude_ofReal, magnitude_ofReal] at hfloored
  · obtain ⟨y, solution, heliminated, hnorm, hsolve⟩ :=
      exists_eliminated_of_real hshift hb rfl hlarge
    rw [hsolve]
    exact .eliminated _ y solution 1 hsizes hlarge heliminated hnorm (Or.inr ⟨rfl, hshift⟩)

/-- The complex equation of order two is solved. -/
theorem solvedTwo_solveComplexTwo (hshift : eqn.shiftIm ≠ 0) :
    SolvedTwo eqn b (eqn.solveComplexTwo b) := by
  by_cases hlarge : (choosePivot fun i j => magnitude (eqn.coefficient i j)).size <
      eqn.effectiveFloor
  · have hfloored : SolvedTwo eqn b _ := .floored b
      (fun i j => (magnitude_coefficient_le i j).trans_lt hlarge) (fun _ => rfl)
      fun h => absurd h hshift
    rw [solveComplexTwo]
    simp only [magnitude, coefficient] at hlarge
    simp only [abs_real, if_pos hlarge, maxNum_real]
    exact hfloored
  · obtain ⟨y, solution, heliminated, hnorm, hsolve⟩ :=
      exists_eliminated_of_complex (b := b) hshift rfl hlarge
    rw [hsolve]
    exact .eliminated _ y solution 2 rfl hlarge heliminated hnorm (Or.inl rfl)

/-- However an equation of order two is solved, it is solved near its coefficients. -/
theorem SolvedTwo.exists_solvedNear (h : SolvedTwo eqn b solution) :
    ∃ e, eqn.SolvedNear b e solution := by
  cases h with
  | floored b' small rows real => exact ⟨_, SolvedNear.of_floored small rows _ real⟩
  | eliminated pivot y unscaled columns chosen large elimination norm scaled =>
    obtain ⟨factor, hpos, hle, hfurther⟩ := elimination.exists_multiplied scaled
    refine ⟨_, (elimination.solvedNear (coefficient_pivot_ne_zero chosen large)).of_multiplied
      hfurther hpos fun hsmall => hle.trans (max_le le_rfl ((div_le_one largest_pos).mpr ?_))⟩
    rw [← magnitude_coefficient_pivot chosen large]
    exact hsmall _ _

end OrderTwo

/-- With a real shift the right-hand side has to be real. -/
theorem divided_solve {eqn : ShiftedEquation 1 ℝ} (hb : eqn.shiftIm = 0 → ∀ i, b.get i 1 = 0) :
    eqn.Divided b (eqn.solve b) := by
  change eqn.Divided b (if eqn.shiftIm == 0 then eqn.solveRealOne b else eqn.solveComplexOne b)
  by_cases hshift : eqn.shiftIm = 0
  · simpa [hshift] using divided_solveRealOne hshift (hb hshift)
  · simpa [hshift] using divided_solveComplexOne hshift

/-- The equation of order two is solved, real or complex. -/
theorem solvedTwo_solve {eqn : ShiftedEquation 2 ℝ} (hb : eqn.shiftIm = 0 → ∀ i, b.get i 1 = 0) :
    SolvedTwo eqn b (eqn.solve b) := by
  change SolvedTwo eqn b (if eqn.shiftIm == 0 then eqn.solveRealTwo b else eqn.solveComplexTwo b)
  by_cases hshift : eqn.shiftIm = 0
  · simpa [hshift] using solvedTwo_solveRealTwo hshift (hb hshift)
  · simpa [hshift] using solvedTwo_solveComplexTwo hshift

/-- Every shifted equation of order one or two is solved near its coefficients. With a real shift
the right-hand side has to be real. -/
theorem exists_solvedNear (hp : p = 1 ∨ p = 2) (eqn : ShiftedEquation p ℝ)
    (hb : eqn.shiftIm = 0 → ∀ i, b.get i 1 = 0) : ∃ e, eqn.SolvedNear b e (eqn.solve b) := by
  rcases hp with rfl | rfl
  · exact ⟨_, (divided_solve hb).solvedNear⟩
  · exact (solvedTwo_solve hb).exists_solvedNear

end ShiftedEquation

end SchurForm
