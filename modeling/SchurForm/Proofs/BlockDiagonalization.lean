import SchurForm.Proofs.PlaneNormalForms

/-!
# Diagonal forms of blocks of order two

Two rotations make every real block of order two diagonal. The half angle puts the longer of the two
turned columns first, so the first diagonal entry is the largest singular value and the second one
is the other singular value with the sign of the determinant. Singular blocks are included: the left
rotation follows a column that is not zero.
-/

namespace SchurForm

open Scalar Matrix GivensRotation

/-- Turning a point back by its angle puts it on the positive axis, at its distance. -/
theorem cos_arg_mul_add_sin_arg_mul (x y : ℝ) :
    Real.cos (Complex.arg ⟨x, y⟩) * x + Real.sin (Complex.arg ⟨x, y⟩) * y = ‖(⟨x, y⟩ : ℂ)‖ := by
  have hre := Complex.norm_mul_cos_arg ⟨x, y⟩
  have him := Complex.norm_mul_sin_arg ⟨x, y⟩
  dsimp only at hre him
  calc Real.cos (Complex.arg ⟨x, y⟩) * x + Real.sin (Complex.arg ⟨x, y⟩) * y
      = ‖(⟨x, y⟩ : ℂ)‖ * (Real.sin (Complex.arg ⟨x, y⟩) ^ 2 +
          Real.cos (Complex.arg ⟨x, y⟩) ^ 2) := by
        linear_combination -Real.cos (Complex.arg ⟨x, y⟩) * hre -
          Real.sin (Complex.arg ⟨x, y⟩) * him
    _ = ‖(⟨x, y⟩ : ℂ)‖ := by rw [Real.sin_sq_add_cos_sq, mul_one]

/-- The right rotation puts the longer column first. -/
theorem diagonalize_longer_first (a b c d : ℝ) :
    let rot := (diagonalize a b c d).right
    (rot.c * b - rot.s * a) ^ 2 + (rot.c * d - rot.s * c) ^ 2 ≤
      (rot.c * a + rot.s * b) ^ 2 + (rot.c * c + rot.s * d) ^ 2 := by
  intro rot
  set x : ℝ := a * a + c * c - (b * b + d * d) with hx
  set y : ℝ := 2 * (a * b + c * d) with hy
  obtain ⟨hcos, hsin⟩ : Real.cos (Complex.arg ⟨x, y⟩) = rot.c ^ 2 - rot.s ^ 2 ∧
      Real.sin (Complex.arg ⟨x, y⟩) = 2 * rot.s * rot.c := by
    have hc : rot.c = Real.cos (1 / 2 * Complex.arg ⟨x, y⟩) := by
      simp [rot, diagonalize, hx, hy]
    have hs : rot.s = Real.sin (1 / 2 * Complex.arg ⟨x, y⟩) := by
      simp [rot, diagonalize, hx, hy]
    rw [hc, hs, ← Real.cos_two_mul', ← Real.sin_two_mul, ← mul_assoc,
      mul_one_div_cancel two_ne_zero, one_mul]
    exact ⟨rfl, rfl⟩
  have hdistance := cos_arg_mul_add_sin_arg_mul x y
  rw [hcos, hsin] at hdistance
  -- the difference of the squared lengths is the length of the point whose angle is halved
  have hdifference : (rot.c * a + rot.s * b) ^ 2 + (rot.c * c + rot.s * d) ^ 2 -
      ((rot.c * b - rot.s * a) ^ 2 + (rot.c * d - rot.s * c) ^ 2) = ‖(⟨x, y⟩ : ℂ)‖ := by
    rw [← hdistance, hx, hy]
    ring
  linarith [norm_nonneg (⟨x, y⟩ : ℂ)]

/-- A rotation onto the direction of a point does not turn it to the negative side; the zero point
stays where it is, whatever the rotation. -/
theorem turned_nonneg (x y : ℝ) (other : GivensRotation ℝ) :
    let rot : GivensRotation ℝ :=
      if 0 < √(x ^ 2 + y ^ 2) then ⟨x / √(x ^ 2 + y ^ 2), y / √(x ^ 2 + y ^ 2)⟩ else other
    0 ≤ rot.c * x + rot.s * y := by
  intro rot
  by_cases hpos : 0 < √(x ^ 2 + y ^ 2)
  · have hturned : rot.c * x + rot.s * y = (x ^ 2 + y ^ 2) / √(x ^ 2 + y ^ 2) := by
      simp only [rot, if_pos hpos]
      ring
    rw [hturned]
    positivity
  · have hsum : x ^ 2 + y ^ 2 ≤ 0 := not_lt.mp (mt Real.sqrt_pos.mpr hpos)
    have hx : x = 0 := by nlinarith [sq_nonneg x, sq_nonneg y]
    have hy : y = 0 := by nlinarith [sq_nonneg x, sq_nonneg y]
    rw [hx, hy, mul_zero, mul_zero, add_zero]

/-- The first diagonal entry is not negative. -/
theorem diagonalize_d0_nonneg (a b c d : ℝ) : 0 ≤ (diagonalize a b c d).d0 :=
  turned_nonneg _ _ _

/-- A rotation that turns a point onto an axis keeps its distance. -/
theorem GivensRotation.IsRotation.sq_of_turned {rot : GivensRotation ℝ} (hrot : rot.IsRotation)
    {x y z : ℝ} (hz : rot.c * x + rot.s * y = z) (hzero : rot.c * y - rot.s * x = 0) :
    z ^ 2 = x ^ 2 + y ^ 2 := by
  rw [IsRotation] at hrot
  calc z ^ 2 = (rot.c * x + rot.s * y) ^ 2 + (rot.c * y - rot.s * x) ^ 2 := by rw [hz, hzero]; ring
    _ = (rot.c ^ 2 + rot.s ^ 2) * (x ^ 2 + y ^ 2) := by ring
    _ = x ^ 2 + y ^ 2 := by rw [hrot, one_mul]

/-- Every real block of order two is made diagonal by a rotation from each side, exactly. The first
diagonal entry is at least as large as the magnitude of the second one, and their product is the
determinant. -/
theorem diagonalize_factorization (a b c d : ℝ) :
    let e := diagonalize a b c d
    let l := !![e.left.c, -e.left.s; e.left.s, e.left.c]
    let r := !![e.right.c, -e.right.s; e.right.s, e.right.c]
    e.left.c ^ 2 + e.left.s ^ 2 = 1 ∧ e.right.c ^ 2 + e.right.s ^ 2 = 1 ∧
      lᵀ * !![a, b; c, d] * r = !![e.d0, 0; 0, e.d1] ∧
      |e.d1| ≤ e.d0 ∧ e.d0 * e.d1 = a * d - b * c := by
  intro e l r
  obtain ⟨hleft, hright, h00, h01, h10, h11⟩ := diagonalize_spec a b c d
  have hdiagonal : lᵀ * !![a, b; c, d] * r = !![e.d0, 0; 0, e.d1] := by
    ext i j
    fin_cases i <;> fin_cases j <;> simp [l, r, Matrix.mul_apply] <;> linarith
  have hlonger : e.d1 ^ 2 ≤ e.d0 ^ 2 := by
    rw [hleft.sq_of_turned h00 h10,
      hleft.sq_of_turned (x := e.right.c * d - e.right.s * c)
        (y := -(e.right.c * b - e.right.s * a)) (by linarith) (by linarith), neg_sq, add_comm]
    exact diagonalize_longer_first a b c d
  refine ⟨hleft, hright, hdiagonal, ?_, ?_⟩
  · rw [← abs_of_nonneg (diagonalize_d0_nonneg a b c d)]
    exact sq_le_sq.mp hlonger
  · have hdet := congrArg Matrix.det hdiagonal
    have hone : l.det = 1 ∧ r.det = 1 := by
      rw [IsRotation] at hleft hright
      constructor <;> rw [Matrix.det_fin_two_of] <;> linarith
    rw [Matrix.det_mul, Matrix.det_mul, Matrix.det_transpose, hone.1, hone.2,
      Matrix.det_fin_two_of, Matrix.det_fin_two_of] at hdet
    linarith

end SchurForm
