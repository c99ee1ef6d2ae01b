import Mathlib.Algebra.BigOperators.Intervals
import Mathlib.Analysis.SpecialFunctions.Complex.Arg
import SchurForm.Scalar

/-!
# Exact arithmetic

The real numbers as scalars: every operation is exact, no number differs from itself, and only the
two constants of the working precision are those of binary64. Read over this instance the kernels
are ordinary algebra; the lemmas here say so for the operations that are not written by a symbol.
-/

namespace SchurForm

/-- Exact arithmetic with the constants of binary64. -/
noncomputable instance Scalar.real : Scalar ℝ where
  toZero := inferInstance
  toOne := inferInstance
  toAdd := inferInstance
  toSub := inferInstance
  toMul := inferInstance
  toDiv := inferInstance
  toNeg := inferInstance
  toNatCast := inferInstance
  toLT := inferInstance
  toLE := inferInstance
  toBEq := instBEqOfDecidableEq
  decLt := inferInstance
  decLe := inferInstance
  abs x := |x|
  sqrt := Real.sqrt
  hypot x y := √(x ^ 2 + y ^ 2)
  atan2 y x := Complex.arg ⟨x, y⟩
  sin := Real.sin
  cos := Real.cos
  copySign x s := if 0 ≤ s then |x| else -|x|
  isFinite _ := true
  epsilon := ((2 : ℝ) ^ 52)⁻¹
  minPositive := ((2 : ℝ) ^ 1022)⁻¹

namespace Scalar

/-- Equality of real numbers is decided. -/
@[simp] theorem beq_real (a b : ℝ) : (a == b) = decide (a = b) := rfl

/-- Inequality of real numbers is decided. -/
@[simp] theorem bne_real (a b : ℝ) : (a != b) = decide (a ≠ b) := by
  simp [bne]

/-- Magnitudes are exact. -/
@[simp] theorem abs_real (x : ℝ) : Scalar.abs x = |x| := rfl

/-- Roots are exact. -/
@[simp] theorem sqrt_real (x : ℝ) : Scalar.sqrt x = √x := rfl

/-- Lengths are exact. -/
@[simp] theorem hypot_real (x y : ℝ) : Scalar.hypot x y = √(x ^ 2 + y ^ 2) := rfl

/-- The angle of a vector is the argument of the complex number. -/
@[simp] theorem atan2_real (y x : ℝ) : Scalar.atan2 y x = Complex.arg ⟨x, y⟩ := rfl

/-- Sines are exact. -/
@[simp] theorem sin_real (x : ℝ) : Scalar.sin x = Real.sin x := rfl

/-- Cosines are exact. -/
@[simp] theorem cos_real (x : ℝ) : Scalar.cos x = Real.cos x := rfl

/-- Zero counts as positive when signs are copied. -/
theorem copySign_real (x s : ℝ) : copySign x s = if 0 ≤ s then |x| else -|x| := rfl

/-- Two is two. -/
@[simp] theorem two_real : (two : ℝ) = 2 := by
  simp [two]

/-- A half is a half. -/
@[simp] theorem half_real : (half : ℝ) = 1 / 2 := by
  simp [half]

/-- Four is four. -/
@[simp] theorem four_real : (four : ℝ) = 4 := by
  simp [four]

/-- Without NaNs the maximum is the maximum. -/
@[simp] theorem maxNum_real (a b : ℝ) : maxNum a b = max a b := by
  rcases lt_or_ge a b with h | h
  · simp [maxNum, h, h.le]
  · simp [maxNum, h, h.not_gt]

/-- Without NaNs the minimum is the minimum. -/
@[simp] theorem minNum_real (a b : ℝ) : minNum a b = min a b := by
  rcases lt_or_ge b a with h | h
  · simp [minNum, h, h.le]
  · simp [minNum, h, h.not_gt]

/-- Zero has the sign one. -/
theorem sign_real (x : ℝ) : Scalar.sign x = if 0 ≤ x then 1 else -1 := by
  simp [Scalar.sign, copySign_real]

/-- A number is its absolute value with its sign. -/
theorem abs_mul_sign (x : ℝ) : |x| * Scalar.sign x = x := by
  rw [sign_real]
  split
  · rw [abs_of_nonneg ‹_›, mul_one]
  · rw [abs_of_neg (not_le.mp ‹_›), mul_neg_one, neg_neg]

/-- A number with its sign is its absolute value. -/
theorem mul_sign (x : ℝ) : x * Scalar.sign x = |x| := by
  rw [sign_real]
  split
  · rw [abs_of_nonneg ‹_›, mul_one]
  · rw [abs_of_neg (not_le.mp ‹_›), mul_neg_one]

/-- Signs are one in magnitude. -/
theorem sign_sq (x : ℝ) : (Scalar.sign x : ℝ) ^ 2 = 1 := by
  rw [sign_real]
  split <;> norm_num

/-- Scaling by a positive factor keeps the sign. -/
theorem sign_mul_of_pos {factor : ℝ} (h : 0 < factor) (x : ℝ) :
    (Scalar.sign (factor * x) : ℝ) = Scalar.sign x := by
  rw [sign_real, sign_real]
  simp [mul_nonneg_iff_of_pos_left h]

/-- The distance from one to the next number is positive. -/
theorem epsilon_pos : 0 < (epsilon : ℝ) := by
  change 0 < ((2 : ℝ) ^ 52)⁻¹
  positivity

/-- The smallest normal number is positive. -/
theorem minPositive_pos : 0 < (minPositive : ℝ) := by
  change 0 < ((2 : ℝ) ^ 1022)⁻¹
  positivity

/-- The distance from one to the next number is small. -/
theorem epsilon_le : (epsilon : ℝ) ≤ 1 / 4 := by
  change ((2 : ℝ) ^ 52)⁻¹ ≤ 1 / 4
  norm_num

/-- The least normal number is far below the relative precision. -/
theorem minPositive_le_epsilon_sq : (minPositive : ℝ) ≤ epsilon ^ 2 := by
  change ((2 : ℝ) ^ 1022)⁻¹ ≤ (((2 : ℝ) ^ 52)⁻¹) ^ 2
  rw [inv_pow, ← pow_mul]
  exact inv_anti₀ (by positivity) (pow_le_pow_right₀ one_le_two (by norm_num))

/-- The smallest normal number is small. -/
theorem minPositive_le : (minPositive : ℝ) ≤ 1 / 4 := by
  nlinarith [minPositive_le_epsilon_sq, epsilon_le, epsilon_pos]

/-- The number that is safe to divide by is positive. -/
theorem safeMin_pos : 0 < (safeMin : ℝ) :=
  div_pos minPositive_pos epsilon_pos

/-- Numbers below the safe minimum are far below the relative precision. -/
theorem safeMin_le_epsilon : (safeMin : ℝ) ≤ epsilon := by
  rw [safeMin, div_le_iff₀ epsilon_pos, ← sq]
  exact minPositive_le_epsilon_sq

/-- A sum from left to right is the sum. -/
theorem sumTo_real (n : Nat) (f : Nat → ℝ) : sumTo n f = ∑ i ∈ Finset.range n, f i := by
  induction n with
  | zero => rfl
  | succ n ih => rw [sumTo, ih, Finset.sum_range_succ]

/-- Sums over a range are sums over an interval. -/
theorem sumRange_real (lo hi : Nat) (f : Nat → ℝ) :
    sumRange lo hi f = ∑ i ∈ Finset.Ico lo hi, f i := by
  rw [sumRange, sumTo_real, Finset.sum_Ico_eq_sum_range]

/-- Maxima start from zero. -/
theorem maxTo_nonneg (n : Nat) (f : Nat → ℝ) : 0 ≤ maxTo n f := by
  induction n with
  | zero => exact le_rfl
  | succ n ih =>
    rw [maxTo, maxNum_real]
    exact ih.trans (le_max_left _ _)

/-- The largest of zero and some values is bounded by every non-negative bound of the values. -/
theorem maxTo_le_iff {n : Nat} {f : Nat → ℝ} {bound : ℝ} (hbound : 0 ≤ bound) :
    maxTo n f ≤ bound ↔ ∀ i < n, f i ≤ bound := by
  induction n with
  | zero => exact ⟨fun _ i hi => absurd hi i.not_lt_zero, fun _ => hbound⟩
  | succ n ih =>
    rw [maxTo, maxNum_real, max_le_iff, ih]
    constructor
    · rintro ⟨hlow, hlast⟩ i hi
      rcases Nat.lt_succ_iff_lt_or_eq.mp hi with hi | rfl
      · exact hlow i hi
      · exact hlast
    · exact fun h => ⟨fun i hi => h i (hi.trans n.lt_succ_self), h n n.lt_succ_self⟩

/-- No term exceeds the maximum. -/
theorem le_maxTo {n i : Nat} (f : Nat → ℝ) (hi : i < n) : f i ≤ maxTo n f :=
  (maxTo_le_iff (maxTo_nonneg n f)).mp le_rfl i hi

end Scalar

end SchurForm
