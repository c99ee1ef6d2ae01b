import SchurForm.Proofs.StandardEigenvectors
import SchurForm.Eigenvector.Pencil

/-!
# The coefficients of a pencil eigenvalue

Whatever scaling and lifting they went through, the coefficients of a real eigenvalue are its two
parts multiplied by one positive number, and those of a conjugate pair are the eigenvalue multiplied
by a positive first coefficient. Lifting can raise a coefficient close to the largest number, while
no entry of the pencil shifted by a conjugate pair is larger than two.
-/

namespace SchurForm

open Scalar Block

variable {n : Nat}

/-- The number by which the second matrix of a pencil is multiplied. -/
noncomputable def PencilShift.b (shift : PencilShift ℝ) : ℂ := ⟨shift.re, shift.im⟩

/-- The largest sum of magnitudes bounds every entry. -/
theorem Mat.abs_get_le_columnNorm (a : Mat n n ℝ) (i j : Nat) : |a.get i j| ≤ a.columnNorm := by
  by_cases hij : i < n ∧ j < n
  · have hcolumn : |a.get i j| ≤ a.columnSumAbove n j := by
      rw [Mat.columnSumAbove, sumTo_real]
      exact Finset.single_le_sum (f := fun r => |a.get r j|) (fun r _ => abs_nonneg _)
        (Finset.mem_range.mpr hij.1)
    exact hcolumn.trans (le_maxTo (fun c => a.columnSumAbove n c) hij.2)
  · have hzero : a.get i j = 0 := by
      rcases not_and_or.mp hij with hi | hj
      · exact a.get_of_rows_le (Nat.le_of_not_lt hi) j
      · exact a.get_of_cols_le i (Nat.le_of_not_lt hj)
    rw [hzero, abs_zero]
    exact maxTo_nonneg _ _

/-- The product of the order with the least normal number is small compared with the relative
precision. -/
theorem minPositive_mul_le_epsilon (hn : n < 2 ^ 64) : minPositive * (n : ℝ) ≤ epsilon := by
  have hn : (n : ℝ) ≤ 2 ^ 64 := by exact_mod_cast hn.le
  have hconstants : (minPositive : ℝ) * 2 ^ 64 ≤ epsilon := by
    change ((2 : ℝ) ^ 1022)⁻¹ * 2 ^ 64 ≤ ((2 : ℝ) ^ 52)⁻¹
    rw [inv_mul_le_iff₀ (by positivity), ← div_eq_mul_inv, le_div_iff₀ (by positivity), ← pow_add]
    exact pow_le_pow_right₀ one_le_two (by norm_num)
  exact (mul_le_mul_of_nonneg_left hn minPositive_pos.le).trans hconstants

namespace PencilSweep

/-- The norms of a sweep bound the entries of its matrices, and its scales are their reciprocals. -/
structure Normed (sweep : PencilSweep n ℝ) : Prop where
  le_normS : ∀ i j, |sweep.s.get i j| ≤ sweep.normS
  le_normT : ∀ i j, |sweep.t.get i j| ≤ sweep.normT
  scaleS : sweep.scaleS = 1 / max sweep.normS minPositive
  scaleT : sweep.scaleT = 1 / max sweep.normT minPositive

/-- The sweep of a pencil has the norms and the scales of the pencil. -/
theorem normed_ofPencil (s t : Mat n n ℝ) (blocks : List (Block ℝ)) :
    (ofPencil s t blocks).Normed where
  le_normS := s.abs_get_le_columnNorm
  le_normT := t.abs_get_le_columnNorm
  scaleS := congrArg (1 / ·) (maxNum_real _ _)
  scaleT := congrArg (1 / ·) (maxNum_real _ _)

variable {sweep : PencilSweep n ℝ}

section Scales

variable (h : sweep.Normed)

include h

/-- The scale of the first matrix is positive. -/
theorem Normed.scaleS_pos : 0 < sweep.scaleS :=
  h.scaleS ▸ one_div_pos.mpr (minPositive_pos.trans_le (le_max_right _ _))

/-- The scale of the second matrix is positive. -/
theorem Normed.scaleT_pos : 0 < sweep.scaleT :=
  h.scaleT ▸ one_div_pos.mpr (minPositive_pos.trans_le (le_max_right _ _))

/-- The scale brings the norm of the first matrix down to one. -/
theorem Normed.scaleS_mul_normS_le : sweep.scaleS * sweep.normS ≤ 1 := by
  rw [h.scaleS, one_div_mul_eq_div]
  exact div_le_one_of_le₀ (le_max_left _ _) (minPositive_pos.le.trans (le_max_right _ _))

/-- The scale brings the norm of the second matrix down to one. -/
theorem Normed.scaleT_mul_normT_le : sweep.scaleT * sweep.normT ≤ 1 := by
  rw [h.scaleT, one_div_mul_eq_div]
  exact div_le_one_of_le₀ (le_max_left _ _) (minPositive_pos.le.trans (le_max_right _ _))

/-- The first coefficient is lifted only if the first matrix is not zero. -/
theorem Normed.normS_pos_of_lift {beta small : ℝ} (hsmall : small ≤ 1)
    (hbeta : minPositive ≤ |beta|) (ha : |beta * sweep.scaleS| < small) : 0 < sweep.normS := by
  by_contra hzero
  have hscale : sweep.scaleS = 1 / minPositive := by
    rw [h.scaleS, max_eq_right ((not_lt.mp hzero).trans minPositive_pos.le)]
  have hone : 1 ≤ |beta| * sweep.scaleS := by
    rwa [hscale, mul_one_div, one_le_div₀ minPositive_pos]
  rw [abs_mul, abs_of_pos h.scaleS_pos] at ha
  linarith

end Scales

/-- The number that lifts the coefficients is positive, whichever of them ask for it. -/
theorem liftScale_pos {liftA liftB : Bool} {small normS normT alpha beta a b : ℝ}
    (hsmall : 0 < small) (hliftA : liftA = true → 0 < |beta| ∧ 0 < normS) :
    let first := if liftA then small / |beta| * min normS (1 / small) else 1
    let second := if liftB then max first (small / |alpha| * min normT (1 / small)) else first
    0 < min second (1 / (minPositive * max (max 1 |a|) |b|)) := by
  intro first second
  have hfirst : 0 < first := by
    cases hcase : liftA with
    | true =>
      obtain ⟨hbeta, hnorm⟩ := hliftA hcase
      simp only [first, hcase, if_true]
      exact mul_pos (div_pos hsmall hbeta) (lt_min hnorm (one_div_pos.mpr hsmall))
    | false => simp [first, hcase]
  have hsecond : 0 < second := by
    simp only [second]
    split
    · exact hfirst.trans_le (le_max_left _ _)
    · exact hfirst
  have hsize : 0 < max (max 1 |a|) |b| :=
    one_pos.trans_le ((le_max_left _ _).trans (le_max_left _ _))
  exact lt_min hsecond (one_div_pos.mpr (mul_pos minPositive_pos hsize))

/-- The coefficients of a real eigenvalue are its two parts, multiplied by one positive number. -/
theorem Normed.exists_shiftOfReal_eq (h : sweep.Normed) (hpos : 0 < n) (hn : n < 2 ^ 64)
    (alpha beta : ℝ) : ∃ factor : ℝ, 0 < factor ∧
      sweep.shiftOfReal alpha beta = ⟨factor * beta, factor * alpha, 0⟩ := by
  set small : ℝ := minPositive * (n : ℝ) / epsilon with hsmalldef
  set temp : ℝ := 1 / max (max (|alpha| * sweep.scaleS) (|beta| * sweep.scaleT)) minPositive
  set alphaScaled := temp * alpha * sweep.scaleS with halpha
  set betaScaled := temp * beta * sweep.scaleT with hbeta
  set a := betaScaled * sweep.scaleS with ha
  set b := alphaScaled * sweep.scaleT with hb
  set liftA := decide (minPositive ≤ |betaScaled|) && decide (|a| < small) with hliftA
  set liftB := decide (minPositive ≤ |alphaScaled|) && decide (|b| < small)
  set first : ℝ := if liftA then small / |betaScaled| * min sweep.normS (1 / small) else 1
  set second : ℝ :=
    if liftB then max first (small / |alphaScaled| * min sweep.normT (1 / small)) else first
  set scale := min second (1 / (minPositive * max (max 1 |a|) |b|))
  have hshift : sweep.shiftOfReal alpha beta = if liftA || liftB then
      ⟨if liftA then sweep.scaleS * (scale * betaScaled) else scale * a,
        if liftB then sweep.scaleT * (scale * alphaScaled) else scale * b, 0⟩ else ⟨a, b, 0⟩ := by
    simp only [shiftOfReal, maxNum_real, minNum_real, abs_real]
    rfl
  have hscale : 0 < scale := by
    have hsmall : small ≤ 1 := div_le_one_of_le₀ (minPositive_mul_le_epsilon hn) epsilon_pos.le
    refine liftScale_pos (div_pos (mul_pos minPositive_pos (by exact_mod_cast hpos)) epsilon_pos)
      fun hlift => ?_
    rw [hliftA, Bool.and_eq_true, decide_eq_true_eq, decide_eq_true_eq] at hlift
    exact ⟨minPositive_pos.trans_le hlift.1, h.normS_pos_of_lift hsmall hlift.1 hlift.2⟩
  set common := temp * sweep.scaleS * sweep.scaleT with hcommondef
  have hcommon : 0 < common := by
    have htemp : 0 < temp := one_div_pos.mpr (minPositive_pos.trans_le (le_max_right _ _))
    exact mul_pos (mul_pos htemp h.scaleS_pos) h.scaleT_pos
  have ha_eq : a = common * beta := by rw [ha, hbeta, hcommondef]; ring
  have hb_eq : b = common * alpha := by rw [hb, halpha, hcommondef]; ring
  rw [hshift]
  split
  -- A lifted coefficient is multiplied by the same number as one that is not.
  · have hlifted_a : (if liftA then sweep.scaleS * (scale * betaScaled) else scale * a) =
        scale * common * beta := by
      rw [mul_assoc, ← ha_eq, ha]
      split <;> ring
    have hlifted_b : (if liftB then sweep.scaleT * (scale * alphaScaled) else scale * b) =
        scale * common * alpha := by
      rw [mul_assoc, ← hb_eq, hb]
      split <;> ring
    exact ⟨scale * common, mul_pos hscale hcommon, by rw [hlifted_a, hlifted_b]⟩
  · exact ⟨common, hcommon, by rw [ha_eq, hb_eq]⟩

/-- The coefficients of a conjugate pair are the eigenvalue multiplied by a positive number, and
they are bounded by the reciprocals of the norms. -/
theorem Normed.exists_shiftOfPair_eq (h : sweep.Normed) (re im : ℝ) : ∃ a : ℝ, 0 < a ∧
    sweep.shiftOfPair re im = ⟨a, a * re, a * im⟩ ∧ a * sweep.normS ≤ 1 ∧
      (|a * re| + |a * im|) * sweep.normT ≤ 1 := by
  have hscaleS := h.scaleS_pos
  have hscaleT := h.scaleT_pos
  set ratio := sweep.scaleS / sweep.scaleT with hratio
  set size := |re * ratio| + |im * ratio| with hsize
  have hone : 0 < max 1 size := one_pos.trans_le (le_max_left _ _)
  have hmul (x : ℝ) : sweep.scaleS * (1 / max 1 size) * x =
      sweep.scaleT * (x * ratio) * (1 / max 1 size) := by
    rw [hratio]
    field_simp
  refine ⟨sweep.scaleS * (1 / max 1 size), mul_pos hscaleS (one_div_pos.mpr hone), ?_, ?_, ?_⟩
  · rw [hmul, hmul]
    simp only [shiftOfPair, maxNum_real, abs_real]
    rfl
  · have hc : 1 / max 1 size ≤ 1 := (div_le_one hone).mpr (le_max_left _ _)
    have hnorm : 0 ≤ sweep.normS := (abs_nonneg _).trans (h.le_normS 0 0)
    calc sweep.scaleS * (1 / max 1 size) * sweep.normS
        = sweep.scaleS * sweep.normS * (1 / max 1 size) := by ring
      _ ≤ 1 * 1 := mul_le_mul h.scaleS_mul_normS_le hc (one_div_pos.mpr hone).le one_pos.le
      _ = 1 := one_mul 1
  · have hc : size * (1 / max 1 size) ≤ 1 := by
      rw [mul_one_div]
      exact div_le_one_of_le₀ (le_max_right _ _) hone.le
    have hsize_nonneg : 0 ≤ size * (1 / max 1 size) :=
      mul_nonneg (add_nonneg (abs_nonneg _) (abs_nonneg _)) (one_div_pos.mpr hone).le
    have habs (x : ℝ) : |sweep.scaleT * (x * ratio) * (1 / max 1 size)| =
        sweep.scaleT * |x * ratio| * (1 / max 1 size) := by
      rw [abs_mul, abs_mul, abs_of_pos hscaleT, abs_of_pos (one_div_pos.mpr hone)]
    rw [hmul, hmul, habs, habs]
    calc (sweep.scaleT * |re * ratio| * (1 / max 1 size) +
          sweep.scaleT * |im * ratio| * (1 / max 1 size)) * sweep.normT
        = sweep.scaleT * sweep.normT * (size * (1 / max 1 size)) := by rw [hsize]; ring
      _ ≤ 1 * 1 := mul_le_mul h.scaleT_mul_normT_le hc hsize_nonneg one_pos.le
      _ = 1 := one_mul 1

/-- An entry of `a S - b T`. -/
noncomputable def entry (sweep : PencilSweep n ℝ) (shift : PencilShift ℝ) (i c : Nat) : ℂ :=
  shift.a * sweep.s.get i c - shift.b * sweep.t.get i c

/-- The norms bound the entries of the shifted pencil. -/
theorem Normed.magnitude_entry_le (h : sweep.Normed) (shift : PencilShift ℝ) (i c : Nat) :
    magnitude (sweep.entry shift i c) ≤
      |shift.a| * sweep.normS + (|shift.re| + |shift.im|) * sweep.normT := by
  have hs : |shift.a * sweep.s.get i c| ≤ |shift.a| * sweep.normS := by
    rw [abs_mul]
    exact mul_le_mul_of_nonneg_left (h.le_normS i c) (abs_nonneg _)
  have ht : magnitude (shift.b * sweep.t.get i c) ≤ (|shift.re| + |shift.im|) * sweep.normT := by
    rw [magnitude, Complex.re_mul_ofReal, Complex.im_mul_ofReal, abs_mul, abs_mul, ← add_mul]
    exact mul_le_mul_of_nonneg_left (h.le_normT i c) (add_nonneg (abs_nonneg _) (abs_nonneg _))
  rw [← magnitude_ofReal, Complex.ofReal_mul] at hs
  exact (magnitude_sub_le _ _).trans (add_le_add hs ht)

/-- No entry of a pencil shifted by a conjugate pair is too large to be solved for. -/
theorem Normed.magnitude_entry_shiftOfPair_le (h : sweep.Normed) (re im : ℝ) (i c : Nat) :
    magnitude (sweep.entry (sweep.shiftOfPair re im) i c) ≤ ShiftedEquation.largest := by
  obtain ⟨a, ha, hshift, hs, ht⟩ := h.exists_shiftOfPair_eq re im
  have hentry := h.magnitude_entry_le (sweep.shiftOfPair re im) i c
  rw [hshift] at hentry ⊢
  rw [abs_of_pos ha] at hentry
  linarith [ShiftedEquation.two_le_largest]

end PencilSweep

end SchurForm
