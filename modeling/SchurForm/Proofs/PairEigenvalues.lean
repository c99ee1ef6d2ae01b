import SchurForm.Proofs.BoundedArithmetic
import SchurForm.Block.Recognition
import SchurForm.Proofs.BoundedMatrices
import SchurForm.Proofs.SchurFormCriterion

/-!
# Eigenvalues of accepted pairs

Recognition accepts a block of order two unless its scaled discriminant compares as not negative,
which a NaN does not. The sum and the difference of the diagonal entries, and for a pencil the
quotients, are formed before scaling and may overflow; what is accepted is then no eigenvalue. As
long as they are finite, the scaled entries lie between minus one and one, the root of the
discriminant is at most one, and nothing overflows. For a negative discriminant the largest entry
has to stand off the diagonal, so that the product in the discriminant is the other scaled entry.
It exceeds the square by its last place at least, and this keeps the imaginary part from vanishing
unless the entries are next to the least normal number.
-/

namespace SchurForm

open Scalar Binary64

variable {a b c d re im x : Float}

section Parts

variable {α : Type} [Scalar α]

/-- The number by which the discriminant of a block is scaled. -/
def pairScale (a b c d : α) : α :=
  maxNum (maxNum (abs (half * (a - d))) (abs b)) (abs c)

/-- A quarter of the discriminant of the scaled block. -/
def scaledDiscriminant (a b c d : α) : α :=
  let p := half * (a - d)
  let scale := pairScale a b c d
  (p / scale) * (p / scale) + (b / scale) * (c / scale)

/-- A block of order two has a complex eigenvalue unless it is a multiple of the identity or its
scaled discriminant is not negative. -/
theorem complexEigenvalue?_eq_some {a b c d re im : α} :
    complexEigenvalue? a b c d = some (re, im) ↔ (pairScale a b c d == 0) = false ∧
      ¬0 ≤ scaledDiscriminant a b c d ∧ half * (a + d) = re ∧
        pairScale a b c d * sqrt (-scaledDiscriminant a b c d) = im := by
  have hdef : complexEigenvalue? a b c d = if pairScale a b c d == 0 then none
      else if 0 ≤ scaledDiscriminant a b c d then none
      else some (half * (a + d), pairScale a b c d * sqrt (-scaledDiscriminant a b c d)) := rfl
  rw [hdef]
  split_ifs with hzero hreal
  · simp [hzero]
  · simp [hreal]
  · simp [hzero, hreal]

end Parts

/-- Half of a number is finite if the number is. -/
theorem isFinite_half_mul : (half * x).isFinite = true ↔ x.isFinite = true := by
  refine ⟨fun h => (isFinite_of_mul h).2, fun hx => ?_⟩
  refine ((isRounded_mul (by decide) hx).within (onGrid_toReal x).abs ?_ (abs_toReal_lt x)).isFinite
  rw [toReal_half, abs_mul, abs_of_pos one_half_pos]
  linarith [abs_nonneg (toReal x)]

section Finite

variable (hp : (half * (a - d)).isFinite = true) (hb : b.isFinite = true) (hc : c.isFinite = true)

include hp hb hc

/-- The scale of a block is finite if what it is the maximum of is. -/
theorem isFinite_pairScale : (pairScale a b c d).isFinite = true :=
  isFinite_maxNum (isFinite_maxNum ((isFinite_abs_iff _).trans hp) ((isFinite_abs_iff b).trans hb))
    ((isFinite_abs_iff c).trans hc)

/-- The scale is the largest magnitude of half the difference and the entries beside the diagonal.
-/
theorem toReal_pairScale : toReal (pairScale a b c d) =
    max (max |toReal (half * (a - d))| |toReal b|) |toReal c| := by
  have hp' := (isFinite_abs_iff (half * (a - d))).trans hp
  have hb' := (isFinite_abs_iff b).trans hb
  have hc' := (isFinite_abs_iff c).trans hc
  rw [← toReal_abs, ← toReal_abs, ← toReal_abs, ← toReal_maxNum hp' hb',
    ← toReal_maxNum (isFinite_maxNum hp' hb') hc']
  rfl

end Finite

/-- A number that is divided by a larger one. -/
theorem within_ratio {y : Float} (hx : x.isFinite = true) (hy : y.isFinite = true)
    (hpos : 0 < toReal y) (hle : |toReal x| ≤ toReal y) : Within 1 (x / y) := by
  refine within_div hx hy hpos.ne' ?_ onGrid_one one_lt_two_zpow_1024
  rwa [one_mul, abs_of_pos hpos]

/-- A number that is divided by its own magnitude. -/
theorem abs_toReal_div {y : Float} (hx : x.isFinite = true) (hy : y.isFinite = true)
    (hpos : 0 < toReal y) (heq : |toReal x| = toReal y) : |toReal (x / y)| = 1 :=
  (isRounded_div hx hy hpos.ne').abs_eq (within_ratio hx hy hpos heq.le).isFinite onGrid_one
    (by rw [abs_div, abs_of_pos hpos, heq, div_self hpos.ne'])

section Discriminant

variable {p q r : Float} (hp : Within 1 p) (hq : Within 1 q) (hr : Within 1 r)

include hq hr in
/-- The product of two scaled entries is at most one. -/
theorem product_within : Within 1 (q * r) := by
  simpa using hq.mul hr (by simpa using onGrid_one) (by simpa using one_lt_two_zpow_1024)

include hp in
/-- The square of a scaled number lies between zero and one. -/
theorem square_bounds : Within 1 (p * p) ∧ 0 ≤ toReal (p * p) := by
  have hwithin := product_within hp hp
  exact ⟨hwithin, square_nonneg hwithin.isFinite⟩

include hp hq hr in
/-- The discriminant is the rounded sum of the square and the product. -/
theorem isRounded_discriminant : IsRounded (toReal (p * p) + toReal (q * r))
    (datum (p * p + q * r)) :=
  isRounded_add (square_bounds hp).1.isFinite (product_within hq hr).isFinite

include hp hq hr in
/-- The discriminant is at most two in magnitude. -/
theorem discriminant_within : Within 2 (p * p + q * r) := by
  have htwo : (1 : ℝ) + 1 = 2 ^ (1 : ℤ) := by norm_num
  have hsum := (square_bounds hp).1.add (product_within hq hr)
    (htwo ▸ onGrid_two_zpow (by norm_num)) (htwo ▸ zpow_lt_zpow_right₀ one_lt_two (by norm_num))
  rwa [one_add_one_eq_two] at hsum

include hp hq hr in
/-- The discriminant is at least minus one. -/
theorem neg_one_le_discriminant : -1 ≤ toReal (p * p + q * r) :=
  (isRounded_discriminant hp hq hr).ge (discriminant_within hp hq hr).isFinite _ onGrid_one.neg
    (by linarith [(square_bounds hp).2, (abs_le.mp (product_within hq hr).abs_le).1])

variable (hneg : ¬0 ≤ p * p + q * r)

include hp hq hr hneg

/-- A discriminant that passes the test is negative. -/
theorem discriminant_neg : toReal (p * p + q * r) < 0 := by
  rwa [le_iff_toReal isFinite_zero (discriminant_within hp hq hr).isFinite, toReal_zero,
    not_le] at hneg

/-- The product outweighs the square before it is rounded. -/
theorem square_lt_product : toReal (p * p) < -toReal (q * r) := by
  by_contra hle
  exact (discriminant_neg hp hq hr hneg).not_ge ((isRounded_discriminant hp hq hr).ge
    (discriminant_within hp hq hr).isFinite 0 onGrid_zero (by linarith))

/-- The root of the negative discriminant lies between zero and one. -/
theorem root_within : Within 1 (-(p * p + q * r)).sqrt ∧ 0 ≤ toReal (-(p * p + q * r)).sqrt := by
  have hfinite := isFinite_neg (discriminant_within hp hq hr).isFinite
  have hlow := discriminant_neg hp hq hr hneg
  have hhigh := neg_one_le_discriminant hp hq hr
  rw [← neg_neg (toReal _), ← toReal_neg] at hlow hhigh
  have hrounded := isRounded_sqrt hfinite (by linarith)
  have hwithin := hrounded.within onGrid_one
    (by rw [abs_of_nonneg (Real.sqrt_nonneg _)]; exact Real.sqrt_le_one.mpr (by linarith))
    one_lt_two_zpow_1024
  exact ⟨hwithin, hrounded.ge hwithin.isFinite 0 onGrid_zero (Real.sqrt_nonneg _)⟩

/-- How far the product outweighs the square bounds the root from below. -/
theorem le_root {i : ℤ} (hi : -537 ≤ i) (hgap : 2 ^ (2 * i) ≤ -toReal (q * r) - toReal (p * p)) :
    2 ^ i ≤ toReal (-(p * p + q * r)).sqrt := by
  have hfinite := isFinite_neg (discriminant_within hp hq hr).isFinite
  have hle : toReal (p * p + q * r) ≤ -2 ^ (2 * i) :=
    (isRounded_discriminant hp hq hr).le (discriminant_within hp hq hr).isFinite _
      (onGrid_two_zpow (by omega)).neg (by linarith)
  have hroot : (2 : ℝ) ^ (2 * i) ≤ toReal (-(p * p + q * r)) := by
    rw [toReal_neg]
    linarith
  have hnonneg : 0 ≤ toReal (-(p * p + q * r)) := (by positivity : (0 : ℝ) ≤ _).trans hroot
  refine (isRounded_sqrt hfinite hnonneg).ge (root_within hp hq hr hneg).1.isFinite _
    (onGrid_two_zpow (by omega)) (Real.le_sqrt_of_sq_le ?_)
  rwa [← zpow_natCast, ← zpow_mul, Nat.cast_two, mul_comm]

end Discriminant

section Eigenvalue

variable (hp : (half * (a - d)).isFinite = true) (hb : b.isFinite = true) (hc : c.isFinite = true)
  (hscale : (pairScale a b c d == 0) = false)

include hp hb hc hscale

/-- The scale of a block with an entry beside the diagonal is positive. -/
theorem pairScale_pos : 0 < toReal (pairScale a b c d) := by
  have hnonneg : 0 ≤ toReal (pairScale a b c d) := by
    rw [toReal_pairScale hp hb hc]
    exact (abs_nonneg _).trans (le_max_right _ _)
  refine hnonneg.lt_of_ne fun hzero => ?_
  rw [(beq_iff_toReal (isFinite_pairScale hp hb hc) isFinite_zero).mpr hzero.symm] at hscale
  exact absurd hscale (by decide)

/-- A number up to the scale is at most one after division by it. -/
theorem within_scaled (hx : x.isFinite = true) (hle : |toReal x| ≤ toReal (pairScale a b c d)) :
    Within 1 (x / pairScale a b c d) :=
  within_ratio hx (isFinite_pairScale hp hb hc) (pairScale_pos hp hb hc hscale) hle

/-- The scaled block has no entry beyond one. -/
theorem within_scaledEntries : Within 1 (half * (a - d) / pairScale a b c d) ∧
    Within 1 (b / pairScale a b c d) ∧ Within 1 (c / pairScale a b c d) := by
  have hmax := toReal_pairScale hp hb hc
  exact ⟨within_scaled hp hb hc hscale hp (hmax ▸ (le_max_left _ _).trans (le_max_left _ _)),
    within_scaled hp hb hc hscale hb (hmax ▸ (le_max_right _ _).trans (le_max_left _ _)),
    within_scaled hp hb hc hscale hc (hmax ▸ le_max_right _ _)⟩

variable (hneg : ¬0 ≤ scaledDiscriminant a b c d)

include hneg

/-- The imaginary part of a complex eigenvalue is finite if the difference of the diagonal entries
is. -/
theorem imaginary_finite_nonneg :
    (pairScale a b c d * (-scaledDiscriminant a b c d).sqrt).isFinite = true ∧
      0 ≤ toReal (pairScale a b c d * (-scaledDiscriminant a b c d).sqrt) := by
  obtain ⟨hP, hB, hC⟩ := within_scaledEntries hp hb hc hscale
  obtain ⟨hroot, hnonneg⟩ := root_within hP hB hC hneg
  have hpos := pairScale_pos hp hb hc hscale
  have hrounded := isRounded_mul (isFinite_pairScale hp hb hc) hroot.isFinite
  have hwithin := hrounded.within (onGrid_toReal (pairScale a b c d)).abs
    (by
      rw [abs_mul]
      exact mul_le_of_le_one_right (abs_nonneg _) hroot.abs_le)
    (abs_toReal_lt _)
  exact ⟨hwithin.isFinite, hrounded.ge hwithin.isFinite 0 onGrid_zero (mul_nonneg hpos.le hnonneg)⟩

/-- The largest entry of a block with a complex eigenvalue stands off the diagonal. -/
theorem pairScale_eq_offDiagonal : toReal (pairScale a b c d) = |toReal b| ∨
    toReal (pairScale a b c d) = |toReal c| := by
  obtain ⟨hP, hB, hC⟩ := within_scaledEntries hp hb hc hscale
  have hpos := pairScale_pos hp hb hc hscale
  have hmax := toReal_pairScale hp hb hc
  rcases max_choice (max |toReal (half * (a - d))| |toReal b|) |toReal c| with hfirst | hlast
  · rcases max_choice |toReal (half * (a - d))| |toReal b| with hdiagonal | hupper
    · -- the square would be one, and the product does not exceed one
      have hone := abs_toReal_div hp (isFinite_pairScale hp hb hc) hpos
        (by rw [hmax, hfirst, hdiagonal])
      have hsquare := (isRounded_mul hP.isFinite hP.isFinite).toReal_eq
        (square_bounds hP).1.isFinite (by rw [← abs_mul_abs_self, hone]; simpa using onGrid_one)
      rw [← abs_mul_abs_self, hone, one_mul] at hsquare
      have hlt := square_lt_product hP hB hC hneg
      rw [hsquare] at hlt
      exact absurd (abs_le.mp (product_within hB hC).abs_le).1 (by linarith)
    · exact .inl (by rw [hmax, hfirst, hupper])
  · exact .inr (by rw [hmax, hlast])

/-- The product in the scaled discriminant is one of its factors, as the other one is one. -/
theorem exists_product_eq : ∃ x : Float, x.isFinite = true ∧
    Within 1 (x / pairScale a b c d) ∧
    -toReal (b / pairScale a b c d * (c / pairScale a b c d)) =
      |toReal (x / pairScale a b c d)| := by
  obtain ⟨hP, hB, hC⟩ := within_scaledEntries hp hb hc hscale
  have hpos := pairScale_pos hp hb hc hscale
  have hfinite := isFinite_pairScale hp hb hc
  have hproduct := isRounded_mul hB.isFinite hC.isFinite
  have hsign : toReal (b / pairScale a b c d * (c / pairScale a b c d)) ≤ 0 := by
    have hlt := square_lt_product hP hB hC hneg
    have hsquare := (square_bounds hP).2
    linarith
  rw [← abs_of_nonpos hsign]
  rcases pairScale_eq_offDiagonal hp hb hc hscale hneg with heq | heq
  · refine ⟨c, hc, hC, hproduct.abs_eq (product_within hB hC).isFinite (onGrid_toReal _).abs ?_⟩
    rw [abs_mul, abs_toReal_div hb hfinite hpos heq.symm, one_mul]
  · refine ⟨b, hb, hB, hproduct.abs_eq (product_within hB hC).isFinite (onGrid_toReal _).abs ?_⟩
    rw [abs_mul, abs_toReal_div hc hfinite hpos heq.symm, mul_one]

/-- The product outweighs the square by so much that the imaginary part does not underflow. -/
theorem exists_gap {k : ℤ} (hk : -1020 ≤ k)
    (hhigh : toReal (pairScale a b c d) < 2 ^ (k + 1)) :
    ∃ i : ℤ, -537 ≤ i ∧ -1074 ≤ k + i ∧
      2 ^ (2 * i) ≤ -toReal (b / pairScale a b c d * (c / pairScale a b c d)) -
        toReal (half * (a - d) / pairScale a b c d * (half * (a - d) / pairScale a b c d)) := by
  obtain ⟨hP, hB, hC⟩ := within_scaledEntries hp hb hc hscale
  have hlt := square_lt_product hP hB hC hneg
  have hsquare := (square_bounds hP).2
  have hpos := pairScale_pos hp hb hc hscale
  rcases lt_or_ge k (-537) with hsmall | hlarge
  · -- the quotient of the smaller entry by a small scale is far above the least number
    obtain ⟨x, hx, hwithin, heq⟩ := exists_product_eq hp hb hc hscale hneg
    have hne : toReal x ≠ 0 := by
      intro hzero
      have hquotient := (isRounded_div hx (isFinite_pairScale hp hb hc) hpos.ne').toReal_eq
        hwithin.isFinite (by rw [hzero, zero_div]; exact onGrid_zero)
      rw [hquotient, hzero, zero_div, abs_zero] at heq
      linarith
    have hbound : (2 : ℝ) ^ (-1075 - k) ≤ |toReal x / toReal (pairScale a b c d)| := by
      rw [abs_div, abs_of_pos hpos, le_div_iff₀ hpos]
      calc (2 : ℝ) ^ (-1075 - k) * toReal (pairScale a b c d)
          ≤ 2 ^ (-1075 - k) * 2 ^ (k + 1) := by gcongr
        _ = 2 ^ (-1074 : ℤ) := by
          rw [← zpow_add₀ two_ne_zero]
          congr 1
          ring
        _ ≤ |toReal x| := (onGrid_toReal x).abs_ge hne
    have hquotient := (isRounded_div hx (isFinite_pairScale hp hb hc) hpos.ne').abs_ge
      hwithin.isFinite (onGrid_two_zpow (by omega)) hbound
    refine ⟨(-1128 - k) / 2, by omega, by omega, ?_⟩
    calc (2 : ℝ) ^ (2 * ((-1128 - k) / 2)) ≤ 2 ^ (-1075 - k - 53) :=
          zpow_le_zpow_right₀ one_le_two (by omega)
      _ ≤ _ := (onGrid_toReal _).neg.le_sub_of_le (onGrid_toReal _) hsquare hlt
        (heq.symm ▸ hquotient)
  · exact ⟨-537, le_rfl, by omega, (onGrid_toReal _).neg.le_sub (onGrid_toReal _) hlt⟩

/-- The imaginary part of a complex eigenvalue does not vanish unless the entries off the diagonal
are next to the least normal number. -/
theorem imaginary_pos (hlow : 2 ^ (-1020 : ℤ) ≤ max |toReal b| |toReal c|) :
    0 < toReal (pairScale a b c d * (-scaledDiscriminant a b c d).sqrt) := by
  obtain ⟨hP, hB, hC⟩ := within_scaledEntries hp hb hc hscale
  have hpos := pairScale_pos hp hb hc hscale
  have hscaleLow : (2 : ℝ) ^ (-1020 : ℤ) ≤ toReal (pairScale a b c d) := by
    rw [toReal_pairScale hp hb hc]
    exact hlow.trans (max_le_max_right _ (le_max_right _ _))
  set k := Int.log 2 (toReal (pairScale a b c d))
  have hkLow : (2 : ℝ) ^ k ≤ toReal (pairScale a b c d) := by
    exact_mod_cast Int.zpow_log_le_self one_lt_two hpos
  have hkHigh : toReal (pairScale a b c d) < 2 ^ (k + 1) := by
    exact_mod_cast Int.lt_zpow_succ_log_self one_lt_two (toReal (pairScale a b c d))
  have hkBound : -1020 ≤ k :=
    (Int.zpow_le_iff_le_log one_lt_two hpos).mp (by exact_mod_cast hscaleLow)
  obtain ⟨i, hi, hki, hgap⟩ := exists_gap hp hb hc hscale hneg hkBound hkHigh
  have hroot := le_root hP hB hC hneg hi hgap
  have hfinite := (imaginary_finite_nonneg hp hb hc hscale hneg).1
  have hproduct := (isRounded_mul (isFinite_pairScale hp hb hc)
    (root_within hP hB hC hneg).1.isFinite).ge hfinite (2 ^ (k + i)) (onGrid_two_zpow hki)
    (by
      rw [zpow_add₀ two_ne_zero]
      exact mul_le_mul hkLow hroot (by positivity) hpos.le)
  exact (by positivity : (0 : ℝ) < 2 ^ (k + i)).trans_le hproduct

end Eigenvalue

/-- The eigenvalue of an accepted block: its real part is finite if the sum of the diagonal entries
is, and its imaginary part if their difference and the other entries are. An imaginary part that is
finite is not negative, and it is positive unless the entries off the diagonal are next to the least
normal number. -/
structure Block.EigenvalueOf (a b c d re im : Float) : Prop where
  re_isFinite : re.isFinite = true ↔ (a + d).isFinite = true
  im_isFinite : im.isFinite = true ↔
    (a - d).isFinite = true ∧ b.isFinite = true ∧ c.isFinite = true
  im_nonneg : im.isFinite = true → 0 ≤ im
  im_pos : im.isFinite = true → powerOfTwo (-1020) ≤ maxNum b.abs c.abs → 0 < im

/-- A finite imaginary part has finite entries. -/
theorem isFinite_of_imaginary
    (h : (pairScale a b c d * (-scaledDiscriminant a b c d).sqrt).isFinite = true) :
    (a - d).isFinite = true ∧ b.isFinite = true ∧ c.isFinite = true := by
  have hdiscriminant : (scaledDiscriminant a b c d).isFinite = true :=
    (isFinite_neg_iff _).symm.trans (isFinite_of_sqrt (isFinite_of_mul h).2)
  obtain ⟨hsquare, hproduct⟩ := isFinite_of_add hdiscriminant
  obtain ⟨hb, hc⟩ := isFinite_of_mul hproduct
  exact ⟨isFinite_half_mul.mp (isFinite_of_div (isFinite_of_mul hsquare).1),
    isFinite_of_div hb, isFinite_of_div hc⟩

/-- What is computed as the eigenvalue of a block has the properties that the rounding leaves. -/
theorem eigenvalueOf_of_complexEigenvalue? (h : complexEigenvalue? a b c d = some (re, im)) :
    Block.EigenvalueOf a b c d re im := by
  obtain ⟨hscale, hneg, rfl, rfl⟩ := complexEigenvalue?_eq_some.mp h
  refine ⟨isFinite_half_mul, ⟨isFinite_of_imaginary, fun ⟨hdiff, hb, hc⟩ => ?_⟩,
    fun him => ?_, fun him hlow => ?_⟩
  · exact (imaginary_finite_nonneg (isFinite_half_mul.mpr hdiff) hb hc hscale hneg).1
  · obtain ⟨hdiff, hb, hc⟩ := isFinite_of_imaginary him
    exact (le_iff_toReal isFinite_zero him).mpr
      (imaginary_finite_nonneg (isFinite_half_mul.mpr hdiff) hb hc hscale hneg).2
  · obtain ⟨hdiff, hb, hc⟩ := isFinite_of_imaginary him
    have hb' := (isFinite_abs_iff b).trans hb
    have hc' := (isFinite_abs_iff c).trans hc
    rw [le_iff_toReal (isFinite_powerOfTwo (by norm_num) (by norm_num)) (isFinite_maxNum hb' hc'),
      toReal_powerOfTwo (by norm_num) (by norm_num), toReal_maxNum hb' hc', toReal_abs, toReal_abs]
      at hlow
    exact (lt_iff_toReal isFinite_zero him).mpr
      (imaginary_pos (isFinite_half_mul.mpr hdiff) hb hc hscale hneg hlow)

/-- A scan keeps the eigenvalues that it was supplied with. -/
theorem pair_of_scanBlocks {α : Type} [Scalar α] {n : Nat} {s : Mat n n α}
    {pair : Nat → Except (FormError α) (α × α)} {left k : Nat} {blocks : List (Block α)}
    (h : scanBlocks s pair left k = .ok blocks) {row : Nat} {re im : α}
    (hmem : .pair row re im ∈ blocks) : pair row = .ok (re, im) := by
  fun_induction scanBlocks s pair left k generalizing blocks with
  | case1 k =>
    obtain rfl : [] = blocks := by simpa using h
    cases hmem
  | case2 k =>
    obtain rfl : [Block.real k] = blocks := by simpa using h
    simp at hmem
  | case3 => cases h
  | case4 left k _ _ ih =>
    obtain ⟨⟨re, im⟩, hpair, h⟩ := checked_bind_eq_ok.mp h
    obtain ⟨rest, hrest, h⟩ := checked_bind_eq_ok.mp h
    obtain rfl : Block.pair k re im :: rest = blocks := by simpa [pure, Except.pure] using h
    rcases List.mem_cons.mp hmem with heq | hrow
    · obtain ⟨rfl, rfl, rfl⟩ := Block.pair.inj heq
      exact hpair
    · exact ih hrest hrow
  | case5 left k _ ih =>
    obtain ⟨rest, hrest, h⟩ := checked_bind_eq_ok.mp h
    obtain rfl : Block.real k :: rest = blocks := by simpa [pure, Except.pure] using h
    rcases List.mem_cons.mp hmem with heq | hrow
    · cases heq
    · exact ih hrest hrow

/-- A pair that is required is the one that the block has. -/
theorem requirePair_eq_ok {α : Type} [Scalar α] {n : Nat} {s : Mat n n α} {k : Nat} {re im : α}
    (h : requirePair s k = .ok (re, im)) : pairAt s k = some (re, im) := by
  unfold requirePair at h
  split at h
  · rename_i eigenvalue heq
    rw [heq, Except.ok.inj h]
  · cases h

/-- A pair that is required of a pencil is the one of the quotients. -/
theorem requirePencilPair_eq_ok {α : Type} [Scalar α] {n : Nat} {s t : Mat n n α} {k : Nat}
    {re im : α} (h : requirePencilPair s t k = .ok (re, im)) :
    complexEigenvalue? (s.get k k / t.get k k) (s.get k (k + 1) / t.get k k)
      (s.get (k + 1) k / t.get (k + 1) (k + 1))
      (s.get (k + 1) (k + 1) / t.get (k + 1) (k + 1)) = some (re, im) := by
  unfold requirePencilPair at h
  split_ifs at h
  split at h
  · rename_i eigenvalue heq
    rw [pencilPairAt, pencilComplexEigenvalue?] at heq
    split_ifs at heq
    rw [heq, Except.ok.inj h]
  · cases h

/-- Recognition of matrices of any dimensions accepts a block of order two only with an eigenvalue
whose parts are finite as far as the sum and the difference of its diagonal entries are, for a
pencil those of the quotients by the second matrix. A finite imaginary part is positive unless the
entries off the diagonal are next to the least normal number. -/
theorem recognized_pair_eigenvalue (s t : Table Float) (blocks : List (Block Float)) :
    (s.diagonalBlocks = .ok blocks → ∀ k re im, .pair k re im ∈ blocks →
      Block.EigenvalueOf (s.mat.get k k) (s.mat.get k (k + 1)) (s.mat.get (k + 1) k)
        (s.mat.get (k + 1) (k + 1)) re im) ∧
    (s.pencilBlocks t = .ok blocks → ∀ k re im, .pair k re im ∈ blocks →
      Block.EigenvalueOf (s.mat.get k k / t.mat.get k k) (s.mat.get k (k + 1) / t.mat.get k k)
        (s.mat.get (k + 1) k / t.mat.get (k + 1) (k + 1))
        (s.mat.get (k + 1) (k + 1) / t.mat.get (k + 1) (k + 1)) re im) := by
  refine ⟨fun h k re im hmem => ?_, fun h k re im hmem => ?_⟩
  · obtain ⟨n, a, rfl, hblocks⟩ := Table.diagonalBlocks_eq_ok.mp h
    obtain ⟨_, -, hscan⟩ := checked_bind_eq_ok.mp hblocks
    exact eigenvalueOf_of_complexEigenvalue? (requirePair_eq_ok (pair_of_scanBlocks hscan hmem))
  · obtain ⟨n, a, b, rfl, rfl, hblocks⟩ := Table.pencilBlocks_eq_ok.mp h
    obtain ⟨_, -, hblocks⟩ := checked_bind_eq_ok.mp hblocks
    obtain ⟨_, -, hscan⟩ := checked_bind_eq_ok.mp hblocks
    exact eigenvalueOf_of_complexEigenvalue?
      (requirePencilPair_eq_ok (pair_of_scanBlocks hscan hmem))

/-- A quarter turn is accepted with a usable eigenvalue, in a standard form and over a diagonal
matrix. -/
theorem recognized_pair_eigenvalue_turn :
    let s : Table Float := .ofMat (Mat.ofRows2 0 1 (-1) 0)
    let t : Table Float := .ofMat (Mat.ofRows2 2 0 0 2)
    (∃ re im, s.diagonalBlocks = .ok [.pair 0 re im] ∧
      re.isFinite = true ∧ im.isFinite = true ∧ 0 < im) ∧
    ∃ re im, s.pencilBlocks t = .ok [.pair 0 re im] ∧
      re.isFinite = true ∧ im.isFinite = true ∧ 0 < im := by
  intro s t
  have hpair {x : Except (FormError Float) (List (Block Float))}
      (h : x.toOption.map (List.map fun b => (b.isPair, b.start)) = some [(true, 0)]) :
      ∃ re im, x = .ok [.pair 0 re im] := by
    obtain _ | _ | ⟨_ | ⟨i, re, im⟩, _ | _⟩ := x <;>
      simp [Except.toOption, Block.isPair, Block.start] at h
    exact ⟨re, im, by rw [h]⟩
  have husable {a b c d re im : Float} (h : Block.EigenvalueOf a b c d re im)
      (hsum : (a + d).isFinite = true) (hrest : (a - d).isFinite = true ∧ b.isFinite = true ∧
        c.isFinite = true) (hlow : powerOfTwo (-1020) ≤ maxNum b.abs c.abs) :
      re.isFinite = true ∧ im.isFinite = true ∧ 0 < im :=
    have him := h.im_isFinite.mpr hrest
    ⟨h.re_isFinite.mpr hsum, him, h.im_pos him hlow⟩
  obtain ⟨re, im, h⟩ := hpair (x := s.diagonalBlocks) (by decide +kernel)
  obtain ⟨re', im', h'⟩ := hpair (x := s.pencilBlocks t) (by decide +kernel)
  have hfacts := (recognized_pair_eigenvalue s t _).1 h 0 re im (List.mem_singleton_self _)
  have hfacts' := (recognized_pair_eigenvalue s t _).2 h' 0 re' im' (List.mem_singleton_self _)
  exact ⟨⟨re, im, h, husable hfacts (by decide +kernel) (by decide +kernel) (by decide +kernel)⟩,
    re', im', h', husable hfacts' (by decide +kernel) (by decide +kernel) (by decide +kernel)⟩

/-- Finite entries alone do not suffice. Diagonal entries of opposite signs whose difference
overflows have real eigenvalues but are accepted, with a NaN as imaginary part, and those whose sum
overflows are accepted with an infinite real part. A subnormal block with a double eigenvalue is
accepted with the imaginary part zero. A pencil block whose quotients overflow is accepted with a
NaN. -/
theorem recognized_pair_unusable :
    let pairOf (x : Except (FormError Float) (List (Block Float))) : Option (Float × Float) :=
      match x with
      | .ok [.pair _ re im] => some (re, im)
      | _ => none
    let difference : Mat 2 2 Float := Mat.ofRows2 1.5e308 1 (-1) (-1.5e308)
    let sum : Mat 2 2 Float := Mat.ofRows2 1.5e308 1 (-1) 1.5e308
    let subnormal : Mat 2 2 Float := Mat.ofRows2 2.08e-322 2.4e-322 (-4.4e-323) 0
    let s : Mat 2 2 Float := Mat.ofRows2 0 1e200 (-1e200) 0
    let t : Mat 2 2 Float := Mat.ofRows2 1e-200 0 0 1e-200
    (difference.IsFinite ∧ (pairOf (diagonalBlocks difference)).any fun e => e.2.isNaN) ∧
      (sum.IsFinite ∧ (pairOf (diagonalBlocks sum)).any fun e => e.1.isInf) ∧
      (subnormal.IsFinite ∧ (pairOf (diagonalBlocks subnormal)).any fun e => e.2 == 0) ∧
      s.IsFinite ∧ t.IsFinite ∧ (pairOf (pencilBlocks s t)).any fun e => e.2.isNaN := by
  decide +kernel

end SchurForm
