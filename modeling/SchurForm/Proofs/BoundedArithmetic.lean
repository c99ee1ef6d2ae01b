import SchurForm.Proofs.RoundedValues

/-!
# Bounds of rounded numbers

Rounding keeps the bounds that the grid has, so bounds of exact results are carried through a
computation: a sum or a product of bounded numbers is bounded, and finite as long as the bound is in
the range. Comparisons and maxima of finite numbers are those of their values.
-/

namespace SchurForm

namespace Binary64

open Float.Model (UnpackedFloat)
open Float.Model.UnpackedFloat

variable {x y : Float} {u : UnpackedFloat} {g h v : ℝ}

section Order

/-- The value of zero. -/
@[simp] theorem toReal_zero : toReal 0 = 0 := rfl

/-- The value of one. -/
@[simp] theorem toReal_one : toReal 1 = 1 := by
  have hdatum : datum 1 = .finite .positive (2 ^ 52) (-52) (Nat.two_pow_pos 52) := by rfl
  rw [toReal, hdatum, value, signum_positive]
  norm_num

/-- Two is converted from a natural number. -/
theorem two_eq_ofNat [Angles] : (Scalar.two : Float) = Float.ofNat 2 := rfl

/-- One half is a quotient of converted numbers. -/
theorem half_eq_div [Angles] : (Scalar.half : Float) = 1 / Float.ofNat 2 := rfl

/-- One half is finite. -/
theorem isFinite_half [Angles] : (Scalar.half : Float).isFinite = true := by
  rw [half_eq_div]
  rfl

/-- The value of two. -/
@[simp] theorem toReal_two [Angles] : toReal Scalar.two = 2 := by
  have hdatum : datum (Float.ofNat 2) = .finite .positive (2 ^ 52) (-51) (Nat.two_pow_pos 52) := by
    rfl
  rw [two_eq_ofNat, toReal, hdatum, value, signum_positive]
  norm_num

/-- The value of one half. -/
theorem toReal_half [Angles] : toReal Scalar.half = 1 / 2 := by
  have hdatum :
      datum (1 / Float.ofNat 2) = .finite .positive (2 ^ 52) (-53) (Nat.two_pow_pos 52) := by
    rfl
  rw [half_eq_div, toReal, hdatum, value, signum_positive]
  norm_num

/-- Finite numbers are ordered by their values. -/
theorem le_iff_toReal (hx : x.isFinite = true) (hy : y.isFinite = true) :
    x ≤ y ↔ toReal x ≤ toReal y := by
  rw [le_iff, lt_iff_toReal hy hx, not_lt]
  exact ⟨fun h => h.2.2, fun h => ⟨isNaN_of_isFinite hx, isNaN_of_isFinite hy, h⟩⟩

/-- Finite numbers are equal exactly if their values are. -/
theorem beq_iff_toReal (hx : x.isFinite = true) (hy : y.isFinite = true) :
    (x == y) = true ↔ toReal x = toReal y := by
  rw [beq_iff, le_iff_toReal hx hy, le_iff_toReal hy hx, le_antisymm_iff]

open Scalar in
/-- The maximum of finite numbers is finite. -/
theorem isFinite_maxNum [Angles] (hx : x.isFinite = true) (hy : y.isFinite = true) :
    (maxNum x y).isFinite = true := by
  unfold maxNum
  split_ifs
  · exact hy
  · exact hx
  · exact hy

open Scalar in
/-- The maximum of finite numbers is that of their values. -/
theorem toReal_maxNum [Angles] (hx : x.isFinite = true) (hy : y.isFinite = true) :
    toReal (maxNum x y) = max (toReal x) (toReal y) := by
  unfold maxNum
  split_ifs with hlt hself
  · exact (max_eq_right ((lt_iff_toReal hx hy).mp hlt).le).symm
  · exact (max_eq_left (not_lt.mp (mt (lt_iff_toReal hx hy).mpr hlt))).symm
  · exact absurd ((beq_iff_toReal hx hx).mpr rfl) hself

/-- No number reaches the end of the range. -/
theorem abs_toReal_lt (x : Float) : |toReal x| < 2 ^ (1024 : ℤ) := by
  rw [← toReal_abs, toReal]
  cases hu : datum x.abs with
  | notANumber | infinity s | zero s => simp [value]
  | finite s m e h =>
    obtain ⟨hc, he⟩ := canonical_unpack hu
    have hmagnitude := (exponent_le_iff hc).mp he
    cases s
    · have : (0 : ℝ) ≤ m * 2 ^ e := by positivity
      rw [value_finite, signum_negative, neg_one_mul]
      exact (neg_nonpos.mpr this).trans_lt (this.trans_lt hmagnitude)
    · rwa [value_finite, signum_positive, one_mul]

/-- One is in the range. -/
theorem one_lt_two_zpow_1024 : (1 : ℝ) < 2 ^ (1024 : ℤ) :=
  one_lt_zpow₀ one_lt_two (by norm_num)

end Order

section Powers

variable {e : ℤ}

/-- The bits of a power of two in the normal range. -/
theorem toBitVec_powerOfTwo (hlow : -1022 ≤ e) (hhigh : e ≤ 1023) :
    (UInt64.ofNat ((e + 1023).toNat * twoPow 52)).toBitVec =
      packComponents .binary64 .positive (BitVec.ofNat 11 (e + 1023).toNat) 0#52 := by
  refine BitVec.eq_of_toNat_eq ?_
  change (BitVec.ofNat 64 ((e + 1023).toNat * 2 ^ 52)).toNat =
    (0#1 ++ BitVec.ofNat 11 (e + 1023).toNat ++ 0#52).toNat
  simp only [BitVec.toNat_append, BitVec.toNat_ofNat, Nat.zero_mod, Nat.or_zero, Nat.shiftLeft_eq,
    zero_mul, Nat.zero_or]
  omega

/-- The mantissa and the exponent of a power of two. -/
theorem datum_powerOfTwo (hlow : -1022 ≤ e) (hhigh : e ≤ 1023) :
    datum (powerOfTwo e) = .finite .positive (2 ^ 52) (e - 52) (Nat.two_pow_pos 52) := by
  have hfield : (BitVec.ofNat 11 (e + 1023).toNat).toNat = (e + 1023).toNat := by
    rw [BitVec.toNat_ofNat]
    omega
  have hone : (1#1 ++ 0#52).toNat = 2 ^ 52 := rfl
  change stored (unpack .binary64 (UInt64.ofNat ((e + 1023).toNat * twoPow 52)).toBitVec) = _
  rw [toBitVec_powerOfTwo hlow hhigh, unpack_packComponents, if_neg (toNat_ne_of_ne ?_),
    if_neg (toNat_ne_of_ne ?_)]
  · simp only [hfield, hone]
    rw [stored, unpack_pack_finite ⟨by norm_num, by omega, .inl le_rfl⟩, if_pos (by omega)]
    simp only [UnpackedFloat.finite.injEq, true_and]
    omega
  · rw [hfield, show (0#11).toNat = 0 from rfl]
    omega
  · rw [hfield, show (-1#11).toNat = 2047 from rfl]
    omega

/-- Powers of two in the range are finite. -/
theorem isFinite_powerOfTwo (hlow : -1022 ≤ e) (hhigh : e ≤ 1023) :
    (powerOfTwo e).isFinite = true := by
  rw [isFinite_eq, datum_powerOfTwo hlow hhigh]
  rfl

/-- Powers of two in the range are exact. -/
theorem toReal_powerOfTwo (hlow : -1022 ≤ e) (hhigh : e ≤ 1023) :
    toReal (powerOfTwo e) = 2 ^ e := by
  rw [toReal, datum_powerOfTwo hlow hhigh, value_finite, signum_positive, one_mul, Nat.cast_pow,
    Nat.cast_two, ← zpow_natCast, ← zpow_add₀ two_ne_zero]
  congr 1
  push_cast
  ring

end Powers

section Bounds

/-- Rounding keeps what is on the grid. -/
theorem IsRounded.toReal_eq (hx : IsRounded v (datum x)) (hfinite : x.isFinite = true)
    (hv : OnGrid v) : toReal x = v :=
  le_antisymm (hx.le hfinite v hv le_rfl) (hx.ge hfinite v hv le_rfl)

/-- A finite number of magnitude at most `g`. -/
structure Within (g : ℝ) (x : Float) : Prop where
  isFinite : x.isFinite = true
  abs_le : |toReal x| ≤ g

/-- Rounding keeps a bound that is on the grid. -/
theorem IsRounded.within (hx : IsRounded v (datum x)) (hg : OnGrid g) (hle : |v| ≤ g)
    (hlt : g < 2 ^ (1024 : ℤ)) : Within g x := by
  have hfinite := hx.finite g hg hle hlt
  obtain ⟨hlow, hhigh⟩ := abs_le.mp hle
  exact ⟨hfinite, abs_le.mpr ⟨hx.ge hfinite _ hg.neg hlow, hx.le hfinite g hg hhigh⟩⟩

/-- Rounding keeps a lower bound of a magnitude. -/
theorem IsRounded.abs_ge (hx : IsRounded v (datum x)) (hfinite : x.isFinite = true)
    (hg : OnGrid g) (hle : g ≤ |v|) : g ≤ |toReal x| := by
  rcases le_abs.mp hle with hpos | hneg
  · exact (hx.ge hfinite g hg hpos).trans (le_abs_self _)
  · exact (le_neg.mp (hx.le hfinite _ hg.neg (le_neg.mp hneg))).trans (neg_le_abs _)

/-- Rounding keeps the magnitude of an exact result that the grid has. -/
theorem IsRounded.abs_eq (hx : IsRounded v (datum x)) (hfinite : x.isFinite = true)
    (hg : OnGrid g) (heq : |v| = g) : |toReal x| = g := by
  have hv : OnGrid v := by
    rcases abs_choice v with hv | hv
    · exact hv.symm.trans heq ▸ hg
    · rw [← neg_neg v, ← hv, heq]
      exact hg.neg
  rw [hx.toReal_eq hfinite hv, heq]

/-- A larger bound holds as well. -/
theorem Within.mono (hx : Within g x) (hgh : g ≤ h) : Within h x :=
  ⟨hx.isFinite, hx.abs_le.trans hgh⟩

/-- A product is within the product of the bounds if that is on the grid. -/
theorem Within.mul (hx : Within g x) (hy : Within h y) (hgrid : OnGrid (g * h))
    (hlt : g * h < 2 ^ (1024 : ℤ)) : Within (g * h) (x * y) := by
  refine (isRounded_mul hx.isFinite hy.isFinite).within hgrid ?_ hlt
  rw [abs_mul]
  exact mul_le_mul hx.abs_le hy.abs_le (abs_nonneg _) ((abs_nonneg _).trans hx.abs_le)

/-- A sum is within the sum of the bounds if that is on the grid. -/
theorem Within.add (hx : Within g x) (hy : Within h y) (hgrid : OnGrid (g + h))
    (hlt : g + h < 2 ^ (1024 : ℤ)) : Within (g + h) (x + y) :=
  (isRounded_add hx.isFinite hy.isFinite).within hgrid
    ((abs_add_le _ _).trans (add_le_add hx.abs_le hy.abs_le)) hlt

/-- The exponents of the bounds add up in a product. -/
theorem Within.mul_two_zpow {i j : ℤ} (hx : Within (2 ^ i) x) (hy : Within (2 ^ j) y)
    (hlow : -1074 ≤ i + j) (hhigh : i + j < 1024) : Within (2 ^ (i + j)) (x * y) := by
  have hexponent := zpow_add₀ (two_ne_zero : (2 : ℝ) ≠ 0) i j
  rw [hexponent]
  exact hx.mul hy (hexponent ▸ onGrid_two_zpow hlow)
    (hexponent ▸ zpow_lt_zpow_right₀ one_lt_two hhigh)

/-- A sum has an exponent one higher. -/
theorem Within.add_two_zpow {i : ℤ} (hx : Within (2 ^ i) x) (hy : Within (2 ^ i) y)
    (hlow : -1074 ≤ i + 1) (hhigh : i + 1 < 1024) : Within (2 ^ (i + 1)) (x + y) := by
  have hexponent : (2 : ℝ) ^ (i + 1) = 2 ^ i + 2 ^ i := by
    rw [zpow_add_one₀ two_ne_zero, mul_two]
  rw [hexponent]
  exact hx.add hy (hexponent ▸ onGrid_two_zpow hlow)
    (hexponent ▸ zpow_lt_zpow_right₀ one_lt_two hhigh)

/-- Zero is within every bound. -/
theorem within_zero (hg : 0 ≤ g) : Within g 0 :=
  ⟨isFinite_zero, by simpa using hg⟩

/-- Negation keeps a bound. -/
theorem Within.neg (hx : Within g x) : Within g (-x) :=
  ⟨isFinite_neg hx.isFinite, by rw [toReal_neg, abs_neg]; exact hx.abs_le⟩

/-- A difference is within the sum of the bounds if that is on the grid. -/
theorem Within.sub (hx : Within g x) (hy : Within h y) (hgrid : OnGrid (g + h))
    (hlt : g + h < 2 ^ (1024 : ℤ)) : Within (g + h) (x - y) :=
  (isRounded_sub hx.isFinite hy.isFinite).within hgrid
    ((abs_sub _ _).trans (add_le_add hx.abs_le hy.abs_le)) hlt

/-- A quotient is bounded by what the divisor would have to be multiplied with. -/
theorem within_div (hx : x.isFinite = true) (hy : y.isFinite = true) (hne : toReal y ≠ 0)
    (hle : |toReal x| ≤ g * |toReal y|) (hgrid : OnGrid g) (hlt : g < 2 ^ (1024 : ℤ)) :
    Within g (x / y) := by
  refine (isRounded_div hx hy hne).within hgrid ?_ hlt
  rw [abs_div]
  exact (div_le_iff₀ (abs_pos.mpr hne)).mpr hle

/-- The exponents of the bounds subtract in a quotient by a positive number. -/
theorem Within.div_two_zpow {i j : ℤ} (hx : Within (2 ^ i) x) (hy : y.isFinite = true)
    (hle : 2 ^ j ≤ toReal y) (hlow : -1074 ≤ i - j) (hhigh : i - j < 1024) :
    Within (2 ^ (i - j)) (x / y) := by
  have hpos : 0 < toReal y := lt_of_lt_of_le (by positivity) hle
  refine within_div hx.isFinite hy hpos.ne' ?_ (onGrid_two_zpow hlow)
    (zpow_lt_zpow_right₀ one_lt_two hhigh)
  rw [abs_of_pos hpos]
  calc |toReal x| ≤ 2 ^ i := hx.abs_le
    _ = 2 ^ (i - j) * 2 ^ j := by rw [← zpow_add₀ two_ne_zero, sub_add_cancel]
    _ ≤ 2 ^ (i - j) * toReal y := by gcongr

/-- A difference has an exponent one higher. -/
theorem Within.sub_two_zpow {i : ℤ} (hx : Within (2 ^ i) x) (hy : Within (2 ^ i) y)
    (hlow : -1074 ≤ i + 1) (hhigh : i + 1 < 1024) : Within (2 ^ (i + 1)) (x - y) := by
  have hexponent : (2 : ℝ) ^ (i + 1) = 2 ^ i + 2 ^ i := by
    rw [zpow_add_one₀ two_ne_zero, mul_two]
  rw [hexponent]
  exact hx.sub hy (hexponent ▸ onGrid_two_zpow hlow)
    (hexponent ▸ zpow_lt_zpow_right₀ one_lt_two hhigh)

/-- Sums and differences of two products. -/
theorem within_turn {c s : Float} {i j : ℤ} (hc : Within (2 ^ i) c) (hs : Within (2 ^ i) s)
    (hx : Within (2 ^ j) x) (hy : Within (2 ^ j) y) (hlow : -1074 ≤ i + j)
    (hhigh : i + j + 1 < 1024) :
    Within (2 ^ (i + j + 1)) (c * x + s * y) ∧ Within (2 ^ (i + j + 1)) (c * x - s * y) := by
  have hcx := hc.mul_two_zpow hx hlow (by omega)
  have hsy := hs.mul_two_zpow hy hlow (by omega)
  exact ⟨hcx.add_two_zpow hsy (by omega) hhigh, hcx.sub_two_zpow hsy (by omega) hhigh⟩

/-- Half of a number is within the bound of the number. -/
theorem Within.half_mul [Angles] (hx : Within g x) : Within g (Scalar.half * x) := by
  refine ((isRounded_mul isFinite_half hx.isFinite).within (onGrid_toReal x).abs ?_
    (abs_toReal_lt x)).mono hx.abs_le
  rw [toReal_half, abs_mul, abs_of_pos one_half_pos]
  linarith [abs_nonneg (toReal x)]

/-- A higher exponent holds as well. -/
theorem Within.mono_two_zpow {i j : ℤ} (hx : Within (2 ^ i) x) (hij : i ≤ j) : Within (2 ^ j) x :=
  hx.mono (zpow_le_zpow_right₀ one_le_two hij)

/-- Multiplying by a power of two that is at least one keeps a number on the grid. -/
theorem OnGrid.mul_two_zpow {e : ℤ} (hg : OnGrid g) (he : 0 ≤ e) : OnGrid (g * 2 ^ e) := by
  obtain ⟨k, d, hk, hd, rfl⟩ := hg
  exact ⟨k, d + e, hk, by omega, by rw [mul_assoc, zpow_add₀ two_ne_zero]⟩

/-- The root of a number within an even power of two. -/
theorem Within.sqrt_two_zpow {i : ℤ} (hx : Within (2 ^ (2 * i)) x)
    (hnonneg : 0 ≤ toReal x) (hlow : -1074 ≤ i) (hhigh : i < 1024) : Within (2 ^ i) x.sqrt := by
  refine (isRounded_sqrt hx.isFinite hnonneg).within (onGrid_two_zpow hlow) ?_
    (zpow_lt_zpow_right₀ one_lt_two hhigh)
  rw [abs_of_nonneg (Real.sqrt_nonneg _), Real.sqrt_le_left (by positivity), ← zpow_natCast,
    ← zpow_mul, mul_comm i]
  exact (le_abs_self _).trans hx.abs_le

/-- A product with a zero is a zero. -/
theorem toReal_mul_of_eq_zero (h : (x * y).isFinite = true) (hzero : toReal y = 0) :
    toReal (x * y) = 0 := by
  obtain ⟨hx, hy⟩ := isFinite_of_mul h
  have hrounded := isRounded_mul hx hy
  rw [hzero, mul_zero] at hrounded
  exact hrounded.toReal_eq h onGrid_zero

/-- Zero is within every power of two. -/
theorem within_zero_two_zpow (e : ℤ) : Within (2 ^ e) 0 :=
  within_zero (by positivity)

/-- One is within the powers of two that are not below it. -/
theorem within_one_two_zpow {e : ℤ} (he : 0 ≤ e) : Within (2 ^ e) 1 :=
  ⟨isFinite_one, by rw [toReal_one, abs_one]; exact one_le_zpow₀ one_le_two he⟩

/-- Two is within itself. -/
theorem within_two [Angles] : Within (2 ^ (1 : ℤ)) Scalar.two :=
  ⟨by rw [two_eq_ofNat]; rfl, by simp⟩

/-- A number that compares equal to one is within one. -/
theorem within_of_beq_one (hx : (x == 1) = true) : Within 1 x := by
  have hfinite := isFinite_of_beq isFinite_one hx
  have hvalue := (beq_iff_toReal hfinite isFinite_one).mp hx
  exact ⟨hfinite, by rw [hvalue, toReal_one, abs_one]⟩

/-- A number whose magnitude compares with a power of two is within it. -/
theorem within_of_abs_le {e : ℤ} (hlow : -1022 ≤ e) (hhigh : e ≤ 1023) (hx : x.abs ≤ powerOfTwo e) :
    Within (2 ^ e) x := by
  have hpower := isFinite_powerOfTwo hlow hhigh
  have hfinite := isFinite_of_abs_le hpower hx
  have hle := (le_iff_toReal ((isFinite_abs_iff x).trans hfinite) hpower).mp hx
  exact ⟨hfinite, by rwa [toReal_abs, toReal_powerOfTwo hlow hhigh] at hle⟩

/-- The sign does not matter for a bound. -/
theorem within_abs_iff : Within g x.abs ↔ Within g x := by
  constructor <;> intro h
  · exact ⟨by rw [← isFinite_abs_iff]; exact h.isFinite, by simpa [toReal_abs] using h.abs_le⟩
  · exact ⟨by rw [isFinite_abs_iff]; exact h.isFinite, by simpa [toReal_abs] using h.abs_le⟩

/-- The precision is a power of two. -/
theorem epsilon_eq [Angles] : (Scalar.epsilon : Float).isFinite = true ∧
    toReal (Scalar.epsilon : Float) = 2 ^ (-52 : ℤ) :=
  ⟨isFinite_powerOfTwo (by norm_num) (by norm_num), toReal_powerOfTwo (by norm_num) (by norm_num)⟩

/-- The least number with a reciprocal at full precision is a power of two. -/
theorem safeMin_eq [Angles] : (Scalar.safeMin : Float).isFinite = true ∧
    toReal (Scalar.safeMin : Float) = 2 ^ (-970 : ℤ) := by
  have hleast : (Scalar.minPositive : Float).isFinite = true ∧
      toReal (Scalar.minPositive : Float) = 2 ^ (-1022 : ℤ) :=
    ⟨isFinite_powerOfTwo (by norm_num) (by norm_num),
      toReal_powerOfTwo (by norm_num) (by norm_num)⟩
  have hrounded : IsRounded (2 ^ (-970 : ℤ)) (datum (Scalar.safeMin : Float)) := by
    have hquotient := isRounded_div hleast.1 epsilon_eq.1 (by rw [epsilon_eq.2]; positivity)
    rwa [hleast.2, epsilon_eq.2, ← zpow_sub₀ two_ne_zero] at hquotient
  have hgrid := onGrid_two_zpow (e := -970) (by norm_num)
  have hfinite := hrounded.finite _ hgrid (abs_of_pos (by positivity)).le
    (zpow_lt_zpow_right₀ one_lt_two (by norm_num))
  exact ⟨hfinite, hrounded.toReal_eq hfinite hgrid⟩

/-- Subtracting from a zero, or a zero, keeps the magnitude. -/
theorem abs_toReal_sub_zero (hx : x.isFinite = true) :
    |toReal (x - 0)| = |toReal x| ∧ |toReal (0 - x)| = |toReal x| := by
  constructor
  · have hrounded := isRounded_sub hx isFinite_zero
    rw [toReal_zero, sub_zero] at hrounded
    have hfinite := hrounded.finite _ (onGrid_toReal x).abs le_rfl (abs_toReal_lt x)
    rw [hrounded.toReal_eq hfinite (onGrid_toReal x)]
  · have hrounded := isRounded_sub isFinite_zero hx
    rw [toReal_zero, zero_sub] at hrounded
    have hfinite := hrounded.finite _ (onGrid_toReal x).abs (abs_neg _).le (abs_toReal_lt x)
    rw [hrounded.toReal_eq hfinite (onGrid_toReal x).neg, abs_neg]

end Bounds

section Squares

/-- The square of a finite number is not negative. -/
theorem square_nonneg (h : (x * x).isFinite = true) : 0 ≤ toReal (x * x) := by
  have hx := (isFinite_of_mul h).1
  exact (isRounded_mul hx hx).ge h 0 onGrid_zero (mul_self_nonneg _)

/-- A number whose square does not overflow. -/
theorem within_of_isFinite_square (h : (x * x).isFinite = true) : Within (2 ^ (512 : ℤ)) x := by
  have hx := (isFinite_of_mul h).1
  refine ⟨hx, le_of_not_gt fun hlarge => ?_⟩
  have hsquare : (2 : ℝ) ^ (1024 : ℤ) ≤ toReal x * toReal x := by
    rw [← abs_mul_abs_self, show (1024 : ℤ) = 512 + 512 by norm_num, zpow_add₀ two_ne_zero]
    exact mul_le_mul hlarge.le hlarge.le (by positivity) (abs_nonneg _)
  exact ((le_abs_self _).trans_lt (abs_toReal_lt (x * x))).not_ge
    ((isRounded_mul hx hx).ge h _ (onGrid_two_zpow (by norm_num)) hsquare)

end Squares

section SumsAndMaxima

open Scalar

variable {n : Nat} {f : Nat → Float}

/-- The empty maximum is zero. -/
theorem toReal_maxTo_zero [Angles] (f : Nat → Float) : toReal (maxTo 0 f) = 0 := toReal_zero

/-- The sums of some of the terms, in any order and with any brackets. -/
inductive SumOf (f : Nat → Float) : Finset Nat → Float → Prop
  | zero : SumOf f ∅ 0
  | term (i : Nat) : SumOf f {i} (f i)
  | add {s t : Finset Nat} {x y : Float} (hdisjoint : Disjoint s t) (hx : SumOf f s x)
      (hy : SumOf f t y) : SumOf f (s ∪ t) (x + y)

variable {s : Finset Nat}

/-- Summing from left to right is one of the orders. -/
theorem sumOf_sumTo [Angles] (f : Nat → Float) (n : Nat) :
    SumOf f (Finset.range n) (sumTo n f) := by
  induction n with
  | zero => exact .zero
  | succ n ih =>
    rw [Finset.range_add_one, Finset.insert_eq, Finset.union_comm]
    exact ih.add (Finset.disjoint_singleton_right.mpr Finset.notMem_range_self) (.term n)

/-- A sum of bounded terms is bounded as often, in whatever order it is taken. -/
theorem SumOf.within (hx : SumOf f s x) (hf : ∀ i ∈ s, Within g (f i))
    (hgrid : ∀ k ≤ s.card, OnGrid (k * g)) (hlt : s.card * g < 2 ^ (1024 : ℤ)) (hnonneg : 0 ≤ g) :
    Within (s.card * g) x := by
  induction hx with
  | zero => exact ⟨isFinite_zero, by simp⟩
  | term i => simpa using hf i (Finset.mem_singleton_self i)
  | @add s t x y hdisjoint _ _ ihx ihy =>
    rw [Finset.card_union_of_disjoint hdisjoint] at hgrid hlt ⊢
    have hsplit : ((s.card + t.card : ℕ) : ℝ) * g = s.card * g + t.card * g := by
      push_cast
      ring
    have hs : (0 : ℝ) ≤ s.card * g := by positivity
    have ht : (0 : ℝ) ≤ t.card * g := by positivity
    have hleft := ihx (fun i hi => hf i (Finset.mem_union_left _ hi))
      (fun k hk => hgrid k (hk.trans (Nat.le_add_right _ _))) (by linarith)
    have hright := ihy (fun i hi => hf i (Finset.mem_union_right _ hi))
      (fun k hk => hgrid k (hk.trans (Nat.le_add_left _ _))) (by linarith)
    rw [hsplit] at hlt ⊢
    exact hleft.add hright (hsplit ▸ hgrid _ le_rfl) hlt

/-- The terms of a finite sum are finite, in whatever order it is taken. -/
theorem SumOf.isFinite_terms (hx : SumOf f s x) (hfinite : x.isFinite = true) :
    ∀ i ∈ s, (f i).isFinite = true := by
  induction hx with
  | zero => exact fun i hi => absurd hi (Finset.notMem_empty i)
  | term i => exact fun j hj => Finset.mem_singleton.mp hj ▸ hfinite
  | add _ _ _ ihx ihy =>
    obtain ⟨hxFinite, hyFinite⟩ := isFinite_of_add hfinite
    exact fun i hi => (Finset.mem_union.mp hi).elim (ihx hxFinite i) (ihy hyFinite i)

/-- A finite sum of numbers that are not negative is at least each of them, in whatever order it is
taken. -/
theorem SumOf.le (hx : SumOf f s x) (hfinite : x.isFinite = true)
    (hf : ∀ i ∈ s, 0 ≤ toReal (f i)) : 0 ≤ toReal x ∧ ∀ i ∈ s, toReal (f i) ≤ toReal x := by
  induction hx with
  | zero => exact ⟨toReal_zero.ge, fun i hi => absurd hi (Finset.notMem_empty i)⟩
  | term i =>
    refine ⟨hf i (Finset.mem_singleton_self i), fun j hj => ?_⟩
    rw [Finset.mem_singleton.mp hj]
  | @add s t x y _ _ _ ihx ihy =>
    obtain ⟨hxFinite, hyFinite⟩ := isFinite_of_add hfinite
    obtain ⟨hxNonneg, hxTerms⟩ := ihx hxFinite fun i hi => hf i (Finset.mem_union_left _ hi)
    obtain ⟨hyNonneg, hyTerms⟩ := ihy hyFinite fun i hi => hf i (Finset.mem_union_right _ hi)
    have hrounded := isRounded_add hxFinite hyFinite
    have hxLe : toReal x ≤ toReal (x + y) :=
      hrounded.ge hfinite _ (onGrid_toReal _) (le_add_of_nonneg_right hyNonneg)
    have hyLe : toReal y ≤ toReal (x + y) :=
      hrounded.ge hfinite _ (onGrid_toReal _) (le_add_of_nonneg_left hxNonneg)
    refine ⟨hxNonneg.trans hxLe, fun i hi => ?_⟩
    rcases Finset.mem_union.mp hi with hi | hi
    · exact (hxTerms i hi).trans hxLe
    · exact (hyTerms i hi).trans hyLe

/-- A sum exceeds the bound of its terms by a power of two with their number, in whatever order it
is taken. -/
theorem SumOf.within_two_zpow {e : ℤ} (hx : SumOf f s x) (hf : ∀ i ∈ s, Within (2 ^ e) (f i))
    (hlow : -1074 ≤ e) (hhigh : e + s.card < 1024) : Within (2 ^ (e + s.card)) x := by
  have hcount : (s.card : ℝ) * 2 ^ e ≤ 2 ^ (e + s.card) := by
    rw [add_comm, zpow_add₀ two_ne_zero, zpow_natCast]
    gcongr
    exact_mod_cast s.card.lt_two_pow_self.le
  have hlt : (2 : ℝ) ^ (e + s.card) < 2 ^ (1024 : ℤ) := zpow_lt_zpow_right₀ one_lt_two hhigh
  refine (hx.within hf (fun k hk => onGrid_natCast_mul ?_ hlow) (hcount.trans_lt hlt)
    (by positivity)).mono hcount
  calc k < 2 ^ 12 := by omega
    _ ≤ 2 ^ 53 := Nat.pow_le_pow_right two_pos (by norm_num)

/-- A sum of `n` terms exceeds the bound of the terms by a factor of at most `2 ^ n`. -/
theorem within_sumTo_two_zpow [Angles] {e : ℤ} (hf : ∀ i < n, Within (2 ^ e) (f i))
    (hlow : -1074 ≤ e) (hhigh : e + n < 1024) : Within (2 ^ (e + n)) (sumTo n f) := by
  have hsum := (sumOf_sumTo f n).within_two_zpow fun i hi => hf i (Finset.mem_range.mp hi)
  rw [Finset.card_range] at hsum
  exact hsum hlow hhigh

/-- A finite sum of numbers that are not negative is at least each of them. -/
theorem le_sumTo [Angles] (h : (sumTo n f).isFinite = true) (hf : ∀ i < n, 0 ≤ toReal (f i)) :
    0 ≤ toReal (sumTo n f) ∧ ∀ i < n, toReal (f i) ≤ toReal (sumTo n f) := by
  obtain ⟨hnonneg, hterms⟩ := (sumOf_sumTo f n).le h fun i hi => hf i (Finset.mem_range.mp hi)
  exact ⟨hnonneg, fun i hi => hterms i (Finset.mem_range.mpr hi)⟩

/-- A maximum of finite numbers is finite. -/
theorem isFinite_maxTo [Angles] (hf : ∀ i < n, (f i).isFinite = true) :
    (maxTo n f).isFinite = true := by
  induction n with
  | zero => exact isFinite_zero
  | succ n ih =>
    exact isFinite_maxNum (ih fun i hi => hf i (hi.trans n.lt_succ_self)) (hf n n.lt_succ_self)

/-- A maximum of finite numbers is the largest of them, or zero. -/
theorem toReal_maxTo [Angles] (hf : ∀ i < n, (f i).isFinite = true) :
    (∀ i < n, toReal (f i) ≤ toReal (maxTo n f)) ∧
      (toReal (maxTo n f) = 0 ∨ ∃ i < n, toReal (f i) = toReal (maxTo n f)) := by
  induction n with
  | zero => exact ⟨fun i hi => absurd hi (Nat.not_lt_zero i), .inl (toReal_maxTo_zero f)⟩
  | succ n ih =>
    have hbefore (i : Nat) (hi : i < n) : (f i).isFinite = true := hf i (hi.trans n.lt_succ_self)
    obtain ⟨hterms, hreached⟩ := ih hbefore
    have hmax : toReal (maxTo (n + 1) f) = max (toReal (maxTo n f)) (toReal (f n)) :=
      toReal_maxNum (isFinite_maxTo hbefore) (hf n n.lt_succ_self)
    rw [hmax]
    refine ⟨fun i hi => ?_, ?_⟩
    · rcases Nat.lt_succ_iff_lt_or_eq.mp hi with hlt | rfl
      · exact (hterms i hlt).trans (le_max_left _ _)
      · exact le_max_right _ _
    · rcases max_choice (toReal (maxTo n f)) (toReal (f n)) with hleft | hright
      · rw [hleft]
        exact hreached.imp_right fun ⟨i, hi, heq⟩ => ⟨i, hi.trans n.lt_succ_self, heq⟩
      · exact .inr ⟨n, n.lt_succ_self, hright.symm⟩

end SumsAndMaxima

section Gaps

/-- Different multiples of a power of two are at least one unit apart. -/
theorem le_sub_of_multiples {k l t : ℤ} (hlt : (l * 2 ^ t : ℝ) < k * 2 ^ t) :
    (2 : ℝ) ^ t ≤ k * 2 ^ t - l * 2 ^ t := by
  have hpos : (0 : ℝ) < 2 ^ t := by positivity
  have hkl : l + 1 ≤ k := by exact_mod_cast lt_of_mul_lt_mul_right hlt hpos.le
  have hone : (l : ℝ) + 1 ≤ k := by exact_mod_cast hkl
  rw [← sub_mul]
  exact le_mul_of_one_le_left hpos.le (by linarith)

/-- Numbers of the grid that differ are at least the least number apart. -/
theorem OnGrid.le_sub (hg : OnGrid g) (hh : OnGrid h) (hlt : h < g) : 2 ^ (-1074 : ℤ) ≤ g - h := by
  obtain ⟨k, rfl⟩ := hg.exists_multiple (.inl rfl)
  obtain ⟨l, rfl⟩ := hh.exists_multiple (.inl rfl)
  exact le_sub_of_multiples hlt

/-- A number on the grid that is not zero is at least the smallest one. -/
theorem OnGrid.abs_ge (hg : OnGrid g) (hne : g ≠ 0) : 2 ^ (-1074 : ℤ) ≤ |g| := by
  simpa using hg.abs.le_sub onGrid_zero (abs_pos.mpr hne)

/-- Numbers of the grid that differ are apart by the last place of the larger one, or by half of it
next to a power of two. -/
theorem OnGrid.le_sub_of_le {j : ℤ} (hg : OnGrid g) (hh : OnGrid h) (hnonneg : 0 ≤ h) (hlt : h < g)
    (hj : 2 ^ j ≤ g) : 2 ^ (j - 53) ≤ g - h := by
  have hhalf : (2 : ℝ) ^ j = 2 ^ (j - 1) + 2 ^ (j - 1) := by
    rw [zpow_sub_one₀ two_ne_zero]
    ring
  have hle : (2 : ℝ) ^ (j - 53) ≤ 2 ^ (j - 1) := zpow_le_zpow_right₀ one_le_two (by omega)
  rcases lt_or_ge h (2 ^ (j - 1)) with hsmall | hlarge
  · linarith
  · have hplace : j - 53 + 52 = j - 1 := by ring
    obtain ⟨k, hk⟩ := hg.exists_multiple (t := j - 53)
      (.inr (by rw [hplace, abs_of_pos (hnonneg.trans_lt hlt)]; linarith))
    obtain ⟨l, hl⟩ := hh.exists_multiple (t := j - 53)
      (.inr (by rwa [hplace, abs_of_nonneg hnonneg]))
    rw [hk, hl] at hlt ⊢
    exact le_sub_of_multiples hlt

end Gaps

section AngleFunctions

/-- What is documented of the angle functions: finite arguments have a finite angle, and sines and
cosines are at most one in magnitude. -/
structure Angles.Documented [Angles] : Prop where
  atan2 : ∀ y x : Float, y.isFinite = true → x.isFinite = true → (Angles.atan2 y x).isFinite = true
  sin : ∀ x : Float, x.isFinite = true → (Angles.sin x).abs ≤ 1
  cos : ∀ x : Float, x.isFinite = true → (Angles.cos x).abs ≤ 1

/-- The angle functions on the half line whose angle is zero. -/
@[reducible]
def Angles.straight : Angles where
  atan2 _ _ := 0
  sin _ := 0
  cos _ := 1

/-- On this half line the angle functions are as documented. -/
theorem Angles.straight_documented :
    letI : Angles := .straight
    Angles.Documented := by
  have hsin : (0 : Float).abs ≤ 1 := by decide +kernel
  have hcos : (1 : Float).abs ≤ 1 := by decide +kernel
  let _ : Angles := .straight
  exact ⟨fun _ _ _ _ => isFinite_zero, fun _ _ => hsin, fun _ _ => hcos⟩

end AngleFunctions

end Binary64

end SchurForm
