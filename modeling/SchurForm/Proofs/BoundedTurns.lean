import SchurForm.Proofs.BoundedMatrices
import SchurForm.Proofs.RoundedLength
import SchurForm.TwoByTwo

/-!
# Turns of bounded blocks

The normal form of a block of order two with bounded entries is bounded, and so is the rotation that
leads to it. A block that holds a pair after it was brought to standard form is either returned as
it is or was turned until its diagonal entries are equal. The two numbers that fix this turn do not
both vanish, scaling takes the larger one well inside the range, and their length does not fall
below a fraction of it, so that nothing is divided by a zero. Making a block diagonal rests on the
angle functions of the platform; that these answer finite arguments with finite numbers is a
premise.
-/

namespace SchurForm

open Scalar Binary64

variable {e g : ℤ} {x y : Float}

namespace Binary64

section Signs

open Float.Model (UnpackedFloat)
open Float.Model.UnpackedFloat

/-- The sign bit is that of the number. -/
theorem isNegative_eq {s : Sign} {m : ℕ} {k : ℤ} {hm : 0 < m} (hx : datum x = .finite s m k hm) :
    isNegative x = true ↔ s = .negative := by
  have hsign : s = Sign.ofBitVec (@unpackSign .binary64 x.toBits.toBitVec) := by
    change UnpackedFloat.unpack .binary64 x.toBits.toBitVec = _ at hx
    unfold UnpackedFloat.unpack at hx
    dsimp only at hx
    split_ifs at hx
    · exact ((UnpackedFloat.finite.injEq ..).mp hx).1.symm
    · exact ((UnpackedFloat.finite.injEq ..).mp hx).1.symm
  have hlt := x.toBits.toNat_lt
  have hbit : (@unpackSign .binary64 x.toBits.toBitVec).toNat =
      x.toBits.toNat / 2 ^ 63 := by
    change (BitVec.extractLsb 63 63 x.toBits.toBitVec).toNat = _
    rw [BitVec.extractLsb_toNat, Nat.shiftRight_eq_div_pow]
    change x.toBits.toNat / 2 ^ 63 % 2 ^ 1 = _
    omega
  rw [isNegative, decide_eq_true_iff, hsign, Sign.ofBitVec]
  change 2 ^ 63 ≤ x.toBits.toNat ↔ _
  split
  · rename_i hzero
    rw [hzero, show (0#1).toNat = 0 from rfl] at hbit
    exact iff_of_false (by omega) Sign.noConfusion
  · rename_i hone
    refine iff_of_true ?_ rfl
    by_contra hsmall
    refine hone (BitVec.eq_of_toNat_eq ?_)
    rw [hbit, show (0#1).toNat = 0 from rfl]
    omega

/-- The sign bit of a number that is not zero. -/
theorem isNegative_iff (hx : x.isFinite = true) (hne : toReal x ≠ 0) :
    isNegative x = true ↔ toReal x < 0 := by
  rcases zero_or_finite_datum hx with ⟨s, hu⟩ | ⟨s, m, k, hm, hu⟩
  · exact absurd (by rw [toReal, hu, value_zero]) hne
  · have hpos : (0 : ℝ) < m * 2 ^ k := by positivity
    rw [isNegative_eq hu, toReal, hu, value_finite]
    cases s
    · simpa using hpos
    · simpa using hpos.le

/-- The sign of a number is one in magnitude. -/
theorem within_copySign_one (x : Float) : Within 1 (copySign 1 x) := by
  unfold copySign
  have hone : Within 1 (1 : Float).abs := within_abs_iff.mpr ⟨isFinite_one, by simp⟩
  split
  · exact hone.neg
  · exact hone

/-- Two numbers that differ from zero and cancel have different signs. -/
theorem sign_ne_of_add_eq_zero [Angles] (hx : x.isFinite = true) (hy : y.isFinite = true)
    (hne : toReal x ≠ 0) (hsum : toReal x + toReal y = 0) : (sign x != sign y) = true := by
  have hsign {z : Float} (hz : z.isFinite = true) : sign z = copySign 1 z :=
    if_pos ((beq_iff_toReal hz hz).mpr rfl)
  have hne' : toReal y ≠ 0 := fun h => hne (by linarith)
  rw [hsign hx, hsign hy, copySign, copySign]
  rcases lt_or_gt_of_ne hne with hneg | hpos
  · rw [if_pos ((isNegative_iff hx hne).mpr hneg),
      if_neg (mt (isNegative_iff hy hne').mp (by linarith))]
    rfl
  · rw [if_neg (mt (isNegative_iff hx hne).mp (by linarith)),
      if_pos ((isNegative_iff hy hne').mpr (by linarith))]
    rfl

/-- A rounded sum vanishes only with the sum. -/
theorem add_eq_zero_of_toReal (hx : x.isFinite = true) (hy : y.isFinite = true)
    (hfinite : (x + y).isFinite = true) (hzero : toReal (x + y) = 0) : toReal x + toReal y = 0 := by
  obtain ⟨i, hi⟩ := (onGrid_toReal x).exists_multiple (.inl rfl)
  obtain ⟨j, hj⟩ := (onGrid_toReal y).exists_multiple (.inl rfl)
  have hrounded := isRounded_add hx hy
  have hsum : toReal x + toReal y = (i + j : ℤ) * 2 ^ (-1074 : ℤ) := by
    rw [hi, hj]
    push_cast
    ring
  by_contra hne
  have hinteger : (i + j : ℤ) ≠ 0 := by
    rintro h
    rw [hsum, h, Int.cast_zero, zero_mul] at hne
    exact hne rfl
  have hone : (1 : ℝ) ≤ |((i + j : ℤ) : ℝ)| := by exact_mod_cast Int.one_le_abs hinteger
  have hleast : (2 : ℝ) ^ (-1074 : ℤ) ≤ |toReal x + toReal y| := by
    rw [hsum, abs_mul, abs_of_pos (show (0 : ℝ) < 2 ^ (-1074 : ℤ) by positivity)]
    exact le_mul_of_one_le_left (by positivity) hone
  have hge := hrounded.abs_ge hfinite (onGrid_two_zpow le_rfl) hleast
  rw [hzero, abs_zero] at hge
  exact hge.not_gt (by positivity)

end Signs

end Binary64

/-- The ends of the range are reciprocals. -/
theorem StandardBlock.rescaleLow_mul_rescaleHigh : (2 : ℝ) ^ (-485 : ℤ) * 2 ^ (485 : ℤ) = 1 := by
  rw [← zpow_add₀ two_ne_zero, neg_add_cancel, zpow_zero]

variable [Angles]

namespace StandardBlock

section Rescaling

/-- The lower end of the range in which two numbers are left as they are. -/
theorem rescaleLow_eq : (rescaleLow : Float).isFinite = true ∧
    toReal (rescaleLow : Float) = 2 ^ (-485 : ℤ) := by
  have hroot := isRounded_sqrt safeMin_eq.1 (by rw [safeMin_eq.2]; positivity)
  have hexact : √((2 : ℝ) ^ (-970 : ℤ)) = 2 ^ (-485 : ℤ) := by
    rw [show (-970 : ℤ) = -485 + -485 by norm_num, zpow_add₀ two_ne_zero]
    exact Real.sqrt_mul_self (by positivity)
  rw [safeMin_eq.2, hexact] at hroot
  have hgrid := onGrid_two_zpow (e := -485) (by norm_num)
  have hfinite := hroot.finite _ hgrid (abs_of_pos (by positivity)).le
    (zpow_lt_zpow_right₀ one_lt_two (by norm_num))
  exact ⟨hfinite, hroot.toReal_eq hfinite hgrid⟩

/-- The upper end of the range in which two numbers are left as they are. -/
theorem rescaleHigh_eq : (rescaleHigh : Float).isFinite = true ∧
    toReal (rescaleHigh : Float) = 2 ^ (485 : ℤ) := by
  have hquotient := isRounded_div isFinite_one rescaleLow_eq.1
    (by rw [rescaleLow_eq.2]; positivity)
  rw [toReal_one, rescaleLow_eq.2, one_div, ← zpow_neg, neg_neg] at hquotient
  have hgrid := onGrid_two_zpow (e := 485) (by norm_num)
  have hfinite := hquotient.finite _ hgrid (abs_of_pos (by positivity)).le
    (zpow_lt_zpow_right₀ one_lt_two (by norm_num))
  exact ⟨hfinite, hquotient.toReal_eq hfinite hgrid⟩

/-- The larger magnitude of two numbers. -/
noncomputable def spread (pair : Float × Float) : ℝ :=
  max |toReal pair.1| |toReal pair.2|

/-- Two finite numbers whose larger magnitude is well inside the range. -/
structure WellScaled (pair : Float × Float) : Prop where
  first : pair.1.isFinite = true
  second : pair.2.isFinite = true
  low : 2 ^ (-485 : ℤ) < spread pair
  high : spread pair < 2 ^ (485 : ℤ)

/-- The larger magnitude of two numbers is that of the computed maximum. -/
theorem toReal_maxNum_abs (hx : x.isFinite = true) (hy : y.isFinite = true) :
    (maxNum (Scalar.abs y) (Scalar.abs x)).isFinite = true ∧
      toReal (maxNum (Scalar.abs y) (Scalar.abs x)) = spread (x, y) := by
  have hx' : (Scalar.abs x).isFinite = true := (isFinite_abs_iff x).trans hx
  have hy' : (Scalar.abs y).isFinite = true := (isFinite_abs_iff y).trans hy
  refine ⟨isFinite_maxNum hy' hx', (toReal_maxNum hy' hx').trans ?_⟩
  exact (congrArg₂ max (toReal_abs y) (toReal_abs x)).trans (max_comm _ _)

/-- Two numbers below the range are scaled exactly. -/
theorem spread_mul_rescaleHigh (hx : x.isFinite = true) (hy : y.isFinite = true)
    (hsmall : spread (x, y) ≤ 2 ^ (-485 : ℤ)) :
    (x * rescaleHigh).isFinite = true ∧ (y * rescaleHigh).isFinite = true ∧
      spread (x * rescaleHigh, y * rescaleHigh) = spread (x, y) * 2 ^ (485 : ℤ) := by
  have hscaled {z : Float} (hz : z.isFinite = true) (hz' : |toReal z| ≤ spread (x, y)) :=
    mul_two_zpow_eq (by norm_num) rescaleHigh_eq.1 rescaleHigh_eq.2 hz (by
      calc |toReal z| * 2 ^ (485 : ℤ) ≤ 2 ^ (-485 : ℤ) * 2 ^ (485 : ℤ) := by
            gcongr
            exact hz'.trans hsmall
        _ = 1 := rescaleLow_mul_rescaleHigh
        _ ≤ 2 ^ (1010 : ℤ) := one_le_zpow₀ one_le_two (by norm_num))
  obtain ⟨hx', hxEq⟩ := hscaled hx (le_max_left _ _)
  obtain ⟨hy', hyEq⟩ := hscaled hy (le_max_right _ _)
  refine ⟨hx', hy', ?_⟩
  simp only [spread]
  rw [hxEq, hyEq, abs_mul, abs_mul, abs_of_pos (show (0 : ℝ) < 2 ^ (485 : ℤ) by positivity),
    max_mul_of_nonneg _ _ (by positivity)]

/-- Scaling brings two numbers that do not both vanish into the range, with a step for each factor
that is missing. -/
theorem wellScaled_rescale (fuel : Nat) (hx : x.isFinite = true) (hy : y.isFinite = true)
    (hlow : 2 ^ (-485 * (fuel + 1) : ℤ) < spread (x, y)) (hhigh : spread (x, y) < 2 ^ (485 : ℤ)) :
    WellScaled (rescale fuel x y) := by
  induction fuel generalizing x y with
  | zero => exact ⟨hx, hy, by simpa [rescale] using hlow, hhigh⟩
  | succ fuel ih =>
    obtain ⟨hmaxFinite, hmax⟩ := toReal_maxNum_abs hx hy
    have habove : ¬rescaleHigh ≤ maxNum (Scalar.abs y) (Scalar.abs x) := by
      rw [le_iff_toReal rescaleHigh_eq.1 hmaxFinite, hmax, rescaleHigh_eq.2, not_le]
      exact hhigh
    have hbelow : maxNum (Scalar.abs y) (Scalar.abs x) ≤ rescaleLow ↔
        spread (x, y) ≤ 2 ^ (-485 : ℤ) := by
      rw [le_iff_toReal hmaxFinite rescaleLow_eq.1, hmax, rescaleLow_eq.2]
    rw [rescale, if_neg habove]
    split
    · rename_i hsmall
      have hle := hbelow.mp hsmall
      obtain ⟨hx', hy', hspread⟩ := spread_mul_rescaleHigh hx hy hle
      refine ih hx' hy' ?_ ?_
      · rw [hspread, show (-485 * (fuel + 1) : ℤ) = -485 * ((fuel + 1 : Nat) + 1) + 485 by
          push_cast; ring, zpow_add₀ two_ne_zero]
        exact mul_lt_mul_of_pos_right hlow (by positivity)
      · rw [hspread]
        calc spread (x, y) * 2 ^ (485 : ℤ) ≤ 2 ^ (-485 : ℤ) * 2 ^ (485 : ℤ) := by gcongr
          _ = 1 := rescaleLow_mul_rescaleHigh
          _ < 2 ^ (485 : ℤ) := one_lt_zpow₀ one_lt_two (by norm_num)
    · rename_i hlarge
      exact ⟨hx, hy, not_le.mp (mt hbelow.mpr hlarge), hhigh⟩

end Rescaling

section Equalizing

/-- The length of two numbers that are well scaled is not far below a power of two that bounds both
of them. -/
theorem WellScaled.exists_length (h : WellScaled (x, y)) : ∃ t : ℤ, -485 ≤ t ∧ t < 485 ∧
    Within (2 ^ (t + 1)) x ∧ Within (2 ^ (t + 1)) y ∧
    Within (2 ^ (505 : ℤ)) (Scalar.hypot x y) ∧ 2 ^ (t - 4) ≤ toReal (Scalar.hypot x y) := by
  obtain ⟨hx, hy, hlow, hhigh⟩ := h
  have hspread : 0 < spread (x, y) := lt_of_lt_of_le (by positivity) hlow.le
  obtain ⟨t, ht, ht'⟩ := exists_mem_Ico_zpow hspread one_lt_two
  have htlow : -485 < t + 1 := (zpow_lt_zpow_iff_right₀ one_lt_two).mp (hlow.trans ht')
  have hthigh : t < 485 := (zpow_lt_zpow_iff_right₀ one_lt_two).mp (ht.trans_lt hhigh)
  have hxLe : Within (2 ^ (t + 1)) x := ⟨hx, (le_max_left _ _).trans ht'.le⟩
  have hyLe : Within (2 ^ (t + 1)) y := ⟨hy, (le_max_right _ _).trans ht'.le⟩
  have hlength : IsLength (spread (x, y)) (Scalar.hypot x y) :=
    isLength_hypot (hxLe.mono_two_zpow (by omega)) (hyLe.mono_two_zpow (by omega))
  have hpos : 0 < toReal (Scalar.hypot x y) :=
    hlength.pos ((zpow_le_zpow_right₀ one_le_two (by norm_num)).trans hlow.le)
  refine ⟨t, by omega, hthigh, hxLe, hyLe,
    ⟨hlength.finite, (abs_of_pos hpos).trans_le hlength.high⟩, ?_⟩
  have hdominates := hlength.dominates hpos.ne'
  have hsixteen : (2 : ℝ) ^ t = 16 * 2 ^ (t - 4) := by rw [sixteen_mul_two_zpow, sub_add_cancel]
  linarith

/-- The cosine of half an angle whose cosine is not negative: it is at least one half. -/
theorem halvedCosine_bounds {z : Float} (hz : Within (2 ^ (5 : ℤ)) z) (hnonneg : 0 ≤ toReal z) :
    Within (2 ^ (3 : ℤ)) (sqrt (half * (1 + z))) ∧
      2 ^ (-1 : ℤ) ≤ toReal (sqrt (half * (1 + z))) := by
  have hsum := (within_one_two_zpow (e := 5) (by norm_num)).add_two_zpow hz (by norm_num)
    (by norm_num)
  have hsumGe : 1 ≤ toReal (1 + z) :=
    (isRounded_add isFinite_one hz.isFinite).ge hsum.isFinite 1 onGrid_one
      (by rw [toReal_one]; linarith)
  have hhalf := hsum.half_mul
  have hhalfGe : (2 : ℝ) ^ (-1 : ℤ) ≤ toReal (half * (1 + z)) := by
    refine (isRounded_mul isFinite_half hsum.isFinite).ge hhalf.isFinite _
      (onGrid_two_zpow (by norm_num)) ?_
    rw [toReal_half]
    norm_num
    linarith
  have hpos : 0 < toReal (half * (1 + z)) := lt_of_lt_of_le (by positivity) hhalfGe
  have hroot : Within (2 ^ (3 : ℤ)) (sqrt (half * (1 + z))) :=
    Within.sqrt_two_zpow (hhalf.mono_two_zpow (by norm_num)) hpos.le (by norm_num) (by norm_num)
  refine ⟨hroot, (isRounded_sqrt hhalf.isFinite hpos.le).ge hroot.isFinite _
    (onGrid_two_zpow (by norm_num)) (Real.le_sqrt_of_sq_le (le_trans ?_ hhalfGe))⟩
  norm_num

/-- The rotation that makes the diagonal entries equal, from two numbers that are well scaled. -/
theorem equalizing_bounded (h : WellScaled (x, y)) :
    let tau := Scalar.hypot x y
    let cs := sqrt (half * (1 + Scalar.abs x / tau))
    let sn := -(half * y / (tau * cs)) * Scalar.copySign 1 x
    GivensRotation.Bounded 6 ⟨cs, sn⟩ := by
  intro tau cs sn
  obtain ⟨t, hlow, hhigh, hx, hy, htau, htauGe⟩ := h.exists_length
  have hxAbs : Within (2 ^ (t + 1)) (Scalar.abs x) := within_abs_iff.mpr hx
  have hquotient : Within (2 ^ (5 : ℤ)) (Scalar.abs x / tau) :=
    (hxAbs.div_two_zpow htau.isFinite htauGe (by omega) (by omega)).mono_two_zpow (by omega)
  have htauPos : 0 < toReal tau := lt_of_lt_of_le (by positivity) htauGe
  have hnonneg : 0 ≤ toReal (Scalar.abs x / tau) := by
    refine (isRounded_div hxAbs.isFinite htau.isFinite htauPos.ne').ge hquotient.isFinite 0
      onGrid_zero ?_
    rw [show toReal (Scalar.abs x) = |toReal x| from toReal_abs x]
    positivity
  obtain ⟨hcs, hcsGe⟩ := halvedCosine_bounds hquotient hnonneg
  have hproduct : Within (2 ^ (505 + 3 : ℤ)) (tau * cs) :=
    htau.mul_two_zpow hcs (by norm_num) (by norm_num)
  have hproductGe : (2 : ℝ) ^ (t - 5) ≤ toReal (tau * cs) := by
    refine (isRounded_mul htau.isFinite hcs.isFinite).ge hproduct.isFinite _
      (onGrid_two_zpow (by omega)) ?_
    calc (2 : ℝ) ^ (t - 5) = 2 ^ (t - 4) * 2 ^ (-1 : ℤ) := by
          rw [← zpow_add₀ two_ne_zero]
          congr 1
          ring
      _ ≤ toReal tau * toReal cs := by gcongr
  have hratio : Within (2 ^ (6 : ℤ)) (half * y / (tau * cs)) :=
    (hy.half_mul.div_two_zpow hproduct.isFinite hproductGe (by omega)
      (by omega)).mono_two_zpow (by omega)
  have hone : Within (2 ^ (0 : ℤ)) (Scalar.copySign 1 x) := by
    rw [zpow_zero]
    exact within_copySign_one x
  exact ⟨hcs.mono_two_zpow (by norm_num), hratio.neg.mul_two_zpow hone (by norm_num) (by norm_num)⟩

/-- The entries and the rotation of a block are bounded. -/
structure Bounded (e g : ℤ) (block : StandardBlock Float) : Prop where
  a : Within (2 ^ e) block.a
  b : Within (2 ^ e) block.b
  c : Within (2 ^ e) block.c
  d : Within (2 ^ e) block.d
  rotation : block.rotation.Bounded g

/-- A block with a zero below its diagonal does not hold a pair. -/
theorem not_holdsPair {block : StandardBlock Float} (h : block.c = 0) :
    ¬block.holdsPair = true := by
  have hself : ((0 : Float) == 0) = true := (beq_iff_toReal isFinite_zero isFinite_zero).mpr rfl
  rw [holdsPair, h, bne, Bool.not_eq_true']
  exact fun hother => Bool.false_ne_true (hother.symm.trans hself)

variable {a b c d : Float}

section

variable (ha : Within (2 ^ e) a) (hb : Within (2 ^ e) b) (hc : Within (2 ^ e) c)
  (hd : Within (2 ^ e) d) (hlow : -500 ≤ e) (hhigh : e ≤ 480)
include ha hb hc hd hlow hhigh

/-- A block whose diagonal entries were made equal, unless the two numbers that fix the rotation
both vanish. -/
theorem equalized_bounded (hne : toReal (b + c) ≠ 0 ∨ toReal (a - d) ≠ 0) :
    (equalized a b c d).Bounded (e + 14) 6 := by
  have hsum := hb.add_two_zpow hc (by omega) (by omega)
  have hdifference := ha.sub_two_zpow hd (by omega) (by omega)
  have hlowest : (2 : ℝ) ^ (-1074 : ℤ) ≤ spread (b + c, a - d) := by
    rcases hne with hne | hne
    · exact ((onGrid_toReal _).abs_ge hne).trans (le_max_left _ _)
    · exact ((onGrid_toReal _).abs_ge hne).trans (le_max_right _ _)
  have hscaled : WellScaled (rescale 21 (b + c) (a - d)) := by
    refine wellScaled_rescale 21 hsum.isFinite hdifference.isFinite ?_ ?_
    · exact (zpow_lt_zpow_right₀ one_lt_two (by norm_num)).trans_le hlowest
    · exact (max_le hsum.abs_le hdifference.abs_le).trans_lt
        (zpow_lt_zpow_right₀ one_lt_two (by omega))
  obtain ⟨hcs, hsn⟩ := equalizing_bounded hscaled
  set cs := sqrt (half * (1 + Scalar.abs (rescale 21 (b + c) (a - d)).1 /
    Scalar.hypot (rescale 21 (b + c) (a - d)).1 (rescale 21 (b + c) (a - d)).2))
  set sn := -(half * (rescale 21 (b + c) (a - d)).2 /
    (Scalar.hypot (rescale 21 (b + c) (a - d)).1 (rescale 21 (b + c) (a - d)).2 * cs)) *
      Scalar.copySign 1 (rescale 21 (b + c) (a - d)).1
  have hfirst {x y : Float} (hx : Within (2 ^ e) x) (hy : Within (2 ^ e) y) {c s : Float}
      (hc : Within (2 ^ (6 : ℤ)) c) (hs : Within (2 ^ (6 : ℤ)) s) :=
    (within_turn hx hy hc hs (by omega) (by omega)).1
  have hsecond {x y : Float} (hx : Within (2 ^ (e + 6 + 1)) x) (hy : Within (2 ^ (e + 6 + 1)) y)
      {c s : Float} (hc : Within (2 ^ (6 : ℤ)) c) (hs : Within (2 ^ (6 : ℤ)) s) :
      Within (2 ^ (e + 14)) (x * c + y * s) :=
    (within_turn hx hy hc hs (by omega) (by omega)).1.mono_two_zpow (by omega)
  have haa : Within (2 ^ (e + 6 + 1)) (a * cs + b * sn) := hfirst ha hb hcs hsn
  have hbb : Within (2 ^ (e + 6 + 1)) (-a * sn + b * cs) := hfirst ha.neg hb hsn hcs
  have hcc : Within (2 ^ (e + 6 + 1)) (c * cs + d * sn) := hfirst hc hd hcs hsn
  have hdd : Within (2 ^ (e + 6 + 1)) (-c * sn + d * cs) := hfirst hc.neg hd hsn hcs
  exact ⟨hsecond haa hcc hcs hsn, hsecond hbb hdd hcs hsn, hsecond haa.neg hcc hsn hcs,
    hsecond hbb.neg hdd hsn hcs, hcs, hsn⟩

omit ha hb hc hd hlow hhigh in
/-- Finishing a block that keeps a pair only changes its diagonal. -/
theorem settle_bounded {block : StandardBlock Float} (h : block.Bounded e g) (hlow : -1074 ≤ e)
    (hhigh : e + 1 < 1024) (hpair : (settle block).holdsPair = true) :
    (settle block).Bounded (e + 1) g := by
  obtain ⟨ha, hb, hc, hd, hrotation⟩ := h
  have hmean := (ha.add_two_zpow hd (by omega) hhigh).half_mul
  have hkeep : ({ block with a := half * (block.a + block.d), d := half * (block.a + block.d) } :
      StandardBlock Float).Bounded (e + 1) g :=
    ⟨hmean, hb.mono_two_zpow (by omega), hc.mono_two_zpow (by omega), hmean, hrotation⟩
  unfold settle at hpair ⊢
  dsimp only at hpair ⊢
  split_ifs at hpair ⊢
  · exact hkeep
  · exact absurd hpair (not_holdsPair rfl)
  · exact absurd hpair (not_holdsPair rfl)
  · exact hkeep

end

end Equalizing

end StandardBlock

open StandardBlock in
/-- The standard form of a bounded block, if it still holds a pair. -/
theorem standardize_bounded {a b c d : Float} (ha : Within (2 ^ e) a) (hb : Within (2 ^ e) b)
    (hc : Within (2 ^ e) c) (hd : Within (2 ^ e) d) (hlow : -500 ≤ e) (hhigh : e ≤ 480)
    (hpair : (standardize a b c d).holdsPair = true) :
    (standardize a b c d).Bounded (e + 15) 6 := by
  have hidentity : (GivensRotation.identity : GivensRotation Float).Bounded 6 :=
    ⟨within_one_two_zpow (by norm_num), within_zero_two_zpow _⟩
  have hkeep : (⟨a, b, c, d, .identity⟩ : StandardBlock Float).Bounded (e + 15) 6 :=
    ⟨ha.mono_two_zpow (by omega), hb.mono_two_zpow (by omega), hc.mono_two_zpow (by omega),
      hd.mono_two_zpow (by omega), hidentity⟩
  unfold standardize at hpair ⊢
  dsimp only at hpair ⊢
  split_ifs at hpair ⊢ with hc0 hb0 hequal hsplit
  · exact hkeep
  · exact absurd hpair (not_holdsPair rfl)
  · exact hkeep
  · exact absurd hpair (not_holdsPair rfl)
  · -- entries that cancel while the diagonal is constant would have been kept
    have hne : toReal (b + c) ≠ 0 ∨ toReal (a - d) ≠ 0 := by
      by_contra hboth
      obtain ⟨hsum, hdifference⟩ := not_or.mp hboth
      rw [not_not] at hsum hdifference
      have hsumFinite := (hb.add_two_zpow hc (by omega) (by omega)).isFinite
      have hdifferenceFinite := (ha.sub_two_zpow hd (by omega) (by omega)).isFinite
      refine hequal ?_
      rw [Bool.and_eq_true]
      refine ⟨(beq_iff_toReal hdifferenceFinite isFinite_zero).mpr hdifference, ?_⟩
      refine sign_ne_of_add_eq_zero hb.isFinite hc.isFinite (fun hzero => hb0 ?_)
        (add_eq_zero_of_toReal hb.isFinite hc.isFinite hsumFinite hsum)
      exact (beq_iff_toReal hb.isFinite isFinite_zero).mpr hzero
    have hturned := equalized_bounded ha hb hc hd hlow hhigh hne
    rw [show e + 15 = e + 14 + 1 by ring]
    exact settle_bounded hturned (by omega) (by omega) hpair

namespace DiagonalBlock

/-- The diagonal and the rotations of a block are bounded. -/
structure Bounded (e g : ℤ) (block : DiagonalBlock Float) : Prop where
  d0 : Within (2 ^ e) block.d0
  d1 : Within (2 ^ e) block.d1
  left : block.left.Bounded g
  right : block.right.Bounded g

/-- A number over the length of two numbers of which one is as large, if the length does not
vanish. -/
theorem within_div_hypot (hx : Within (2 ^ (500 : ℤ)) x) (hy : Within (2 ^ (500 : ℤ)) y)
    (hpos : 0 < Scalar.hypot x y) {z : Float} (hz : z.isFinite = true)
    (hle : |toReal z| ≤ max |toReal x| |toReal y|) :
    Within (2 ^ (4 : ℤ)) (z / Scalar.hypot x y) := by
  have hlength : IsLength (max |toReal x| |toReal y|) (Scalar.hypot x y) := isLength_hypot hx hy
  have hlengthPos : 0 < toReal (Scalar.hypot x y) :=
    (lt_iff_toReal isFinite_zero hlength.finite).mp hpos
  refine within_div hz hlength.finite hlengthPos.ne' ?_ (onGrid_two_zpow (by norm_num))
    (zpow_lt_zpow_right₀ one_lt_two (by norm_num))
  rw [abs_of_pos hlengthPos, show (2 : ℝ) ^ (4 : ℤ) = 16 by norm_num]
  exact hle.trans (hlength.dominates hlengthPos.ne')

end DiagonalBlock

open DiagonalBlock in
/-- The diagonal form of a bounded block. -/
theorem diagonalize_bounded (hangles : Angles.Documented) {a b c d : Float} (ha : Within (2 ^ e) a)
    (hb : Within (2 ^ e) b) (hc : Within (2 ^ e) c) (hd : Within (2 ^ e) d) (hlow : -500 ≤ e)
    (hhigh : e ≤ 480) : (diagonalize a b c d).Bounded (e + 6) 4 := by
  have hgram {x y z w : Float} (hx : Within (2 ^ e) x) (hy : Within (2 ^ e) y)
      (hz : Within (2 ^ e) z) (hw : Within (2 ^ e) w) : Within (2 ^ (e + e + 1)) (x * y + z * w) :=
    (within_turn hx hz hy hw (by omega) (by omega)).1
  obtain ⟨theta, htheta⟩ : ∃ theta : Float, theta =
      half * Scalar.atan2 (two * (a * b + c * d)) (a * a + c * c - (b * b + d * d)) := ⟨_, rfl⟩
  have hthetaFinite : theta.isFinite = true := by
    have hordinate := within_two.mul_two_zpow (hgram ha hb hc hd) (by omega) (by omega)
    have habscissa := (hgram ha ha hc hc).sub_two_zpow (hgram hb hb hd hd) (by omega) (by omega)
    have hangle := hangles.atan2 _ _ hordinate.isFinite habscissa.isFinite
    rw [htheta]
    exact (Within.half_mul ⟨hangle, le_rfl⟩).isFinite
  obtain ⟨hcos, hsin⟩ : Within (2 ^ (0 : ℤ)) (Scalar.cos theta) ∧
      Within (2 ^ (0 : ℤ)) (Scalar.sin theta) :=
    ⟨within_of_abs_le (by norm_num) (by norm_num) (hangles.cos theta hthetaFinite),
      within_of_abs_le (by norm_num) (by norm_num) (hangles.sin theta hthetaFinite)⟩
  have hturned {c s x y : Float} (hc : Within (2 ^ (0 : ℤ)) c) (hs : Within (2 ^ (0 : ℤ)) s)
      (hx : Within (2 ^ e) x) (hy : Within (2 ^ e) y) : Within (2 ^ (e + 1)) (c * x + s * y) :=
    (within_turn hc hs hx hy (by omega) (by omega)).1.mono_two_zpow (by omega)
  have hx0 := hturned hcos hsin ha hb
  have hy0 := hturned hcos hsin hc hd
  have hx1 := hturned hsin.neg hcos ha hb
  have hy1 := hturned hsin.neg hcos hc hd
  have hrange : e + 1 ≤ 500 := by omega
  have hleft : (diagonalize a b c d).left.Bounded 4 := by
    simp only [diagonalize, ← htheta]
    split_ifs with hpos hpos
    · have hdiv {z : Float} := within_div_hypot (z := z) (hx0.mono_two_zpow hrange)
        (hy0.mono_two_zpow hrange) hpos
      exact ⟨hdiv hx0.isFinite (le_max_left _ _), hdiv hy0.isFinite (le_max_right _ _)⟩
    · have hdiv {z : Float} := within_div_hypot (z := z) (hx1.mono_two_zpow hrange)
        (hy1.mono_two_zpow hrange) hpos
      refine ⟨hdiv hy1.isFinite (le_max_right _ _), hdiv hx1.neg.isFinite ?_⟩
      rw [toReal_neg, abs_neg]
      exact le_max_left _ _
    · exact ⟨within_one_two_zpow (by norm_num), within_zero_two_zpow _⟩
  have hdiagonal {c s x y : Float} (hc : Within (2 ^ (4 : ℤ)) c) (hs : Within (2 ^ (4 : ℤ)) s)
      (hx : Within (2 ^ (e + 1)) x) (hy : Within (2 ^ (e + 1)) y) :
      Within (2 ^ (e + 6)) (c * x + s * y) :=
    (within_turn hc hs hx hy (by omega) (by omega)).1.mono_two_zpow (by omega)
  have hright : (diagonalize a b c d).right.Bounded 4 := by
    simp only [diagonalize, ← htheta]
    exact ⟨hcos.mono_two_zpow (by norm_num), hsin.mono_two_zpow (by norm_num)⟩
  refine ⟨?_, ?_, hleft, hright⟩
  · have hd0 := hdiagonal hleft.c hleft.s hx0 hy0
    simpa only [diagonalize, ← htheta] using hd0
  · have hd1 := hdiagonal hleft.s.neg hleft.c hx1 hy1
    simpa only [diagonalize, ← htheta] using hd1

end SchurForm
