import Mathlib
import SchurForm.Binary64

/-!
# Rounding to binary64 numbers

A rounded number is a mantissa of at most 53 bits at an exponent from -1074 on. Rounding shifts the
mantissa of an exact result to its place, rounds it up or down, and shifts once more if it grew to
the next power of two. Only orders of magnitude are kept track of here: rounding never lowers the
order of a number in the range of the format and raises it by at most one. Packing loses nothing of
a rounded number, except that one past the largest exponent becomes infinite.
-/

namespace SchurForm

namespace Binary64

open Float.Model (UnpackedFloat Format totalExponent)
open Float.Model.UnpackedFloat

/-- The exponent of the greatest power of two that `m * 2 ^ e` reaches. -/
def order (m : ℕ) (e : ℤ) : ℤ := m.log2 + e

/-- The mantissa and the exponent of a number as the format holds them. -/
structure Canonical (m : ℕ) (e : ℤ) : Prop where
  mantissa_lt : m < 2 ^ 53
  exponent_ge : -1074 ≤ e
  normal : 2 ^ 52 ≤ m ∨ e = -1074

/-- The exponent that rounding aims at. -/
theorem targetExponent_eq (k : ℤ) :
    Format.binary64.targetExponent k = max (k - 53) (-1074) := rfl

/-- The exponent that rounding aims at, by the order of the number. -/
theorem targetExponent_totalExponent (m : ℕ) (e : ℤ) :
    Format.binary64.targetExponent (totalExponent m e) = max (order m e - 52) (-1074) := by
  rw [targetExponent_eq, totalExponent, order]
  congr 1
  omega

/-- A shift to the right divides the mantissa. -/
@[simp] theorem mantissa_shiftRight (em : ExtendedMantissa) (k : ℕ) :
    (em >>> k).mantissa = em.mantissa / 2 ^ k := by
  induction k with
  | zero => simp [HShiftRight.hShiftRight, Nat.repeat]
  | succ k ih =>
    calc (em >>> (k + 1)).mantissa = (em >>> k).mantissa / 2 := rfl
      _ = em.mantissa / 2 ^ (k + 1) := by rw [ih, Nat.div_div_eq_div_mul, pow_succ]

/-- The accuracy is not a part of the mantissa. -/
@[simp] theorem mantissa_ofMantissaAndAccuracy (m : ℕ) (acc : Accuracy) :
    (ExtendedMantissa.ofMantissaAndAccuracy m acc).mantissa = m := by
  rcases acc with _ | _ | _ | _ <;> rfl

/-- Rounding raises a mantissa by one at most. -/
theorem roundedMantissa_bounds (em : ExtendedMantissa) :
    em.mantissa ≤ em.roundedMantissa ∧ em.roundedMantissa ≤ em.mantissa + 1 := by
  rcases em with ⟨m, _ | _, _ | _⟩ <;>
    simp only [ExtendedMantissa.roundedMantissa, ExtendedMantissa.accuracy,
      Accuracy.roundToNearestEven] <;> omega

/-- The bits of a quotient by a power of two. -/
theorem log2_div_two_pow {m k : ℕ} (hm : 0 < m) (hk : k ≤ m.log2) :
    0 < m / 2 ^ k ∧ (m / 2 ^ k).log2 = m.log2 - k := by
  have hpos : 0 < m / 2 ^ k :=
    Nat.div_pos ((Nat.le_log2 hm.ne').mp hk) (Nat.two_pow_pos k)
  refine ⟨hpos, (Nat.log2_eq_iff hpos.ne').mpr ⟨?_, ?_⟩⟩
  · rw [Nat.le_div_iff_mul_le (Nat.two_pow_pos k), ← pow_add, Nat.sub_add_cancel hk]
    exact Nat.log2_self_le hm.ne'
  · rw [Nat.div_lt_iff_lt_mul (Nat.two_pow_pos k), ← pow_add,
      show m.log2 - k + 1 + k = m.log2 + 1 by omega]
    exact Nat.lt_log2_self

/-- The second shift of rounding, of the rounded mantissa `r`. -/
def carried (s : Sign) (r : ℕ) (e : ℤ) : UnpackedFloat :=
  let shift := (max (order r e - 52) (-1074) - e).toNat
  if h : r / 2 ^ shift = 0 then .zero s
  else .finite s (r / 2 ^ shift) (e + shift) (Nat.pos_of_ne_zero h)

/-- Rounding shifts a mantissa to its place, rounds it and shifts once more. -/
theorem roundWithAccuracy_eq (s : Sign) (m : ℕ) (e : ℤ) (acc : Accuracy) {k : ℕ}
    (hk : k = (max (order m e - 52) (-1074) - e).toNat) :
    roundWithAccuracy .binary64 s m e acc =
      carried s (ExtendedMantissa.ofMantissaAndAccuracy m acc >>> k).roundedMantissa (e + k) := by
  simp only [roundWithAccuracy, shiftToTargetExponent, shiftToExponent, carried,
    targetExponent_totalExponent, mantissa_shiftRight, mantissa_ofMantissaAndAccuracy, ← hk]

/-- The rounded mantissa is what remains in its place, or one more. -/
theorem exists_roundWithAccuracy_eq (s : Sign) (m : ℕ) (e : ℤ) (acc : Accuracy) :
    ∃ k r : ℕ, e + k = max e (max (order m e - 52) (-1074)) ∧
      m / 2 ^ k ≤ r ∧ r ≤ m / 2 ^ k + 1 ∧
      roundWithAccuracy .binary64 s m e acc = carried s r (e + k) := by
  set k := (max (order m e - 52) (-1074) - e).toNat with hk
  set em := ExtendedMantissa.ofMantissaAndAccuracy m acc >>> k with hem
  have hmantissa : em.mantissa = m / 2 ^ k := by simp [hem]
  obtain ⟨hlow, hhigh⟩ := roundedMantissa_bounds em
  exact ⟨k, em.roundedMantissa, by omega, hmantissa ▸ hlow, hmantissa ▸ hhigh,
    roundWithAccuracy_eq s m e acc hk⟩

/-- A mantissa that fits is not shifted again. -/
theorem carried_of_lt (s : Sign) {r : ℕ} {e : ℤ} (hr : 0 < r) (hlt : r < 2 ^ 53) (he : -1074 ≤ e) :
    carried s r e = .finite s r e hr := by
  have hlog : r.log2 < 53 := (Nat.log2_lt hr.ne').mpr hlt
  have hshift : (max (order r e - 52) (-1074) - e).toNat = 0 := by
    unfold order
    omega
  simp [carried, hshift, hr.ne']

/-- A mantissa that grew to the next power of two is shifted by one place. -/
theorem carried_full (s : Sign) {e : ℤ} (he : -1074 ≤ e) :
    carried s (2 ^ 53) e = .finite s (2 ^ 52) (e + 1) (Nat.two_pow_pos 52) := by
  have hshift : (max (order (2 ^ 53) e - 52) (-1074) - e).toNat = 1 := by
    simp only [order, Nat.log2_two_pow]
    omega
  simp only [carried, hshift]
  norm_num

/-- The second shift gives a number of the format and keeps its order. -/
theorem carried_spec (s : Sign) {r : ℕ} {e : ℤ} (hr : 0 < r) (hle : r ≤ 2 ^ 53) (he : -1074 ≤ e)
    (hnormal : 2 ^ 52 ≤ r ∨ e = -1074) :
    ∃ m' e' h, carried s r e = .finite s m' e' h ∧ Canonical m' e' ∧ order m' e' = order r e := by
  rcases hle.lt_or_eq with hlt | rfl
  · exact ⟨r, e, hr, carried_of_lt s hr hlt he, ⟨hlt, he, hnormal⟩, rfl⟩
  · refine ⟨2 ^ 52, e + 1, _, carried_full s he, ⟨by norm_num, by omega, .inl le_rfl⟩, ?_⟩
    simp only [order, Nat.log2_two_pow]
    omega

/-- Rounding gives a number of the format and at most doubles the magnitude, or it gives zero. -/
theorem roundWithAccuracy_spec (s : Sign) {m : ℕ} (hm : 0 < m) {e : ℤ} (acc : Accuracy)
    (he : e ≤ max (order m e - 52) (-1074)) :
    (∃ m' e' h, roundWithAccuracy .binary64 s m e acc = .finite s m' e' h ∧ Canonical m' e' ∧
        order m' e' ≤ max (order m e + 1) (-1074) ∧
        (-1074 ≤ order m e → order m e ≤ order m' e')) ∨
      roundWithAccuracy .binary64 s m e acc = .zero s ∧ order m e < -1074 := by
  obtain ⟨k, r, hk, hlow, hhigh, hround⟩ := exists_roundWithAccuracy_eq s m e acc
  rw [max_eq_right he] at hk
  rw [hround]
  rcases Nat.lt_or_ge m.log2 k with hlost | hkept
  · -- every bit is shifted out, and at most the least number remains
    have hzero : m / 2 ^ k = 0 :=
      Nat.div_eq_of_lt (Nat.lt_log2_self.trans_le (Nat.pow_le_pow_right two_pos hlost))
    have hlost' : order m e < -1074 ∧ e + k = -1074 := by
      unfold order at *
      omega
    rcases (by omega : r = 0 ∨ r = 1) with rfl | rfl
    · exact .inr ⟨by simp [carried], hlost'.1⟩
    · obtain ⟨m', e', h, heq, hcanonical, horder⟩ :=
        carried_spec s one_pos (by norm_num) hlost'.2.ge (.inr hlost'.2)
      have hone : order 1 (e + k) = -1074 := by
        rw [hlost'.2]
        decide
      exact .inl ⟨m', e', h, heq, hcanonical, by omega, by omega⟩
  · obtain ⟨hpos, hlog⟩ := log2_div_two_pow hm hkept
    have hrpos : 0 < r := hpos.trans_le hlow
    have hhigh' : m / 2 ^ k < 2 ^ (m.log2 - k + 1) :=
      (Nat.log2_lt hpos.ne').mp (Nat.lt_succ_of_le hlog.le)
    have hlow' : 2 ^ (m.log2 - k) ≤ r := ((Nat.le_log2 hpos.ne').mp hlog.ge).trans hlow
    have hkey : m.log2 - k ≤ 52 ∧ (m.log2 - k = 52 ∨ e + k = -1074) := by
      unfold order at hk
      omega
    obtain ⟨m', e', h, heq, hcanonical, horder⟩ := carried_spec (e := e + k) s hrpos
      (calc r ≤ m / 2 ^ k + 1 := hhigh
        _ ≤ 2 ^ (m.log2 - k + 1) := hhigh'
        _ ≤ 2 ^ 53 := Nat.pow_le_pow_right two_pos (by omega))
      (by omega) (hkey.2.imp_left fun hfull : m.log2 - k = 52 => hfull ▸ hlow')
    have hrlog : m.log2 - k ≤ r.log2 ∧ r.log2 ≤ m.log2 - k + 1 := by
      refine ⟨(Nat.le_log2 hrpos.ne').mpr hlow', Nat.le_of_lt_succ ?_⟩
      rw [Nat.log2_lt hrpos.ne', Nat.pow_succ]
      omega
    refine .inl ⟨m', e', h, heq, hcanonical, ?_, fun _ => ?_⟩
    all_goals
      unfold order at *
      omega

section Packing

variable {s : Sign} {m : ℕ} {e : ℤ} {h : 0 < m}

/-- The leading bit is at most 52 places above the last one. -/
theorem Canonical.order_le (hc : Canonical m e) : order m e ≤ e + 52 := by
  rcases Nat.eq_zero_or_pos m with rfl | hm
  · simp [order]
  · have := (Nat.log2_lt hm.ne').mpr hc.mantissa_lt
    unfold order
    omega

/-- The exponent is no larger than the one that rounding aims at. -/
theorem Canonical.exponent_le (hc : Canonical m e) : e ≤ max (order m e - 52) (-1074) := by
  rcases hc.normal with hnormal | rfl
  · have := (Nat.le_log2 (by omega)).mpr hnormal
    unfold order
    omega
  · exact le_max_right _ _

/-- The bits of a mantissa with the leading one in front of it. -/
theorem toNat_leadingOne (b : BitVec 52) : (1#1 ++ b).toNat = 2 ^ 52 + b.toNat := by
  rw [BitVec.toNat_append, ← Nat.shiftLeft_add_eq_or_of_lt b.isLt]
  rfl

/-- The numbers that the format holds are canonical. -/
theorem canonical_unpack {b : BitVec 64} (hx : unpack .binary64 b = .finite s m e h) :
    Canonical m e ∧ e ≤ 971 := by
  have hmantissa : (@unpackMantissa .binary64 b).toNat < 2 ^ 52 :=
    (@unpackMantissa .binary64 b).isLt
  have hexp : (@unpackExponent .binary64 b).toNat < 2048 := (@unpackExponent .binary64 b).isLt
  have hbias : Format.binary64.exponentBias = 1023 := by decide
  unfold unpack at hx
  simp only [hbias] at hx
  split_ifs at hx with hinf hnone hzero hnone
  · simp only [UnpackedFloat.finite.injEq] at hx
    obtain ⟨-, rfl, rfl⟩ := hx
    rw [hzero]
    exact ⟨⟨hmantissa.trans (by norm_num), by decide, .inr (by decide)⟩, by decide⟩
  · have hfield : (@unpackExponent .binary64 b).toNat ≠ 0 ∧
        (@unpackExponent .binary64 b).toNat ≠ 2047 :=
      ⟨fun hn => hzero (BitVec.eq_of_toNat_eq hn), fun hn => hinf (BitVec.eq_of_toNat_eq hn)⟩
    simp only [UnpackedFloat.finite.injEq] at hx
    obtain ⟨-, rfl, rfl⟩ := hx
    have hlead := toNat_leadingOne (@unpackMantissa .binary64 b)
    exact ⟨⟨by omega, by omega, .inl (by omega)⟩, by omega⟩

/-- A mantissa with a leading one is positive. -/
theorem leadingOne_pos (b : BitVec 52) : 0 < (1#1 ++ b).toNat := by
  rw [toNat_leadingOne]
  positivity

/-- A field that is not zero is positive. -/
theorem toNat_pos_of_ne_zero {b : BitVec 52} (hb : b ≠ 0#52) : 0 < b.toNat :=
  Nat.pos_of_ne_zero fun hzero => hb (BitVec.eq_of_toNat_eq hzero)

/-- What the three fields of a packed number are read as. -/
theorem unpack_packComponents (s : Sign) (e : BitVec 11) (m : BitVec 52) :
    unpack .binary64 (packComponents .binary64 s e m) =
      if e = -1#11 then if m = 0#52 then .infinity s else .notANumber
      else if e = 0#11 then
        if h : m = 0#52 then .zero s
        else .finite s m.toNat (-1074) (toNat_pos_of_ne_zero h)
      else .finite s (1#1 ++ m).toNat (e.toNat - 1075) (leadingOne_pos m) := by
  have hbias : Format.binary64.exponentBias = 1023 := by decide
  unfold unpack
  simp only [unpackMantissa_packComponents, unpackExponent_packComponents,
    unpackSign_packComponents, Sign.ofBitVec_toBitVec, hbias]
  split_ifs with hinf _ hzero <;> simp_all

/-- Fields with different values are different. -/
theorem toNat_ne_of_ne {n : ℕ} {a b : BitVec n} (h : a.toNat ≠ b.toNat) : a ≠ b :=
  fun hab => h (hab ▸ rfl)

/-- Packing loses nothing of a number of the format whose exponent fits; a larger one becomes
infinite. -/
theorem unpack_pack_finite (hc : Canonical m e) :
    unpack .binary64 (pack .binary64 (.finite s m e h)) =
      if e ≤ 971 then .finite s m e h else .infinity s := by
  have hbias : Format.binary64.exponentBias = 1023 := by decide
  have hbits : Format.binary64.mantissaBits = 53 := rfl
  obtain ⟨hlt, hge, hnormal⟩ := hc
  unfold pack
  simp only [hbias, hbits]
  split_ifs with hbig hsmall hfull hsmall hsmall
  · omega
  · -- the exponent does not fit
    cases s <;> rfl
  · -- a normal number
    have hlow : 2 ^ 52 ≤ m := (Nat.le_log2 h.ne').mp (by omega)
    have hexp : (BitVec.ofNat 11 (e + (1023 : ℕ) + (52 : ℕ)).toNat).toNat = (e + 1075).toNat := by
      rw [BitVec.toNat_ofNat]
      omega
    have hmantissa : (1#1 ++ BitVec.ofNat 52 m).toNat = m := by
      rw [toNat_leadingOne, BitVec.toNat_ofNat]
      omega
    refine (unpack_packComponents s _ _).trans ?_
    rw [if_neg (toNat_ne_of_ne ?_), if_neg (toNat_ne_of_ne ?_)]
    · simp only [UnpackedFloat.finite.injEq, true_and]
      refine ⟨hmantissa, ?_⟩
      rw [hexp]
      omega
    · rw [hexp, show (0#11).toNat = 0 from rfl]
      omega
    · rw [hexp, show (-1#11).toNat = 2047 from rfl]
      omega
  · omega
  · -- a subnormal number
    have hlow : m < 2 ^ 52 := by
      have := (Nat.log2_lt h.ne').mpr hlt
      exact (Nat.log2_lt h.ne').mp (by omega)
    have hmantissa : (BitVec.ofNat 52 m).toNat = m := by
      rw [BitVec.toNat_ofNat]
      omega
    obtain rfl : e = -1074 := by omega
    refine (unpack_packComponents s _ _).trans ?_
    rw [if_neg (by decide), if_pos rfl, dif_neg (toNat_ne_of_ne ?_)]
    · simp only [UnpackedFloat.finite.injEq, true_and]
      exact ⟨hmantissa, trivial⟩
    · rw [hmantissa]
      simpa using h.ne'
  · omega

/-- What is read back after a number was packed. -/
def stored (u : UnpackedFloat) : UnpackedFloat :=
  unpack .binary64 (pack .binary64 u)

/-- Zeros are stored as they are. -/
theorem stored_zero (s : Sign) : stored (.zero s) = .zero s :=
  unpack_packedZero

/-- Infinities are stored as they are. -/
theorem stored_infinity (s : Sign) : stored (.infinity s) = .infinity s := by
  cases s <;> rfl

/-- What a number is, read from its bits. -/
abbrev datum (x : Float) : UnpackedFloat := x.toModel.unpack

/-- The format holds mantissa and exponent of a number. -/
theorem canonical_datum {x : Float} (hx : datum x = .finite s m e h) : Canonical m e :=
  (canonical_unpack hx).1

/-- A finite number that was read is stored as it is, whatever its sign is made. -/
theorem stored_withSign {x : Float} (hx : datum x = .finite s m e h) (t : Sign) :
    stored (.finite t m e h) = .finite t m e h := by
  obtain ⟨hc, he⟩ := canonical_unpack hx
  exact (unpack_pack_finite hc).trans (if_pos he)

/-- A number is stored as it is. -/
theorem stored_datum (x : Float) : stored (datum x) = datum x :=
  congrArg (unpack .binary64) (pack_unpack_of_valid x.toModel.valid)

/-- The magnitude of a number drops its sign. -/
theorem datum_abs (x : Float) : datum x.abs = (datum x).abs := by
  change stored (datum x).abs = _
  cases hx : datum x with
  | notANumber => rfl
  | infinity s => exact stored_infinity _
  | zero s => exact stored_zero _
  | finite s m e h => exact stored_withSign hx _

/-- Negation changes the sign. -/
theorem datum_neg (x : Float) : datum (-x) = (datum x).neg := by
  change stored (datum x).neg = _
  cases hx : datum x with
  | notANumber => rfl
  | infinity s => exact stored_infinity _
  | zero s => exact stored_zero _
  | finite s m e h => exact stored_withSign hx _

/-- A rounded number that is stored keeps its sign. It overflows or vanishes only at the ends of the
range, and else its magnitude at most doubles. -/
theorem stored_roundWithAccuracy (s : Sign) {m : ℕ} (hm : 0 < m) {e : ℤ} (acc : Accuracy)
    (he : e ≤ max (order m e - 52) (-1074)) :
    stored (roundWithAccuracy .binary64 s m e acc) = .infinity s ∧ 1023 ≤ order m e ∨
      stored (roundWithAccuracy .binary64 s m e acc) = .zero s ∧ order m e < -1074 ∨
      ∃ m' e' h, stored (roundWithAccuracy .binary64 s m e acc) = .finite s m' e' h ∧
        order m' e' ≤ max (order m e + 1) (-1074) ∧
        (-1074 ≤ order m e → order m e ≤ order m' e') := by
  rcases roundWithAccuracy_spec s hm acc he with ⟨m', e', h, heq, hc, hhigh, hlow⟩ | ⟨heq, hlost⟩
  · rw [heq, stored, unpack_pack_finite hc]
    split_ifs with hfits
    · exact .inr (.inr ⟨m', e', h, rfl, hhigh, hlow⟩)
    · have := hc.exponent_le
      exact .inl ⟨rfl, by omega⟩
  · exact .inr (.inl ⟨by rw [heq, stored_zero], hlost⟩)

/-- Only a number past the largest exponent is stored as an infinity. -/
theorem stored_finite_cases (s : Sign) (m : ℕ) (e : ℤ) (h : 0 < m) :
    (stored (.finite s m e h)).isFinite = true ∨
      stored (.finite s m e h) = .infinity s ∧ 971 < e := by
  have hbias : Format.binary64.exponentBias = 1023 := by decide
  unfold stored pack
  simp only [hbias]
  split_ifs with hbig hfull
  · exact .inr ⟨by cases s <;> rfl, by omega⟩
  · have hfield : BitVec.ofNat 11 (e + (1023 : ℕ) + (52 : ℕ)).toNat ≠ -1#11 := by
      apply toNat_ne_of_ne
      rw [BitVec.toNat_ofNat, show (-1#11).toNat = 2047 from rfl]
      omega
    refine .inl ((congrArg UnpackedFloat.isFinite (unpack_packComponents s _ _)).trans ?_)
    rw [if_neg hfield]
    split_ifs <;> rfl
  · refine .inl ((congrArg UnpackedFloat.isFinite (unpack_packComponents s _ _)).trans ?_)
    rw [if_neg (by decide), if_pos rfl]
    split_ifs <;> rfl

/-- Finite numbers are no NaNs. -/
theorem isNaN_of_isFinite {u : UnpackedFloat} (h : u.isFinite = true) : u.isNaN = false := by
  cases u with
  | notANumber => exact absurd h (by decide)
  | infinity s => rfl
  | zero s => rfl
  | finite s m e hm => rfl

/-- A rounded number is never a NaN. -/
theorem isNaN_stored_roundWithAccuracy (s : Sign) (m : ℕ) (e : ℤ) (acc : Accuracy) :
    (stored (roundWithAccuracy .binary64 s m e acc)).isNaN = false := by
  obtain ⟨k, r, -, -, -, hround⟩ := exists_roundWithAccuracy_eq s m e acc
  rw [hround, carried]
  split_ifs with hzero
  · rw [stored_zero]
    rfl
  · rcases stored_finite_cases s _ _ (Nat.pos_of_ne_zero hzero) with hfinite | ⟨heq, -⟩
    · exact isNaN_of_isFinite hfinite
    · rw [heq]
      rfl

/-- A rounded number of moderate exponent and order is stored as a finite number. -/
theorem isFinite_stored_roundWithAccuracy (s : Sign) (m : ℕ) {e : ℤ} (acc : Accuracy)
    (he : e ≤ 970) (hm : order m e ≤ 1022) :
    (stored (roundWithAccuracy .binary64 s m e acc)).isFinite = true := by
  obtain ⟨k, r, hk, hlow, hhigh, hround⟩ := exists_roundWithAccuracy_eq s m e acc
  have hmantissa : m / 2 ^ k < 2 ^ 53 := by
    rw [Nat.div_lt_iff_lt_mul (Nat.two_pow_pos k), ← pow_add]
    refine Nat.lt_log2_self.trans_le (Nat.pow_le_pow_right two_pos ?_)
    unfold order at hk
    omega
  have hr : r.log2 ≤ 53 := by
    rcases Nat.eq_zero_or_pos r with rfl | hrpos
    · simp
    · refine Nat.le_of_lt_succ ((Nat.log2_lt hrpos.ne').mpr ?_)
      omega
  rw [hround, carried]
  split_ifs with hzero
  · rw [stored_zero]
    rfl
  · refine (stored_finite_cases s _ _ _).resolve_right fun hlarge => ?_
    have := hlarge.2
    unfold order at *
    omega

end Packing

end Binary64

end SchurForm
