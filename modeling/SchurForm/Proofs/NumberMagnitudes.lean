import SchurForm.Proofs.FiniteNumbers

/-!
# Magnitudes of binary64 numbers

A quotient is finite unless its divisor is far below its dividend, and infinite divisors do no harm.
To bound a divisor from below, a sum is compared with one of its terms, and a product with one of
its factors.
-/

namespace SchurForm

namespace Binary64

open Float.Model (UnpackedFloat Format totalExponent)
open Float.Model.UnpackedFloat

variable {x y : Float} {u v : UnpackedFloat} {s : Sign} {m m₁ m₂ : ℕ} {e e₁ e₂ k : ℤ}

section Order

/-- The leading bit is at least the last one. -/
theorem le_order (m : ℕ) (e : ℤ) : e ≤ order m e := by
  unfold order
  omega

/-- The order of a product is the sum of the orders, or one more. -/
theorem order_mul (h₁ : 0 < m₁) (e₁ : ℤ) (h₂ : 0 < m₂) (e₂ : ℤ) :
    order m₁ e₁ + order m₂ e₂ ≤ order (m₁ * m₂) (e₁ + e₂) ∧
      order (m₁ * m₂) (e₁ + e₂) ≤ order m₁ e₁ + order m₂ e₂ + 1 := by
  have hpos : m₁ * m₂ ≠ 0 := (Nat.mul_pos h₁ h₂).ne'
  have hlow : m₁.log2 + m₂.log2 ≤ (m₁ * m₂).log2 := by
    rw [Nat.le_log2 hpos, pow_add]
    exact Nat.mul_le_mul (Nat.log2_self_le h₁.ne') (Nat.log2_self_le h₂.ne')
  have hhigh : (m₁ * m₂).log2 < m₁.log2 + 1 + (m₂.log2 + 1) := by
    rw [Nat.log2_lt hpos, pow_add]
    exact Nat.mul_lt_mul'' Nat.lt_log2_self Nat.lt_log2_self
  unfold order
  omega

/-- A shift moves the leading bit by as much. -/
theorem log2_shiftLeft (h : 0 < m) (n : ℕ) : (m <<< n).log2 = m.log2 + n := by
  rw [Nat.shiftLeft_eq, Nat.log2_eq_iff (by positivity)]
  constructor
  · rw [pow_add]
    exact Nat.mul_le_mul_right _ (Nat.log2_self_le h.ne')
  · rw [show m.log2 + n + 1 = m.log2 + 1 + n by omega, pow_add]
    exact Nat.mul_lt_mul_of_pos_right Nat.lt_log2_self (Nat.two_pow_pos n)

/-- A positive mantissa stays positive when bits are moved to it. -/
theorem decreaseExponent_pos (h : 0 < m) (e t : ℤ) : 0 < (decreaseExponent m e t).1 := by
  simp only [decreaseExponent, Nat.shiftLeft_eq]
  positivity

/-- Moving bits from the exponent to the mantissa keeps the order. -/
theorem order_decreaseExponent (h : 0 < m) (e t : ℤ) :
    order (decreaseExponent m e t).1 (decreaseExponent m e t).2 = order m e := by
  simp only [decreaseExponent, order, log2_shiftLeft h]
  omega

/-- The exact product of two numbers has all its bits. -/
theorem exponent_mul_le {s₁ s₂ : Sign} {h₁ : 0 < m₁} {h₂ : 0 < m₂}
    (hx : datum x = .finite s₁ m₁ e₁ h₁) (hy : datum y = .finite s₂ m₂ e₂ h₂) :
    e₁ + e₂ ≤ max (order (m₁ * m₂) (e₁ + e₂) - 52) (-1074) := by
  have hproduct := (order_mul h₁ e₁ h₂ e₂).1
  have hc₁ := (canonical_datum hx).exponent_le
  have hc₂ := (canonical_datum hy).exponent_le
  have hle₁ := le_order m₁ e₁
  have hle₂ := le_order m₂ e₂
  omega

end Order

section Below

/-- A finite number of magnitude below `2 ^ k`. -/
def Below (k : ℤ) : UnpackedFloat → Prop
  | .zero _ => True
  | .finite _ m e _ => order m e < k
  | _ => False

/-- A number below a power is zero or has a mantissa. -/
theorem Below.zero_or_finite (h : Below k u) :
    (∃ s, u = .zero s) ∨ ∃ s m e hm, u = .finite s m e hm ∧ order m e < k := by
  cases u with
  | notANumber => exact h.elim
  | infinity s => exact h.elim
  | zero s => exact .inl ⟨s, rfl⟩
  | finite s m e hm => exact .inr ⟨s, m, e, hm, rfl, h⟩

/-- Rounding an exact result brings its mantissa to full length first. -/
theorem exists_round_eq (s : Sign) (hm : 0 < m) (e : ℤ) :
    ∃ m' e', 0 < m' ∧ order m' e' = order m e ∧ e' ≤ max (order m' e' - 52) (-1074) ∧
      UnpackedFloat.round .binary64 s m e = roundWithAccuracy .binary64 s m' e' .exact := by
  set t := max (order m e - 52) (-1074) with ht
  have horder := order_decreaseExponent hm e t
  refine ⟨(decreaseExponent m e t).1, (decreaseExponent m e t).2, decreaseExponent_pos hm e t,
    horder, ?_, ?_⟩
  · rw [horder, ← ht]
    simp only [decreaseExponent]
    omega
  · simp only [UnpackedFloat.round, targetExponent_totalExponent, ht]

/-- The opposite sign negates. -/
theorem apply_neg (s : Sign) (n : ℤ) : (-s).apply n = -s.apply n := by
  cases s
  · exact (neg_neg n).symm
  · rfl

/-- Subtracting is adding the negative. -/
theorem unpacked_sub_eq (u v : UnpackedFloat) :
    UnpackedFloat.sub .binary64 u v = UnpackedFloat.add .binary64 u v.neg := by
  rcases u with s | _ | s | ⟨s, m₁, e₁, h₁⟩ <;> rcases v with t | _ | t | ⟨t, m₂, e₂, h₂⟩ <;>
    simp only [UnpackedFloat.sub, UnpackedFloat.add, UnpackedFloat.neg, apply_neg, sub_eq_add_neg]

end Below

section AtLeast

/-- A positive number of magnitude at least `2 ^ k`, which may be infinite. -/
def AtLeast (k : ℤ) : UnpackedFloat → Prop
  | .infinity .positive => True
  | .finite .positive m e _ => k ≤ order m e
  | _ => False

/-- A number that is not negative, which may be infinite. -/
def Nonneg : UnpackedFloat → Prop
  | .infinity .positive => True
  | .zero _ => True
  | .finite .positive _ _ _ => True
  | _ => False

/-- Infinity is at least every power. -/
theorem atLeast_infinity (k : ℤ) : AtLeast k (stored (.infinity .positive)) := by
  rw [stored_infinity]
  trivial

/-- A number that is at least a power is infinite or has a mantissa. -/
theorem AtLeast.infinite_or_finite (h : AtLeast k u) :
    u = .infinity .positive ∨ ∃ m e hm, u = .finite .positive m e hm ∧ k ≤ order m e := by
  rcases u with (_ | _) | _ | _ | ⟨_ | _, m, e, hm⟩
  · exact h.elim
  · exact .inl rfl
  · exact h.elim
  · exact h.elim
  · exact h.elim
  · exact .inr ⟨m, e, hm, rfl, h⟩

/-- A number that is not negative is infinite, zero or has a mantissa. -/
theorem Nonneg.cases (h : Nonneg u) :
    u = .infinity .positive ∨ (∃ s, u = .zero s) ∨ ∃ m e hm, u = .finite .positive m e hm := by
  rcases u with (_ | _) | _ | s | ⟨_ | _, m, e, hm⟩
  · exact h.elim
  · exact .inl rfl
  · exact h.elim
  · exact .inr (.inl ⟨s, rfl⟩)
  · exact h.elim
  · exact .inr (.inr ⟨m, e, hm, rfl⟩)

/-- Rounding does not lower an order that the format has. -/
theorem atLeast_stored_roundWithAccuracy (hm : 0 < m) (acc : Accuracy)
    (he : e ≤ max (order m e - 52) (-1074)) (horder : k ≤ order m e) (hlow : -1074 ≤ k) :
    AtLeast k (stored (roundWithAccuracy .binary64 .positive m e acc)) := by
  rcases stored_roundWithAccuracy .positive hm acc he with
    ⟨heq, -⟩ | ⟨-, hlost⟩ | ⟨m', e', h, heq, -, hle⟩
  · exact heq ▸ trivial
  · omega
  · rw [heq]
    exact horder.trans (hle (by omega))

/-- Rounding a positive number does not make it negative. -/
theorem nonneg_stored_roundWithAccuracy (hm : 0 < m) (acc : Accuracy)
    (he : e ≤ max (order m e - 52) (-1074)) :
    Nonneg (stored (roundWithAccuracy .binary64 .positive m e acc)) := by
  rcases stored_roundWithAccuracy .positive hm acc he with
    ⟨heq, -⟩ | ⟨heq, -⟩ | ⟨m', e', h, heq, -⟩ <;> exact heq ▸ trivial

/-- Addition is commutative. -/
theorem unpacked_add_comm (u v : UnpackedFloat) :
    UnpackedFloat.add .binary64 u v = UnpackedFloat.add .binary64 v u := by
  rcases u with s | _ | s | ⟨s, m₁, e₁, h₁⟩ <;> rcases v with t | _ | t | ⟨t, m₂, e₂, h₂⟩ <;>
    simp only [UnpackedFloat.add]
  · cases s <;> cases t <;> rfl
  · cases s <;> cases t <;> rfl
  · rw [min_comm, add_comm]

/-- A sum is at least one of its terms if the other is not negative. -/
theorem atLeast_stored_add (hu : stored u = u) (hbound : AtLeast k u) (hv : Nonneg v)
    (hlow : -1074 ≤ k) : AtLeast k (stored (UnpackedFloat.add .binary64 u v)) := by
  rcases hbound.infinite_or_finite with rfl | ⟨m₁, e₁, h₁, rfl, hle⟩ <;>
    rcases hv.cases with rfl | ⟨s, rfl⟩ | ⟨m₂, e₂, h₂, rfl⟩
  · exact atLeast_infinity k
  · exact atLeast_infinity k
  · exact atLeast_infinity k
  · exact atLeast_infinity k
  · exact hu.symm ▸ hbound
  · -- the aligned mantissa of `u` is a part of the sum
    set t := min e₁ e₂ with ht
    set a := (decreaseExponent m₁ e₁ t).1 with ha
    set b := (decreaseExponent m₂ e₂ t).1 with hb
    have horder : order m₁ e₁ = order a t := by
      rw [← order_decreaseExponent h₁ e₁ t]
      simp only [decreaseExponent, ha]
      congr 1
      omega
    have hpos : 0 < a := decreaseExponent_pos h₁ e₁ t
    have hsum : order a t ≤ order (a + b) t := by
      have : a.log2 ≤ (a + b).log2 := by
        rw [Nat.le_log2 (by omega)]
        exact (Nat.log2_self_le hpos.ne').trans (Nat.le_add_right a b)
      unfold order
      omega
    obtain ⟨m', e', hm', hsame, he', heq⟩ :=
      exists_round_eq .positive (show 0 < a + b by omega) t
    have hadd : UnpackedFloat.add .binary64 (.finite .positive m₁ e₁ h₁)
        (.finite .positive m₂ e₂ h₂) = UnpackedFloat.round .binary64 .positive (a + b) t := by
      change UnpackedFloat.normalize .binary64 ((a : ℤ) + b) t .positive = _
      unfold UnpackedFloat.normalize
      rw [compare_gt_iff_gt.mpr (show (a : ℤ) + b > 0 by omega)]
      rfl
    rw [hadd, heq]
    exact atLeast_stored_roundWithAccuracy hm' _ he' (by omega) hlow

/-- A product with a number of magnitude at least one is no smaller, except for rounding. -/
theorem atLeast_mul {h : 0 < m} (hx : datum x = .finite .positive m e h) (horder : k ≤ order m e)
    (hlow : -1074 ≤ k) (hy : AtLeast 0 (datum y)) : AtLeast k (datum (x * y)) := by
  change AtLeast k (stored (UnpackedFloat.mul .binary64 (datum x) (datum y)))
  rcases hy.infinite_or_finite with hv | ⟨m₂, e₂, h₂, hv, hone⟩ <;> rw [hx, hv]
  · exact atLeast_infinity k
  · have hproduct := (order_mul h e h₂ e₂).1
    exact atLeast_stored_roundWithAccuracy (Nat.mul_pos h h₂) _ (exponent_mul_le hx hv)
      (by omega) hlow

/-- A square is not negative. -/
theorem nonneg_square (hx : (datum x).isNaN = false) : Nonneg (datum (x * x)) := by
  change Nonneg (stored (UnpackedFloat.mul .binary64 (datum x) (datum x)))
  cases hu : datum x with
  | notANumber => rw [hu] at hx; exact absurd hx (by decide)
  | infinity s => cases s <;> trivial
  | zero s => cases s <;> trivial
  | finite s m e h =>
    have hsign : s * s = .positive := by cases s <;> rfl
    change Nonneg (stored (roundWithAccuracy .binary64 (s * s) (m * m) (e + e) .exact))
    rw [hsign]
    exact nonneg_stored_roundWithAccuracy (Nat.mul_pos h h) _ (exponent_mul_le hu hu)

/-- The root of a number that is at least one is at least one. -/
theorem atLeast_sqrt (hx : AtLeast 0 (datum x)) : AtLeast 0 (datum x.sqrt) := by
  change AtLeast 0 (stored (UnpackedFloat.sqrt .binary64 (datum x)))
  rcases hx.infinite_or_finite with hu | ⟨m, e, h, hu, horder⟩ <;> rw [hu]
  · exact atLeast_infinity 0
  · set t := min (e.ediv 2)
      (Format.binary64.targetExponent ((totalExponent m e + 1).ediv 2)) with ht
    set n := m <<< (e - 2 * t).toNat with hn
    have htarget : t = min (e / 2) (max ((order m e + 2) / 2 - 53) (-1074)) := by
      rw [ht, targetExponent_eq, totalExponent, order]
      change min (e / 2) (max (((m.log2 : ℤ) + 1 + e + 1) / 2 - 53) (-1074)) = _
      omega
    have hlog : n.log2 = m.log2 + (e - 2 * t).toNat := log2_shiftLeft h _
    have hroot : 2 ^ (n.log2 / 2) ≤ Nat.sqrt n := by
      rw [Nat.le_sqrt, ← pow_add]
      refine (Nat.pow_le_pow_right two_pos (by omega)).trans (Nat.log2_self_le (n := n) ?_)
      rw [hn, Nat.shiftLeft_eq]
      positivity
    have hpos : 0 < Nat.sqrt n := (Nat.two_pow_pos _).trans_le hroot
    have hrootlog := (Nat.le_log2 hpos.ne').mpr hroot
    change AtLeast 0 (stored (roundWithAccuracy .binary64 .positive (Nat.sqrt n) t _))
    unfold order at *
    refine atLeast_stored_roundWithAccuracy hpos _ ?_ ?_ (by norm_num)
    all_goals
      unfold order
      omega

/-- A quotient has its leading bit no higher than the difference of the leading bits. -/
theorem log2_div_le (n d : ℕ) : (n / d).log2 ≤ n.log2 - d.log2 := by
  rcases Nat.eq_zero_or_pos (n / d) with hzero | hpos
  · simp [hzero]
  · obtain ⟨hd, hdn⟩ := Nat.div_pos_iff.mp hpos
    have hlow : (n / d).log2 + d.log2 ≤ n.log2 := by
      rw [Nat.le_log2 (by omega), pow_add]
      exact (Nat.mul_le_mul (Nat.log2_self_le hpos.ne') (Nat.log2_self_le hd.ne')).trans
        (Nat.div_mul_le_self n d)
    omega

/-- A quotient does not overflow unless the divisor is far below the dividend. -/
theorem isFinite_div (hx : Below (k + 1) (datum x)) (hy : AtLeast k (datum y)) :
    (x / y).isFinite = true := by
  change (stored (UnpackedFloat.div .binary64 (datum x) (datum y))).isFinite = true
  rcases hx.zero_or_finite with ⟨s, hu⟩ | ⟨s, m₁, e₁, h₁, hu, hlt⟩ <;>
    rcases hy.infinite_or_finite with hv | ⟨m₂, e₂, h₂, hv, hle⟩ <;> rw [hu, hv]
  · exact congrArg UnpackedFloat.isFinite (stored_zero _)
  · exact congrArg UnpackedFloat.isFinite (stored_zero _)
  · exact congrArg UnpackedFloat.isFinite (stored_zero _)
  · set t := min (e₁ - e₂)
      (Format.binary64.targetExponent (totalExponent m₁ e₁ - totalExponent m₂ e₂)) with ht
    set n := m₁ <<< (e₁ - e₂ - t).toNat with hn
    have htarget : t = min (e₁ - e₂) (max (order m₁ e₁ - order m₂ e₂ - 53) (-1074)) := by
      rw [ht, targetExponent_eq, totalExponent, totalExponent, order, order]
      congr 3
      omega
    have hlog : n.log2 = m₁.log2 + (e₁ - e₂ - t).toNat := log2_shiftLeft h₁ _
    have hquotient := log2_div_le n m₂
    change (stored (roundWithAccuracy .binary64 (s / _) (n / m₂) t _)).isFinite = true
    refine isFinite_stored_roundWithAccuracy _ _ _ ?_ ?_
    all_goals
      unfold order at *
      omega

/-- A number over its own magnitude is one, up to the sign. -/
theorem datum_div_of_abs_eq {h : 0 < m} (hx : datum x = .finite s m e h)
    (hy : datum y = .finite .positive m e h) :
    datum (x / y) = .finite s (2 ^ 52) (-52) (Nat.two_pow_pos 52) := by
  change stored (UnpackedFloat.div .binary64 (datum x) (datum y)) = _
  rw [hx, hy]
  have hcore : divCore .binary64 m e m e = (2 ^ 53, -53, .exact) := by
    have ht : min (0 : ℤ) (Format.binary64.targetExponent 0) = -53 := rfl
    simp [divCore, ht, Nat.shiftLeft_eq, Nat.mul_div_cancel_left _ h, accuracyOfFraction]
  change stored (match divCore .binary64 m e m e with
    | (n, t, acc) => roundWithAccuracy .binary64 (s / .positive) n t acc) = _
  rw [hcore]
  cases s <;> rfl

end AtLeast

end Binary64

end SchurForm
