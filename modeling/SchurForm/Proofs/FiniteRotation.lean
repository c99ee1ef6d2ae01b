import SchurForm.GivensRotation
import SchurForm.Proofs.NumberMagnitudes

/-!
# Rotations of finite numbers

The rotation that annihilates one of two finite numbers is finite: the length it divides by is never
far below them, even where it overflows.
-/

namespace SchurForm

namespace Binary64

open Float.Model (UnpackedFloat)
open Float.Model.UnpackedFloat

variable {x y b scale : Float} {s : Sign} {m m₁ m₂ : ℕ} {e e₁ e₂ k : ℤ} {h : 0 < m}

/-- A quotient of finite numbers is not a NaN unless the divisor is zero. -/
theorem isNaN_div (hx : (datum x).isFinite = true) (hy : datum y = .finite s m e h) :
    (datum (x / y)).isNaN = false := by
  change (stored (UnpackedFloat.div .binary64 (datum x) (datum y))).isNaN = false
  rw [hy]
  cases hu : datum x with
  | notANumber => rw [hu] at hx; exact absurd hx (by decide)
  | infinity t => rw [hu] at hx; exact absurd hx (by simp [UnpackedFloat.isFinite])
  | zero t => exact congrArg UnpackedFloat.isNaN (stored_zero _)
  | finite t m' e' h' => exact isNaN_stored_roundWithAccuracy _ _ _ _

/-- The square of a number over its own magnitude is one. -/
theorem atLeast_square_div (hx : datum x = .finite s m e h)
    (hscale : datum scale = .finite .positive m e h) :
    AtLeast 0 (datum (x / scale * (x / scale))) := by
  change AtLeast 0 (stored (UnpackedFloat.mul .binary64 (datum (x / scale)) (datum (x / scale))))
  rw [datum_div_of_abs_eq hx hscale]
  have hone : (0 : ℤ) ≤ order (2 ^ 52) (-52) := by decide
  cases s <;> exact hone

/-- The length of a vector that is scaled by its component `x` is at least that component. -/
theorem atLeast_length (hx : datum x = .finite s m e h)
    (hscale : datum scale = .finite .positive m e h) (hy : (datum y).isFinite = true) :
    AtLeast (order m e) (datum (scale * (x / scale * (x / scale) + y / scale * (y / scale)).sqrt)) ∧
      AtLeast (order m e)
        (datum (scale * (y / scale * (y / scale) + x / scale * (x / scale)).sqrt)) := by
  have hone := atLeast_square_div hx hscale
  have hother := nonneg_square (isNaN_div hy hscale)
  have hsum := atLeast_stored_add (stored_datum _) hone hother (by norm_num)
  have hlow : -1074 ≤ order m e := (canonical_datum hx).exponent_ge.trans (le_order m e)
  refine ⟨atLeast_mul hscale le_rfl hlow (atLeast_sqrt hsum),
    atLeast_mul hscale le_rfl hlow (atLeast_sqrt ?_)⟩
  rwa [unpacked_add_comm] at hsum

/-- A number that is not below another one in magnitude has no smaller order. -/
theorem order_le_of_not_lt {s₁ s₂ : Sign} {h₁ : 0 < m₁} {h₂ : 0 < m₂}
    (hx : datum x = .finite s₁ m₁ e₁ h₁) (hy : datum y = .finite s₂ m₂ e₂ h₂)
    (hlt : ¬x.abs < y.abs) : order m₂ e₂ ≤ order m₁ e₁ := by
  have hrank : ¬(e₁ < e₂ ∨ e₁ = e₂ ∧ m₁ < m₂) := by
    rw [lt_iff, isNaN_eq, isNaN_eq, datum_abs, datum_abs, hx, hy] at hlt
    simpa [UnpackedFloat.abs, UnpackedFloat.isNaN, rank, Prod.Lex.toLex_lt_toLex] using hlt
  have hle₂ := (canonical_datum hy).order_le
  have hfull₁ := (canonical_datum hx).exponent_le
  have hge₂ := (canonical_datum hy).exponent_ge
  rcases lt_trichotomy e₁ e₂ with hlt | rfl | hgt
  · exact absurd (.inl hlt) hrank
  · have : m₂.log2 ≤ m₁.log2 := by
      rw [Nat.le_log2 h₁.ne']
      exact (Nat.log2_self_le h₂.ne').trans (by omega)
    unfold order
    omega
  · omega

/-- A finite number that is not zero has a mantissa and an exponent. -/
theorem finite_of_isFinite (hx : x.isFinite = true) (hne : ¬(x == 0) = true) :
    ∃ s m e h, datum x = .finite s m e h := by
  rw [isFinite_eq] at hx
  change ¬(datum x).beq (datum 0) = true at hne
  cases hu : datum x with
  | notANumber => rw [hu] at hx; exact absurd hx (by decide)
  | infinity t => rw [hu] at hx; exact absurd hx (by simp [UnpackedFloat.isFinite])
  | zero t => rw [hu] at hne; exact absurd rfl hne
  | finite t m' e' h' => exact ⟨t, m', e', h', rfl⟩

end Binary64

open Binary64 Scalar

namespace GivensRotation

variable [Angles] {rot : GivensRotation Float} {f g : Float}

/-- The rotation that annihilates one of two finite numbers is finite, even if the length of the two
overflows. -/
theorem isFinite_annihilating (hf : f.isFinite = true) (hg : g.isFinite = true) :
    (annihilating f g).1.c.isFinite = true ∧ (annihilating f g).1.s.isFinite = true := by
  unfold annihilating
  split_ifs with hg0 hf0
  · exact ⟨isFinite_one, isFinite_zero⟩
  · refine ⟨isFinite_zero, ?_⟩
    change (sign g).isFinite = true
    unfold sign
    split_ifs
    · change (Binary64.copySign 1 g).isFinite = true
      unfold Binary64.copySign
      split_ifs <;> rfl
    · exact hg
  · obtain ⟨s₁, m₁, e₁, h₁, hdf⟩ := finite_of_isFinite hf hf0
    obtain ⟨s₂, m₂, e₂, h₂, hdg⟩ := finite_of_isFinite hg hg0
    have habs : (f.abs == f.abs) = true := by
      rw [beq_self_iff, isNaN_eq, datum_abs, hdf]
      rfl
    have hfscale : datum f.abs = .finite .positive m₁ e₁ h₁ := by rw [datum_abs, hdf]; rfl
    have hgscale : datum g.abs = .finite .positive m₂ e₂ h₂ := by rw [datum_abs, hdg]; rfl
    simp only [maxNum]
    split_ifs with hlt hself
    · have hle : order m₁ e₁ ≤ order m₂ e₂ := order_le_of_not_lt hdg hdf (not_lt_of_lt hlt)
      have hlength := (atLeast_length hdg hgscale hf).2
      exact ⟨isFinite_div (hdf ▸ Int.lt_add_one_of_le hle) hlength,
        isFinite_div (hdg ▸ Int.lt_add_one_of_le le_rfl) hlength⟩
    · have hle : order m₂ e₂ ≤ order m₁ e₁ := order_le_of_not_lt hdf hdg hlt
      have hlength := (atLeast_length hdf hfscale hg).1
      exact ⟨isFinite_div (hdf ▸ Int.lt_add_one_of_le le_rfl) hlength,
        isFinite_div (hdg ▸ Int.lt_add_one_of_le hle) hlength⟩
    · exact absurd habs hself

end GivensRotation

end SchurForm
