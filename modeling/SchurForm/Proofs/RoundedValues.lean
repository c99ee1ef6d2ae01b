import SchurForm.Proofs.NumberMagnitudes
import SchurForm.Proofs.ExactArithmetic

/-!
# The values of rounded numbers

A finite number stands for a real number `k * 2 ^ e` with at most 53 bits and no bit below
`2 ^ -1074`; such numbers form the grid. Each operation first finds the exact result cut off after
some bit, together with two bits that tell what was lost, and then rounds it. Rounding is described
by what it keeps: every bound of the exact result that the grid has is a bound of the rounded one,
and a result with a bound in the range does not overflow. The sum, the difference, the product, the
quotient and the root of finite numbers are rounded in this sense.
-/

namespace SchurForm

namespace Binary64

open Float.Model (UnpackedFloat Format totalExponent)
open Float.Model.UnpackedFloat

variable {x y : Float} {u w : UnpackedFloat} {s : Sign} {m m₁ m₂ r : ℕ} {e e₁ e₂ t : ℤ} {g v : ℝ}

section Values

/-- A sign as a factor. -/
def signum : Sign → ℝ
  | .negative => -1
  | .positive => 1

/-- The negative sign. -/
@[simp] theorem signum_negative : signum .negative = -1 := rfl

/-- The positive sign. -/
@[simp] theorem signum_positive : signum .positive = 1 := rfl

/-- The opposite sign. -/
@[simp] theorem signum_neg (s : Sign) : signum (-s) = -signum s := by
  cases s
  · exact (neg_neg 1).symm
  · rfl

/-- The sign of a product. -/
theorem signum_mul (s t : Sign) : signum (s * t) = signum s * signum t := by
  cases s
  · have hneg : Sign.negative * t = -t := by cases t <;> rfl
    rw [hneg, signum_neg, signum_negative, neg_one_mul]
  · have hpos : Sign.positive * t = t := by cases t <;> rfl
    rw [hpos, signum_positive, one_mul]

/-- The sign of a quotient. -/
theorem signum_div (s t : Sign) : signum (s / t) = signum s / signum t := by
  have hmul : s / t = s * t := by cases s <;> cases t <;> rfl
  rw [hmul, signum_mul]
  cases t <;> simp [div_neg]

/-- Applying a sign multiplies by it. -/
theorem cast_apply (s : Sign) (n : ℤ) : ((s.apply n : ℤ) : ℝ) = signum s * n := by
  cases s <;> simp [Sign.apply]

/-- The real number that a finite number stands for; zero for the others. -/
noncomputable def value : UnpackedFloat → ℝ
  | .finite s m e _ => signum s * (m * Scalar.two ^ e)
  | _ => 0

/-- The real number that a finite number stands for. -/
noncomputable def toReal (x : Float) : ℝ := value (datum x)

/-- Both zeros have the value zero. -/
@[simp] theorem value_zero (s : Sign) : value (.zero s) = 0 := rfl

/-- The value of a mantissa with an exponent and a sign. -/
@[simp] theorem value_finite (s : Sign) (m : ℕ) (e : ℤ) (h : 0 < m) :
    value (.finite s m e h) = signum s * (m * 2 ^ e) := by
  rw [value, Scalar.two_real]

/-- Negation negates the value. -/
theorem value_neg (u : UnpackedFloat) : value u.neg = -value u := by
  rcases u with s | _ | s | ⟨s, m, e, h⟩ <;> simp [UnpackedFloat.neg, value]

/-- The magnitude of a value. -/
theorem value_abs (u : UnpackedFloat) : value u.abs = |value u| := by
  rcases u with s | _ | s | ⟨_ | _, m, e, h⟩ <;>
    simp [UnpackedFloat.abs, value, abs_mul]

/-- Negation negates the value. -/
theorem toReal_neg (x : Float) : toReal (-x) = -toReal x := by
  rw [toReal, datum_neg, value_neg, toReal]

/-- The magnitude of a value. -/
theorem toReal_abs (x : Float) : toReal x.abs = |toReal x| := by
  rw [toReal, datum_abs, value_abs, toReal]

/-- Magnitudes in the form of the format are compared by their exponents first. -/
theorem magnitude_lt (h₁ : Canonical m₁ e₁) (h₂ : Canonical m₂ e₂)
    (h : e₁ < e₂ ∨ e₁ = e₂ ∧ m₁ < m₂) : (m₁ * 2 ^ e₁ : ℝ) < m₂ * 2 ^ e₂ := by
  rcases h with hlt | ⟨rfl, hlt⟩
  · have hfull : 2 ^ 52 ≤ m₂ := h₂.normal.resolve_right (by have := h₁.exponent_ge; omega)
    have hm₁ : (m₁ : ℝ) < 2 ^ 53 := by exact_mod_cast h₁.mantissa_lt
    have hm₂ : (2 : ℝ) ^ 52 ≤ m₂ := by exact_mod_cast hfull
    calc (m₁ * 2 ^ e₁ : ℝ) < 2 ^ 53 * 2 ^ e₁ := by gcongr
      _ = 2 ^ 52 * 2 ^ (e₁ + 1) := by rw [zpow_add_one₀ two_ne_zero]; ring
      _ ≤ m₂ * 2 ^ e₂ := by
        gcongr
        · exact one_le_two
        · omega
  · gcongr

/-- Canonical numbers are ordered by their exponents first. -/
theorem magnitude_lt_iff (h₁ : Canonical m₁ e₁) (h₂ : Canonical m₂ e₂) :
    (m₁ * 2 ^ e₁ : ℝ) < m₂ * 2 ^ e₂ ↔ e₁ < e₂ ∨ e₁ = e₂ ∧ m₁ < m₂ := by
  refine ⟨fun hlt => ?_, magnitude_lt h₁ h₂⟩
  by_contra hnot
  rcases (by omega : e₁ = e₂ ∧ m₁ = m₂ ∨ e₂ < e₁ ∨ e₂ = e₁ ∧ m₂ < m₁) with ⟨rfl, rfl⟩ | hgt
  · exact lt_irrefl _ hlt
  · exact lt_asymm hlt (magnitude_lt h₂ h₁ hgt)

/-- Finite numbers are ranked by what they stand for. -/
theorem rank_lt_iff (hx : x.isFinite = true) (hy : y.isFinite = true) :
    rank (datum x) < rank (datum y) ↔ toReal x < toReal y := by
  have hpos {m : ℕ} {e : ℤ} (h : 0 < m) : (0 : ℝ) < m * 2 ^ e := by positivity
  rw [isFinite_eq] at hx hy
  rw [toReal, toReal]
  rcases hu : datum x with s | _ | s | ⟨_ | _, m₁, e₁, h₁⟩ <;>
    rcases hv : datum y with t | _ | t | ⟨_ | _, m₂, e₂, h₂⟩ <;>
    simp only [hu, hv, UnpackedFloat.isFinite, Bool.false_eq_true] at hx hy <;>
    simp only [rank, value_finite, signum_negative, signum_positive, Prod.Lex.toLex_lt_toLex,
      neg_one_mul, one_mul]
  · exact iff_of_false (by simp) (lt_irrefl 0)
  · exact iff_of_false (by simp) (not_lt.mpr (neg_nonpos.mpr (hpos h₂).le))
  · exact iff_of_true (by simp) (hpos h₂)
  · exact iff_of_true (by simp) (neg_neg_of_pos (hpos h₁))
  · rw [neg_lt_neg_iff (a := (m₁ * 2 ^ e₁ : ℝ)),
      magnitude_lt_iff (canonical_datum hv) (canonical_datum hu)]
    simp [eq_comm]
  · exact iff_of_true (by simp) ((neg_neg_of_pos (hpos h₁)).trans (hpos h₂))
  · exact iff_of_false (by simp) (not_lt.mpr (hpos h₁).le)
  · exact iff_of_false (by simp) (not_lt.mpr ((neg_neg_of_pos (hpos h₂)).trans (hpos h₁)).le)
  · rw [magnitude_lt_iff (canonical_datum hu) (canonical_datum hv)]
    simp

/-- Finite numbers are ordered by their values. -/
theorem lt_iff_toReal (hx : x.isFinite = true) (hy : y.isFinite = true) :
    x < y ↔ toReal x < toReal y := by
  rw [lt_iff, rank_lt_iff hx hy]
  exact ⟨fun h => h.2.2, fun h => ⟨isNaN_of_isFinite hx, isNaN_of_isFinite hy, h⟩⟩

end Values

section Grid

/-- A number with at most 53 bits, none of which lies below `2 ^ -1074`. -/
inductive OnGrid (g : ℝ) : Prop
  | intro (k e : ℤ) (mantissa_lt : |k| < 2 ^ 53) (exponent_ge : -1074 ≤ e) (eq : g = k * 2 ^ e)

/-- The grid is symmetric. -/
theorem OnGrid.neg (hg : OnGrid g) : OnGrid (-g) := by
  obtain ⟨k, e, hk, he, rfl⟩ := hg
  exact ⟨-k, e, by rwa [abs_neg], he, by push_cast; ring⟩

/-- Magnitudes of numbers on the grid are on the grid. -/
theorem OnGrid.abs (hg : OnGrid g) : OnGrid |g| := by
  rcases abs_cases g with ⟨h, -⟩ | ⟨h, -⟩ <;> rw [h]
  · exact hg
  · exact hg.neg

/-- Short mantissas are on the grid. -/
theorem onGrid_natCast_mul {n : ℕ} (hn : n < 2 ^ 53) (he : -1074 ≤ e) :
    OnGrid (n * 2 ^ e) :=
  ⟨n, e, by rw [Nat.abs_cast]; exact_mod_cast hn, he, by push_cast; rfl⟩

/-- Zero is on the grid. -/
theorem onGrid_zero : OnGrid 0 := ⟨0, 0, by norm_num, by norm_num, by norm_num⟩

/-- Powers of two are on the grid. -/
theorem onGrid_two_zpow (he : -1074 ≤ e) : OnGrid (2 ^ e) := by
  simpa using onGrid_natCast_mul (n := 1) (by norm_num) he

/-- One is on the grid. -/
theorem onGrid_one : OnGrid 1 := by
  simpa using onGrid_two_zpow (e := 0) (by norm_num)

/-- Values of numbers are on the grid. -/
theorem onGrid_toReal (x : Float) : OnGrid (toReal x) := by
  rw [toReal]
  cases hu : datum x with
  | notANumber => exact onGrid_zero
  | infinity s => exact onGrid_zero
  | zero s => exact onGrid_zero
  | finite s m e h =>
    have hc := canonical_datum hu
    have hmagnitude : OnGrid (m * 2 ^ e) := onGrid_natCast_mul hc.mantissa_lt hc.exponent_ge
    cases s
    · simpa [value] using hmagnitude.neg
    · simpa [value] using hmagnitude

/-- Large numbers of the grid are multiples of a power of two. -/
theorem OnGrid.exists_multiple (hg : OnGrid g) (ht : t = -1074 ∨ 2 ^ (t + 52) ≤ |g|) :
    ∃ k : ℤ, g = k * 2 ^ t := by
  obtain ⟨k, e, hk, he, rfl⟩ := hg
  have hte : t ≤ e := by
    rcases ht with rfl | ht
    · exact he
    · have hlt : (2 : ℝ) ^ (t + 52) < 2 ^ (e + 53) := by
        calc (2 : ℝ) ^ (t + 52) ≤ |(k : ℝ)| * 2 ^ e := by
              rwa [abs_mul, abs_of_pos (by positivity : (0 : ℝ) < 2 ^ e)] at ht
          _ < 2 ^ 53 * 2 ^ e := by
              gcongr
              exact_mod_cast hk
          _ = 2 ^ (e + 53) := by rw [zpow_add₀ two_ne_zero]; norm_num; ring
      have := (zpow_lt_zpow_iff_right₀ one_lt_two).mp hlt
      omega
  refine ⟨k * 2 ^ (e - t).toNat, ?_⟩
  have hpow : (2 : ℝ) ^ e = 2 ^ (e - t).toNat * 2 ^ t := by
    rw [← zpow_natCast, ← zpow_add₀ two_ne_zero]
    congr 1
    omega
  push_cast
  rw [hpow, mul_assoc]

end Grid

section Rounding

/-- An extended mantissa is a number cut off after its whole part; the extra bits tell whether
something was lost. -/
def Cuts (em : ExtendedMantissa) (v : ℝ) : Prop :=
  if em.roundBit = true ∨ em.stickyBit = true then em.mantissa < v ∧ v < em.mantissa + 1
  else v = em.mantissa

/-- An exact mantissa cuts nothing off. -/
theorem cuts_exact (m : ℕ) : Cuts (.ofMantissaAndAccuracy m .exact) m := by
  simp [Cuts, ExtendedMantissa.ofMantissaAndAccuracy]

/-- An inexact mantissa cuts off less than one. -/
theorem cuts_inexact (o : Ordering) (hlow : m < v) (hhigh : v < m + 1) :
    Cuts (.ofMantissaAndAccuracy m (.inexact o)) v := by
  cases o <;> simp [Cuts, ExtendedMantissa.ofMantissaAndAccuracy, hlow, hhigh]

/-- What is cut off is less than one. -/
theorem Cuts.bounds {em : ExtendedMantissa} (h : Cuts em v) :
    em.mantissa ≤ v ∧ v < em.mantissa + 1 := by
  rw [Cuts] at h
  split_ifs at h
  · exact ⟨h.1.le, h.2⟩
  · rw [h]
    exact ⟨le_rfl, by linarith⟩

/-- A bit that is shifted out is remembered. -/
theorem Cuts.shiftRightOne {em : ExtendedMantissa} (h : Cuts em v) :
    Cuts em.shiftRightOne (v / 2) := by
  have hmod : (em.mantissa : ℝ) = 2 * (em.mantissa / 2 : ℕ) + (em.mantissa % 2 : ℕ) := by
    exact_mod_cast (Nat.div_add_mod em.mantissa 2).symm
  have hbit : ((em.mantissa % 2 : ℕ) : ℝ) ≤ 1 := by
    exact_mod_cast Nat.le_of_lt_succ (Nat.mod_lt em.mantissa two_pos)
  rw [Cuts] at h ⊢
  simp only [ExtendedMantissa.shiftRightOne, bne_iff_ne, Bool.or_eq_true]
  by_cases hlost : em.roundBit = true ∨ em.stickyBit = true
  · rw [if_pos hlost] at h
    rw [if_pos (.inr hlost)]
    constructor <;> linarith [Nat.cast_nonneg (α := ℝ) (em.mantissa % 2)]
  · rw [if_neg hlost] at h
    split_ifs with hodd
    · have hone : ((em.mantissa % 2 : ℕ) : ℝ) = 1 := by
        exact_mod_cast Nat.mod_two_ne_zero.mp (hodd.resolve_right hlost)
      constructor <;> linarith
    · rw [not_or, not_not] at hodd
      rw [hodd.1, Nat.cast_zero] at hmod
      linarith

/-- All bits that are shifted out are remembered. -/
theorem Cuts.shiftRight {em : ExtendedMantissa} (h : Cuts em v) (k : ℕ) :
    Cuts (em >>> k) (v / 2 ^ k) := by
  induction k with
  | zero => simpa [HShiftRight.hShiftRight, Nat.repeat] using h
  | succ k ih =>
    rw [pow_succ, ← div_div]
    exact ih.shiftRightOne

/-- Rounding goes to a whole number next to the given one, and leaves a whole number as it is. -/
theorem Cuts.abs_roundedMantissa_sub_lt {em : ExtendedMantissa} (h : Cuts em v) :
    |(em.roundedMantissa : ℝ) - v| < 1 := by
  rw [Cuts] at h
  split_ifs at h with hlost
  · obtain ⟨hlow, hhigh⟩ := roundedMantissa_bounds em
    have hlow' : (em.mantissa : ℝ) ≤ em.roundedMantissa := by exact_mod_cast hlow
    have hhigh' : (em.roundedMantissa : ℝ) ≤ em.mantissa + 1 := by exact_mod_cast hhigh
    rw [abs_lt]
    constructor <;> linarith
  · have hexact : em.roundedMantissa = em.mantissa := by
      rcases em with ⟨m, _ | _, _ | _⟩
      · rfl
      all_goals simp at hlost
    rw [h, hexact, sub_self, abs_zero]
    exact one_pos

/-- The value of a mantissa that is shifted once more where it grew to the next power of two. -/
theorem value_carried (s : Sign) (hr : r ≤ 2 ^ 53) (ht : -1074 ≤ t) :
    value (carried s r t) = signum s * (r * 2 ^ t) := by
  rcases Nat.eq_zero_or_pos r with rfl | hpos
  · simp [carried, value]
  rcases hr.lt_or_eq with hlt | rfl
  · rw [carried_of_lt s hpos hlt ht, value_finite]
  · rw [carried_full s ht, value_finite, zpow_add_one₀ two_ne_zero]
    push_cast
    ring

/-- Rounding keeps the upper bounds of a number that the grid has: where the grid is finer than the
last place, the number itself is far above. -/
theorem le_of_rounded (hround : |(r : ℝ) - v / 2 ^ t| < 1) (hplace : t = -1074 ∨ 2 ^ (t + 52) ≤ v)
    (hg : OnGrid g) (hle : v ≤ g) : r * 2 ^ t ≤ g := by
  have hpow : (0 : ℝ) < 2 ^ t := by positivity
  obtain ⟨k, rfl⟩ := hg.exists_multiple (t := t)
    (hplace.imp_right fun h => (h.trans hle).trans (le_abs_self g))
  have hunits : v / 2 ^ t ≤ k := (div_le_iff₀ hpow).mpr hle
  have hlt : (r : ℝ) < k + 1 := by linarith [(abs_lt.mp hround).2]
  have hrk : (r : ℝ) ≤ k := by exact_mod_cast Int.lt_add_one_iff.mp (by exact_mod_cast hlt)
  gcongr

/-- Rounding keeps the lower bounds of a number that the grid has. -/
theorem ge_of_rounded (hround : |(r : ℝ) - v / 2 ^ t| < 1) (hplace : t = -1074 ∨ 2 ^ (t + 52) ≤ v)
    (hg : OnGrid g) (hle : g ≤ v) : g ≤ r * 2 ^ t := by
  have hpow : (0 : ℝ) < 2 ^ t := by positivity
  have hwhole {k : ℤ} (hk : k * 2 ^ t ≤ v) : (k : ℝ) ≤ r := by
    have hunits : (k : ℝ) ≤ v / 2 ^ t := (le_div_iff₀ hpow).mpr hk
    have hlt : (k : ℝ) < r + 1 := by linarith [(abs_lt.mp hround).1]
    exact_mod_cast Int.lt_add_one_iff.mp (by exact_mod_cast hlt)
  by_cases hlarge : t = -1074 ∨ 2 ^ (t + 52) ≤ |g|
  · obtain ⟨k, rfl⟩ := hg.exists_multiple hlarge
    have := hwhole hle
    gcongr
  · rw [not_or, not_le] at hlarge
    have hfull : (2 : ℝ) ^ (t + 52) = ((2 ^ 52 : ℤ) : ℝ) * 2 ^ t := by
      rw [zpow_add₀ two_ne_zero]
      norm_num
      ring
    have hbits := hwhole (hfull ▸ hplace.resolve_left hlarge.1)
    calc g ≤ |g| := le_abs_self g
      _ ≤ ((2 ^ 52 : ℤ) : ℝ) * 2 ^ t := hfull ▸ hlarge.2.le
      _ ≤ r * 2 ^ t := by gcongr

/-- A number that `v` was rounded to: there is one unless `v` is out of range, and it keeps the
bounds of `v` that the grid has. -/
structure IsRounded (v : ℝ) (u : UnpackedFloat) : Prop where
  finite : ∀ g, OnGrid g → |v| ≤ g → g < 2 ^ (1024 : ℤ) → u.isFinite = true
  le : u.isFinite = true → ∀ g, OnGrid g → v ≤ g → value u ≤ g
  ge : u.isFinite = true → ∀ g, OnGrid g → g ≤ v → g ≤ value u

/-- A finite number is its own value rounded. -/
theorem isRounded_value (hu : u.isFinite = true) : IsRounded (value u) u where
  finite _ _ _ _ := hu
  le _ _ _ hle := hle
  ge _ _ _ hle := hle

/-- The largest exponent of the format is the one that keeps its numbers below `2 ^ 1024`. -/
theorem exponent_le_iff {m : ℕ} {e : ℤ} (hc : Canonical m e) :
    e ≤ 971 ↔ (m * 2 ^ e : ℝ) < 2 ^ (1024 : ℤ) := by
  constructor
  · intro he
    have hm : (m : ℝ) < 2 ^ (53 : ℤ) := by exact_mod_cast hc.mantissa_lt
    calc (m * 2 ^ e : ℝ) < 2 ^ (53 : ℤ) * 2 ^ e := by gcongr
      _ = 2 ^ (53 + e) := (zpow_add₀ two_ne_zero _ _).symm
      _ ≤ 2 ^ (1024 : ℤ) := zpow_le_zpow_right₀ one_le_two (by omega)
  · intro hlt
    by_contra hlarge
    have hm : (2 : ℝ) ^ (52 : ℤ) ≤ m := by
      exact_mod_cast hc.normal.resolve_right (by omega)
    have hge : (2 : ℝ) ^ (1024 : ℤ) ≤ m * 2 ^ e := by
      calc (2 : ℝ) ^ (1024 : ℤ) ≤ 2 ^ (52 + e) := zpow_le_zpow_right₀ one_le_two (by omega)
        _ = 2 ^ (52 : ℤ) * 2 ^ e := zpow_add₀ two_ne_zero _ _
        _ ≤ m * 2 ^ e := by gcongr
    exact hlt.not_ge hge

/-- A rounded mantissa is stored as it is unless it is out of range. -/
theorem stored_carried (s : Sign) (hr : r ≤ 2 ^ 53) (ht : -1074 ≤ t)
    (hnormal : 2 ^ 52 ≤ r ∨ t = -1074) :
    ((stored (carried s r t)).isFinite = true ↔ (r * 2 ^ t : ℝ) < 2 ^ (1024 : ℤ)) ∧
      ((stored (carried s r t)).isFinite = true →
        value (stored (carried s r t)) = signum s * (r * 2 ^ t)) := by
  rcases Nat.eq_zero_or_pos r with rfl | hpos
  · have hzero : carried s 0 t = .zero s := by simp [carried]
    rw [hzero, stored_zero]
    refine ⟨iff_of_true rfl ?_, fun _ => ?_⟩
    · rw [Nat.cast_zero, zero_mul]
      positivity
    · simp [value]
  · obtain ⟨m, e, hm, heq, hc, -⟩ := carried_spec s hpos hr ht hnormal
    have hmagnitude : (m * 2 ^ e : ℝ) = r * 2 ^ t := by
      have hvalue := value_carried s hr ht
      rw [heq, value_finite] at hvalue
      exact mul_left_cancel₀ (by cases s <;> simp) hvalue
    rw [heq, stored, unpack_pack_finite hc, ← hmagnitude, ← exponent_le_iff hc]
    split_ifs with he
    · exact ⟨iff_of_true rfl he, fun _ => value_finite s m e hm⟩
    · exact ⟨iff_of_false Bool.false_ne_true he, fun h => absurd h Bool.false_ne_true⟩

/-- A mantissa that was rounded in its place. -/
theorem isRounded_carried (s : Sign) (hv : 0 ≤ v) (hround : |(r : ℝ) - v / 2 ^ t| < 1)
    (ht : -1074 ≤ t) (hplace : t = -1074 ∨ 2 ^ (t + 52) ≤ v) (hfits : v < 2 ^ (t + 53)) :
    IsRounded (signum s * v) (stored (carried s r t)) := by
  have hpow : (0 : ℝ) < 2 ^ t := by positivity
  have hfull : r ≤ 2 ^ 53 := by
    have hunits : v / 2 ^ t < 2 ^ (53 : ℤ) := by
      rwa [div_lt_iff₀ hpow, ← zpow_add₀ two_ne_zero, add_comm]
    have hlt : (r : ℝ) < 2 ^ (53 : ℤ) + 1 := by linarith [(abs_lt.mp hround).2]
    exact Nat.lt_succ_iff.mp (by exact_mod_cast hlt)
  have hnormal : 2 ^ 52 ≤ r ∨ t = -1074 := by
    refine hplace.symm.imp_left fun hlarge => ?_
    have hge := ge_of_rounded hround hplace (onGrid_two_zpow (by omega)) hlarge
    rw [add_comm, zpow_add₀ two_ne_zero, mul_le_mul_iff_left₀ hpow] at hge
    exact_mod_cast hge
  obtain ⟨hfinite, hvalue⟩ := stored_carried s hfull ht hnormal
  have hle {g : ℝ} (hg : OnGrid g) : v ≤ g → r * 2 ^ t ≤ g := le_of_rounded hround hplace hg
  have hge {g : ℝ} (hg : OnGrid g) : g ≤ v → g ≤ r * 2 ^ t := ge_of_rounded hround hplace hg
  refine ⟨fun g hg habs hrange => hfinite.mpr ?_, fun hu g hg hbound => ?_,
    fun hu g hg hbound => ?_⟩
  · have : v ≤ g := by
      rw [abs_mul, abs_of_nonneg hv] at habs
      cases s <;> simpa using habs
    exact (hle hg this).trans_lt hrange
  · rw [hvalue hu]
    cases s
    · simp only [signum_negative, neg_one_mul] at hbound ⊢
      exact neg_le.mpr (hge hg.neg (neg_le.mp hbound))
    · simpa using hle hg (by simpa using hbound)
  · rw [hvalue hu]
    cases s
    · simp only [signum_negative, neg_one_mul] at hbound ⊢
      exact le_neg.mpr (hle hg.neg (le_neg.mp hbound))
    · simpa using hge hg (by simpa using hbound)

/-- Rounding with the bits that tell what was cut off. -/
theorem isRounded_roundWithAccuracy (s : Sign) {acc : Accuracy}
    (hcuts : Cuts (.ofMantissaAndAccuracy m acc) (v / 2 ^ e))
    (he : e ≤ max (order m e - 52) (-1074)) :
    IsRounded (signum s * v) (stored (roundWithAccuracy .binary64 s m e acc)) := by
  have hpow : (0 : ℝ) < 2 ^ e := by positivity
  obtain ⟨k, hk⟩ : ∃ k, k = (max (order m e - 52) (-1074) - e).toNat := ⟨_, rfl⟩
  obtain ⟨hlow, hhigh⟩ := hcuts.bounds
  rw [mantissa_ofMantissaAndAccuracy] at hlow hhigh
  rw [le_div_iff₀ hpow] at hlow
  rw [div_lt_iff₀ hpow] at hhigh
  have hshifted : v / 2 ^ e / 2 ^ k = v / 2 ^ (e + k) := by
    rw [div_div, zpow_add₀ two_ne_zero, zpow_natCast]
  have hround := (hcuts.shiftRight k).abs_roundedMantissa_sub_lt
  rw [hshifted] at hround
  rw [roundWithAccuracy_eq s m e acc hk]
  refine isRounded_carried s ((by positivity : (0 : ℝ) ≤ m * 2 ^ e).trans hlow) hround (by omega)
    ?_ ?_
  · rcases Nat.eq_zero_or_pos m with rfl | hm
    · simp only [order, Nat.log2_zero] at *
      exact .inl (by omega)
    · refine (by omega : e + k = -1074 ∨ e + k + 52 = order m e).imp_right fun hplace => ?_
      calc (2 : ℝ) ^ (e + k + 52) = 2 ^ m.log2 * 2 ^ e := by
            rw [hplace, order, zpow_add₀ two_ne_zero, zpow_natCast]
        _ ≤ m * 2 ^ e := by
          gcongr
          exact_mod_cast Nat.log2_self_le hm.ne'
        _ ≤ v := hlow
  · have hm : (m : ℝ) + 1 ≤ 2 ^ (m.log2 + 1) := by exact_mod_cast Nat.lt_log2_self
    calc v < (m + 1) * 2 ^ e := hhigh
      _ ≤ 2 ^ (m.log2 + 1) * 2 ^ e := by gcongr
      _ = 2 ^ (order m e + 1) := by
        rw [order, ← zpow_natCast, ← zpow_add₀ two_ne_zero]
        congr 1
        push_cast
        ring
      _ ≤ 2 ^ (e + k + 53) := zpow_le_zpow_right₀ one_le_two (by omega)

/-- Rounding an exact number whose bits are all there. -/
theorem isRounded_exact (s : Sign) (he : e ≤ max (order m e - 52) (-1074)) :
    IsRounded (signum s * (m * 2 ^ e)) (stored (roundWithAccuracy .binary64 s m e .exact)) := by
  refine isRounded_roundWithAccuracy s ?_ he
  rw [mul_div_cancel_right₀ _ (by positivity)]
  exact cuts_exact m

/-- A shift to the left multiplies by a power of two. -/
theorem cast_shiftLeft_toNat (m : ℕ) (he : 0 ≤ e) :
    ((m <<< e.toNat : ℕ) : ℝ) = m * 2 ^ e := by
  rw [Nat.shiftLeft_eq, Nat.cast_mul, Nat.cast_pow, Nat.cast_two, ← zpow_natCast,
    Int.toNat_of_nonneg he]

/-- Moving bits from the exponent to the mantissa keeps the value. -/
theorem magnitude_decreaseExponent (m : ℕ) (e t : ℤ) :
    ((decreaseExponent m e t).1 * 2 ^ (decreaseExponent m e t).2 : ℝ) = m * 2 ^ e := by
  rw [decreaseExponent, Nat.shiftLeft_eq, zpow_sub₀ two_ne_zero, zpow_natCast]
  push_cast
  field_simp

/-- An exact mantissa of any length is rounded. -/
theorem isRounded_round (s : Sign) (hm : 0 < m) (e : ℤ) :
    IsRounded (signum s * (m * 2 ^ e)) (stored (UnpackedFloat.round .binary64 s m e)) := by
  simp only [UnpackedFloat.round, targetExponent_totalExponent]
  rw [← magnitude_decreaseExponent m e (max (order m e - 52) (-1074))]
  refine isRounded_exact s ?_
  rw [order_decreaseExponent hm]
  simp only [decreaseExponent]
  omega

/-- An exact integer times a power of two is rounded. -/
theorem isRounded_normalize (a : ℤ) (e : ℤ) (s : Sign) :
    IsRounded (a * 2 ^ e) (stored (UnpackedFloat.normalize .binary64 a e s)) := by
  unfold UnpackedFloat.normalize
  rcases lt_trichotomy a 0 with hneg | rfl | hpos
  · obtain ⟨m, rfl⟩ : ∃ m : ℕ, a = -m := ⟨a.natAbs, by omega⟩
    rw [compare_lt_iff_lt.mpr hneg]
    simpa using isRounded_round .negative (m := m) (by omega) e
  · simpa [stored_zero, value] using isRounded_value (u := .zero s) rfl
  · obtain ⟨m, rfl⟩ : ∃ m : ℕ, a = m := ⟨a.natAbs, by omega⟩
    rw [compare_gt_iff_gt.mpr hpos]
    simpa using isRounded_round .positive (m := m) (by omega) e

end Rounding

section Operations

/-- Zeros are zero rounded. -/
theorem isRounded_zero (s : Sign) : IsRounded 0 (.zero s) :=
  isRounded_value (u := .zero s) rfl

/-- A finite number is zero or has a mantissa. -/
theorem zero_or_finite (h : u.isFinite = true) :
    (∃ s, u = .zero s) ∨ ∃ s m e hm, u = .finite s m e hm := by
  cases u with
  | notANumber => exact absurd h Bool.false_ne_true
  | infinity s => exact absurd h Bool.false_ne_true
  | zero s => exact .inl ⟨s, rfl⟩
  | finite s m e hm => exact .inr ⟨s, m, e, hm, rfl⟩

/-- The fields of a finite number are those of a zero or have a mantissa. -/
theorem zero_or_finite_datum (h : x.isFinite = true) :
    (∃ s, datum x = .zero s) ∨ ∃ s m e hm, datum x = .finite s m e hm :=
  zero_or_finite h

/-- A sum is rounded, as far as the fields are concerned. -/
theorem isRounded_unpacked_add (hu : stored u = u) (hw : stored w = w) (hu' : u.isFinite = true)
    (hw' : w.isFinite = true) :
    IsRounded (value u + value w) (stored (UnpackedFloat.add .binary64 u w)) := by
  rcases zero_or_finite hu' with ⟨s₁, rfl⟩ | ⟨s₁, m₁, e₁, h₁, rfl⟩ <;>
    rcases zero_or_finite hw' with ⟨s₂, rfl⟩ | ⟨s₂, m₂, e₂, h₂, rfl⟩
  · simp only [UnpackedFloat.add, value, add_zero]
    split_ifs <;> rw [stored_zero] <;> exact isRounded_zero _
  · simp only [UnpackedFloat.add, hw]
    simpa [value] using isRounded_value hw'
  · simp only [UnpackedFloat.add, hu]
    simpa [value] using isRounded_value hu'
  · -- both mantissas are aligned to the smaller exponent and added
    have haligned (m : ℕ) {e : ℤ} (he : min e₁ e₂ ≤ e) :
        ((decreaseExponent m e (min e₁ e₂)).1 * 2 ^ min e₁ e₂ : ℝ) = m * 2 ^ e := by
      rw [← magnitude_decreaseExponent m e (min e₁ e₂)]
      congr 2
      simp only [decreaseExponent]
      omega
    have hsum := isRounded_normalize (s₁.apply (decreaseExponent m₁ e₁ (min e₁ e₂)).1 +
      s₂.apply (decreaseExponent m₂ e₂ (min e₁ e₂)).1) (min e₁ e₂) .positive
    rw [value_finite, value_finite]
    rwa [Int.cast_add, cast_apply, cast_apply, add_mul, mul_assoc, mul_assoc, Int.cast_natCast,
      Int.cast_natCast, haligned m₁ (min_le_left e₁ e₂), haligned m₂ (min_le_right e₁ e₂)] at hsum

/-- A sum of finite numbers is the exact one rounded. -/
theorem isRounded_add (hx : x.isFinite = true) (hy : y.isFinite = true) :
    IsRounded (toReal x + toReal y) (datum (x + y)) :=
  isRounded_unpacked_add (stored_datum x) (stored_datum y) hx hy

/-- A difference of finite numbers is the exact one rounded. -/
theorem isRounded_sub (hx : x.isFinite = true) (hy : y.isFinite = true) :
    IsRounded (toReal x - toReal y) (datum (x - y)) := by
  have hsub : datum (x - y) = datum (x + -y) := by
    change stored (UnpackedFloat.sub .binary64 (datum x) (datum y)) =
      stored (UnpackedFloat.add .binary64 (datum x) (datum (-y)))
    rw [unpacked_sub_eq, datum_neg]
  rw [hsub, sub_eq_add_neg, ← toReal_neg]
  exact isRounded_add hx (isFinite_neg hy)

/-- A product of finite numbers is the exact one rounded. -/
theorem isRounded_mul (hx : x.isFinite = true) (hy : y.isFinite = true) :
    IsRounded (toReal x * toReal y) (datum (x * y)) := by
  change IsRounded (value (datum x) * value (datum y))
    (stored (UnpackedFloat.mul .binary64 (datum x) (datum y)))
  rcases zero_or_finite_datum hx with ⟨s₁, hu⟩ | ⟨s₁, m₁, e₁, h₁, hu⟩ <;>
    rcases zero_or_finite_datum hy with ⟨s₂, hw⟩ | ⟨s₂, m₂, e₂, h₂, hw⟩ <;> rw [hu, hw]
  · simpa [UnpackedFloat.mul, stored_zero, value] using isRounded_zero (s₁ * s₂)
  · simpa [UnpackedFloat.mul, stored_zero, value] using isRounded_zero (s₁ * s₂)
  · simpa [UnpackedFloat.mul, stored_zero, value] using isRounded_zero (s₁ * s₂)
  · have hproduct := isRounded_exact (s₁ * s₂) (exponent_mul_le hu hw)
    convert hproduct using 1
    · rw [value_finite, value_finite, signum_mul, zpow_add₀ two_ne_zero]
      push_cast
      ring
    · rfl

/-- Division with remainder cuts off less than one. -/
theorem cuts_div {n d : ℕ} (hd : 0 < d) :
    Cuts (.ofMantissaAndAccuracy (n / d) (accuracyOfFraction (n % d) d)) (n / d : ℝ) := by
  have hd' : (0 : ℝ) < d := by exact_mod_cast hd
  have hdiv : (n : ℝ) = d * (n / d : ℕ) + (n % d : ℕ) := by
    exact_mod_cast (Nat.div_add_mod n d).symm
  have hquotient : (n / d : ℝ) = (n / d : ℕ) + (n % d : ℕ) / d := by
    rw [hdiv]
    field_simp
  rw [hquotient, accuracyOfFraction]
  split_ifs with hzero
  · simpa [hzero] using cuts_exact (n / d)
  · have hpos : (0 : ℝ) < (n % d : ℕ) := by exact_mod_cast Nat.pos_of_ne_zero hzero
    have hlt : ((n % d : ℕ) : ℝ) < d := by exact_mod_cast Nat.mod_lt n hd
    refine cuts_inexact _ (lt_add_of_pos_right _ (by positivity)) ?_
    gcongr
    exact (div_lt_one hd').mpr hlt

/-- A quotient loses at most one bit more than the divisor has. -/
theorem log2_le_div {n d : ℕ} (hn : 0 < n) (hd : 0 < d) :
    n.log2 ≤ (n / d).log2 + d.log2 + 1 := by
  suffices hlt : n.log2 < (n / d).log2 + 1 + (d.log2 + 1) by omega
  rw [Nat.log2_lt hn.ne', pow_add]
  calc n < (n / d + 1) * d := Nat.lt_div_mul_add hd |>.trans_eq (by ring)
    _ ≤ 2 ^ ((n / d).log2 + 1) * 2 ^ (d.log2 + 1) :=
      Nat.mul_le_mul Nat.lt_log2_self Nat.lt_log2_self.le

/-- A quotient of finite numbers is the exact one rounded. -/
theorem isRounded_div (hx : x.isFinite = true) (hy : y.isFinite = true) (hne : toReal y ≠ 0) :
    IsRounded (toReal x / toReal y) (datum (x / y)) := by
  change IsRounded (value (datum x) / value (datum y))
    (stored (UnpackedFloat.div .binary64 (datum x) (datum y)))
  rcases zero_or_finite_datum hy with ⟨s₂, hw⟩ | ⟨s₂, m₂, e₂, h₂, hw⟩
  · exact absurd (by rw [toReal, hw, value_zero]) hne
  rcases zero_or_finite_datum hx with ⟨s₁, hu⟩ | ⟨s₁, m₁, e₁, h₁, hu⟩ <;> rw [hu, hw]
  · simpa [UnpackedFloat.div, stored_zero, value] using isRounded_zero (s₁ / s₂)
  · obtain ⟨t, ht⟩ : ∃ t, t = min (e₁ - e₂)
      (Format.binary64.targetExponent (totalExponent m₁ e₁ - totalExponent m₂ e₂)) := ⟨_, rfl⟩
    obtain ⟨n, hn⟩ : ∃ n, n = m₁ <<< (e₁ - e₂ - t).toNat := ⟨_, rfl⟩
    have htarget : t = min (e₁ - e₂) (max (order m₁ e₁ - order m₂ e₂ - 53) (-1074)) := by
      rw [ht, targetExponent_eq, totalExponent, totalExponent, order, order]
      congr 3
      omega
    have hlog : n.log2 = m₁.log2 + (e₁ - e₂ - t).toNat := hn ▸ log2_shiftLeft h₁ _
    have hbits := log2_le_div (n := n) (by rw [hn, Nat.shiftLeft_eq]; positivity) h₂
    have hunits : (m₁ * 2 ^ e₁ / (m₂ * 2 ^ e₂) / 2 ^ t : ℝ) = n / m₂ := by
      rw [hn, cast_shiftLeft_toNat m₁ (by omega), zpow_sub₀ two_ne_zero, zpow_sub₀ two_ne_zero]
      field_simp
    have hquotient : IsRounded (signum (s₁ / s₂) * (m₁ * 2 ^ e₁ / (m₂ * 2 ^ e₂)))
        (stored (roundWithAccuracy .binary64 (s₁ / s₂) (n / m₂) t
          (accuracyOfFraction (n % m₂) m₂))) := by
      refine isRounded_roundWithAccuracy (s₁ / s₂) (hunits ▸ cuts_div h₂) ?_
      unfold order at *
      omega
    rw [ht] at hn
    convert hquotient using 1
    · rw [value_finite, value_finite, signum_div, mul_div_mul_comm]
    · rw [ht, hn]
      rfl

/-- The whole root cuts off less than one. -/
theorem cuts_sqrt (n : ℕ) :
    Cuts (.ofMantissaAndAccuracy (Nat.sqrt n) (if n - Nat.sqrt n * Nat.sqrt n = 0 then .exact
      else .inexact (if n - Nat.sqrt n * Nat.sqrt n ≤ Nat.sqrt n then .lt else .gt))) (√n) := by
  have hle := Nat.sqrt_le n
  rcases eq_or_ne (n - Nat.sqrt n * Nat.sqrt n) 0 with hzero | hne
  · have hsquare : (n : ℝ) = Nat.sqrt n * Nat.sqrt n := by
      exact_mod_cast (by omega : n = Nat.sqrt n * Nat.sqrt n)
    have hroot : √(n : ℝ) = Nat.sqrt n := by
      conv_lhs => rw [hsquare]
      exact Real.sqrt_mul_self (Nat.cast_nonneg _)
    rw [if_pos hzero, hroot]
    exact cuts_exact _
  · have hlt : (Nat.sqrt n * Nat.sqrt n : ℝ) < n := by
      exact_mod_cast (by omega : Nat.sqrt n * Nat.sqrt n < n)
    rw [if_neg hne]
    exact cuts_inexact _ (Real.lt_sqrt_of_sq_lt (by rwa [sq])) Real.real_sqrt_lt_nat_sqrt_succ

/-- A root of a finite number is the exact one rounded. -/
theorem isRounded_sqrt (hx : x.isFinite = true) (hnonneg : 0 ≤ toReal x) :
    IsRounded (√(toReal x)) (datum x.sqrt) := by
  change IsRounded (√(value (datum x))) (stored (UnpackedFloat.sqrt .binary64 (datum x)))
  rw [toReal] at hnonneg
  rcases zero_or_finite_datum hx with ⟨s, hu⟩ | ⟨s, m, e, h, hu⟩ <;> rw [hu] at hnonneg ⊢
  · simpa [UnpackedFloat.sqrt, stored_zero] using isRounded_zero s
  · obtain rfl : s = .positive := by
      cases s with
      | negative =>
        rw [value_finite, signum_negative, neg_one_mul] at hnonneg
        linarith [(by positivity : (0 : ℝ) < m * 2 ^ e)]
      | positive => rfl
    obtain ⟨t, ht⟩ : ∃ t, t = min (e.ediv 2)
      (Format.binary64.targetExponent ((totalExponent m e + 1).ediv 2)) := ⟨_, rfl⟩
    obtain ⟨n, hn⟩ : ∃ n, n = m <<< (e - 2 * t).toNat := ⟨_, rfl⟩
    have htarget : t = min (e / 2) (max ((order m e + 2) / 2 - 53) (-1074)) := by
      rw [ht, targetExponent_eq, totalExponent, order]
      change min (e / 2) (max (((m.log2 : ℤ) + 1 + e + 1) / 2 - 53) (-1074)) = _
      omega
    have hlog : n.log2 = m.log2 + (e - 2 * t).toNat := hn ▸ log2_shiftLeft h _
    have hpos : 0 < n := by
      rw [hn, Nat.shiftLeft_eq]
      positivity
    have hroot : n.log2 / 2 ≤ (Nat.sqrt n).log2 := by
      rw [Nat.le_log2 (Nat.sqrt_pos.mpr hpos).ne', Nat.le_sqrt, ← pow_add]
      exact (Nat.pow_le_pow_right two_pos (by omega)).trans (Nat.log2_self_le hpos.ne')
    have hunits : (√(m * 2 ^ e) / 2 ^ t : ℝ) = √n := by
      have hshift : (m * 2 ^ e : ℝ) = n * (2 ^ t) ^ 2 := by
        rw [hn, cast_shiftLeft_toNat m (by omega), zpow_sub₀ two_ne_zero, mul_comm 2 t, zpow_mul]
        field_simp
      rw [hshift, Real.sqrt_mul (Nat.cast_nonneg _), Real.sqrt_sq (by positivity),
        mul_div_cancel_right₀ _ (by positivity)]
    have hrounded := isRounded_roundWithAccuracy .positive (hunits ▸ cuts_sqrt n) (e := t)
      (by unfold order at *; omega)
    rw [ht] at hn
    convert hrounded using 1
    · rw [value_finite, signum_positive, one_mul, one_mul]
    · rw [ht, hn]
      rfl

end Operations

end Binary64

end SchurForm
