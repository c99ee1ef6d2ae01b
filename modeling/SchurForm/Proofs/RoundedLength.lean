import Mathlib.Tactic.SplitIfs
import SchurForm.Proofs.BoundedArithmetic

/-!
# The length of two numbers

The length of a vector is computed as a rounded root and corrected by its own residual. Errors of a
part in a thousand, far more than rounding causes, leave the residual below the square of the root,
so that the corrected length stays between the larger component and a small multiple of it. Where
the components are scaled, the length may still vanish with them, but never beside a larger one.
-/

namespace SchurForm

namespace Binary64

variable {x y : Float} {g v : ℝ}

section Nearby

/-- Sixteen is a power of two. -/
theorem sixteen_mul_two_zpow (e : ℤ) : (16 : ℝ) * 2 ^ e = 2 ^ (e + 4) := by
  rw [zpow_add₀ two_ne_zero, mul_comm, show (2 : ℝ) ^ (4 : ℤ) = 16 by norm_num]

/-- Next to every magnitude in the normal range there are numbers of the grid. -/
theorem exists_onGrid_near (hlow : 2 ^ (-1000 : ℤ) ≤ v) :
    (∃ g, OnGrid g ∧ v ≤ g ∧ g ≤ 1.001 * v) ∧ ∃ g, OnGrid g ∧ 0.999 * v ≤ g ∧ g ≤ v := by
  have hpos : 0 < v := lt_of_lt_of_le (by positivity) hlow
  obtain ⟨t, ht, ht'⟩ := exists_mem_Ico_zpow hpos one_lt_two
  have hexponent : -1000 < t + 1 := (zpow_lt_zpow_iff_right₀ one_lt_two).mp (hlow.trans_lt ht')
  have hunit : (0 : ℝ) < 2 ^ (t - 10) := by positivity
  have hscale : (2 : ℝ) ^ t = 2 ^ (t - 10) * 1024 := by
    rw [show (1024 : ℝ) = 2 ^ (10 : ℤ) by norm_num, ← zpow_add₀ two_ne_zero, sub_add_cancel]
  have hunits : v / 2 ^ (t - 10) < 2048 := by
    rw [div_lt_iff₀ hunit]
    rw [zpow_add_one₀ two_ne_zero, hscale] at ht'
    linarith
  have hnonneg : 0 ≤ v / 2 ^ (t - 10) := by positivity
  have hcancel : v / 2 ^ (t - 10) * 2 ^ (t - 10) = v := div_mul_cancel₀ v hunit.ne'
  rw [hscale] at ht
  constructor
  · have hceil := Nat.le_ceil (v / 2 ^ (t - 10))
    have hceil' := (Nat.ceil_lt_add_one hnonneg).le
    have hsmall : ⌈v / 2 ^ (t - 10)⌉₊ < 2 ^ 53 :=
      (Nat.ceil_le.mpr (by exact_mod_cast hunits.le : v / 2 ^ (t - 10) ≤ (2048 : ℕ))).trans_lt
        (by norm_num)
    refine ⟨⌈v / 2 ^ (t - 10)⌉₊ * 2 ^ (t - 10), onGrid_natCast_mul hsmall (by omega), ?_, ?_⟩
    · calc v = v / 2 ^ (t - 10) * 2 ^ (t - 10) := hcancel.symm
        _ ≤ _ := by gcongr
    · calc (⌈v / 2 ^ (t - 10)⌉₊ : ℝ) * 2 ^ (t - 10)
          ≤ (v / 2 ^ (t - 10) + 1) * 2 ^ (t - 10) := by gcongr
        _ = v + 2 ^ (t - 10) := by rw [add_mul, hcancel, one_mul]
        _ ≤ 1.001 * v := by linarith
  · have hfloor := Nat.floor_le hnonneg
    have hfloor' := Nat.lt_floor_add_one (v / 2 ^ (t - 10))
    have hsmall : ⌊v / 2 ^ (t - 10)⌋₊ < 2 ^ 53 :=
      ((Nat.floor_lt hnonneg).mpr (by exact_mod_cast hunits)).trans (by norm_num : 2048 < 2 ^ 53)
    refine ⟨⌊v / 2 ^ (t - 10)⌋₊ * 2 ^ (t - 10), onGrid_natCast_mul hsmall (by omega), ?_, ?_⟩
    · have hbelow : v < (⌊v / 2 ^ (t - 10)⌋₊ + 1) * 2 ^ (t - 10) := by
        rwa [← div_lt_iff₀ hunit]
      linarith
    · calc (⌊v / 2 ^ (t - 10)⌋₊ : ℝ) * 2 ^ (t - 10) ≤ v / 2 ^ (t - 10) * 2 ^ (t - 10) := by gcongr
        _ = v := hcancel

/-- The numbers far from both ends of the range. -/
structure Moderate (g : ℝ) : Prop where
  low : 2 ^ (-1000 : ℤ) ≤ g
  high : g ≤ 2 ^ (1010 : ℤ)

/-- What is rounded exceeds a bound by a part in a thousand at most. -/
theorem IsRounded.within_near (hx : IsRounded v (datum x)) (hv : |v| ≤ g) (hg : Moderate g) :
    Within (1.001 * g) x := by
  obtain ⟨⟨g', hgrid, hle, hle'⟩, -⟩ := exists_onGrid_near hg.low
  have hpos : 0 < g := lt_of_lt_of_le (by positivity) hg.low
  have hlt : g' < 2 ^ (1024 : ℤ) := by
    calc g' ≤ 16 * g := by linarith
      _ ≤ 16 * 2 ^ (1010 : ℤ) := by gcongr; exact hg.high
      _ = 2 ^ (1014 : ℤ) := sixteen_mul_two_zpow 1010
      _ < 2 ^ (1024 : ℤ) := zpow_lt_zpow_right₀ one_lt_two (by norm_num)
  exact (hx.within hgrid (hv.trans hle) hlt).mono hle'

/-- What is rounded differs from a positive number by a part in a thousand at most. -/
theorem IsRounded.near (hx : IsRounded v (datum x)) (hv : Moderate v) :
    x.isFinite = true ∧ 0.999 * v ≤ toReal x ∧ toReal x ≤ 1.001 * v := by
  have hpos : 0 < v := lt_of_lt_of_le (by positivity) hv.low
  have hwithin := hx.within_near (abs_of_pos hpos).le hv
  obtain ⟨-, g, hgrid, hge, hle⟩ := exists_onGrid_near hv.low
  exact ⟨hwithin.isFinite, hge.trans (hx.ge hwithin.isFinite g hgrid hle),
    (le_abs_self _).trans hwithin.abs_le⟩

variable {h : ℝ}

/-- A sum in the moderate range is within the sum of the bounds, up to a part in a thousand. -/
theorem Within.add_near (hx : Within g x) (hy : Within h y) (hgh : Moderate (g + h)) :
    Within (1.001 * (g + h)) (x + y) :=
  (isRounded_add hx.isFinite hy.isFinite).within_near
    ((abs_add_le _ _).trans (add_le_add hx.abs_le hy.abs_le)) hgh

/-- A difference in the moderate range is within the sum of the bounds, up to a part in a thousand.
-/
theorem Within.sub_near (hx : Within g x) (hy : Within h y) (hgh : Moderate (g + h)) :
    Within (1.001 * (g + h)) (x - y) :=
  (isRounded_sub hx.isFinite hy.isFinite).within_near
    ((abs_sub _ _).trans (add_le_add hx.abs_le hy.abs_le)) hgh

/-- A product in the moderate range is within the product of the bounds, up to a part in a thousand.
-/
theorem Within.mul_near (hx : Within g x) (hy : Within h y) (hgh : Moderate (g * h)) :
    Within (1.001 * (g * h)) (x * y) := by
  refine (isRounded_mul hx.isFinite hy.isFinite).within_near ?_ hgh
  rw [abs_mul]
  exact mul_le_mul hx.abs_le hy.abs_le (abs_nonneg _) ((abs_nonneg _).trans hx.abs_le)

end Nearby

section Length

/-- Two positive numbers in order whose squares neither overflow nor vanish. -/
structure Ordered (x y : Float) : Prop where
  finite : x.isFinite = true ∧ y.isFinite = true
  low : 2 ^ (-480 : ℤ) ≤ toReal y
  le : toReal y ≤ toReal x
  high : toReal x ≤ 2 ^ (500 : ℤ)

namespace Ordered

/-- Both components are positive. -/
theorem y_pos (h : Ordered x y) : 0 < toReal y :=
  lt_of_lt_of_le (by positivity) h.low

/-- Sizes between an eighth of the smaller component and a multiple of the larger one. -/
theorem moderate (h : Ordered x y) (hlow : toReal y / 16 ≤ g) (hhigh : g ≤ 16 * toReal x) :
    Moderate g := by
  constructor
  · calc (2 : ℝ) ^ (-1000 : ℤ) ≤ 2 ^ (-484 : ℤ) := zpow_le_zpow_right₀ one_le_two (by norm_num)
      _ ≤ toReal y / 16 := by
        rw [le_div_iff₀ (by norm_num), mul_comm, sixteen_mul_two_zpow]
        exact h.low
      _ ≤ g := hlow
  · calc g ≤ 16 * toReal x := hhigh
      _ ≤ 16 * 2 ^ (500 : ℤ) := by gcongr; exact h.high
      _ = 2 ^ (504 : ℤ) := sixteen_mul_two_zpow 500
      _ ≤ 2 ^ (1010 : ℤ) := zpow_le_zpow_right₀ one_le_two (by norm_num)

/-- Sizes between the squares of the components. -/
theorem moderate_sq (h : Ordered x y) (hlow : toReal y * toReal y / 16 ≤ g)
    (hhigh : g ≤ 16 * (toReal x * toReal x)) : Moderate g := by
  have hpos := h.y_pos
  have hx := hpos.le.trans h.le
  constructor
  · calc (2 : ℝ) ^ (-1000 : ℤ) ≤ 2 ^ (-964 : ℤ) := zpow_le_zpow_right₀ one_le_two (by norm_num)
      _ ≤ toReal y * toReal y / 16 := by
        rw [le_div_iff₀ (by norm_num), mul_comm, sixteen_mul_two_zpow,
          show (-964 + 4 : ℤ) = -480 + -480 by norm_num, zpow_add₀ two_ne_zero]
        exact mul_le_mul h.low h.low (by positivity) hpos.le
      _ ≤ g := hlow
  · calc g ≤ 16 * (toReal x * toReal x) := hhigh
      _ ≤ 16 * (2 ^ (500 : ℤ) * 2 ^ (500 : ℤ)) := by gcongr <;> exact h.high
      _ = 2 ^ (1004 : ℤ) := by rw [← zpow_add₀ two_ne_zero, sixteen_mul_two_zpow]; norm_num
      _ ≤ 2 ^ (1010 : ℤ) := zpow_le_zpow_right₀ one_le_two (by norm_num)

end Ordered

/-- The rounded root of the sum of squares. -/
def rootLength (x y : Float) : Float :=
  (x * x + y * y).sqrt

/-- A positive number whose square is the sum of two squares up to a part in two hundred. -/
structure IsRoot (x y h : Float) : Prop where
  finite : h.isFinite = true
  pos : 0 < toReal h
  low : 199 / 200 * (toReal x * toReal x + toReal y * toReal y) ≤ toReal h * toReal h
  high : toReal h * toReal h ≤ 201 / 200 * (toReal x * toReal x + toReal y * toReal y)

/-- The root of the sum of squares is close to the length. -/
theorem isRoot_rootLength (h : Ordered x y) : IsRoot x y (rootLength x y) := by
  have hy := h.y_pos
  have hx : 0 < toReal x := hy.trans_le h.le
  have hyx : toReal y * toReal y ≤ toReal x * toReal x := mul_le_mul h.le h.le hy.le hx.le
  have hyy : 0 < toReal y * toReal y := by positivity
  obtain ⟨hxx, hxlow, hxhigh⟩ := (isRounded_mul h.finite.1 h.finite.1).near
    (h.moderate_sq (by linarith) (by linarith))
  obtain ⟨hyy', hylow, hyhigh⟩ := (isRounded_mul h.finite.2 h.finite.2).near
    (h.moderate_sq (by linarith) (by linarith))
  obtain ⟨hsum, hlow, hhigh⟩ := (isRounded_add hxx hyy').near
    (h.moderate_sq (by linarith) (by linarith))
  set s := x * x + y * y with hs
  have hspos : 0 < toReal s := by linarith
  have hroot := Real.sqrt_pos.mpr hspos
  have hsq := Real.mul_self_sqrt hspos.le
  obtain ⟨hfinite, hrlow, hrhigh⟩ := (isRounded_sqrt hsum hspos.le).near (h.moderate
    (Real.le_sqrt_of_sq_le (by nlinarith)) (Real.sqrt_le_iff.mpr ⟨by linarith, by nlinarith⟩))
  have hpos : 0 < toReal s.sqrt := by linarith
  change IsRoot x y s.sqrt
  refine ⟨hfinite, hpos, ?_, ?_⟩
  · have := mul_le_mul hrlow hrlow (by linarith) hpos.le
    nlinarith
  · have := mul_le_mul hrhigh hrhigh hpos.le (by linarith)
    nlinarith

/-- Numbers of the grid between which an exact result lies stay on their sides of it. -/
theorem IsRounded.between {lo hi : ℝ} (hx : IsRounded v (datum x)) (hlo : OnGrid lo)
    (hhi : OnGrid hi) (hle : lo ≤ v) (hle' : v ≤ hi) (hrange : |v| ≤ 2 ^ (1010 : ℤ)) :
    x.isFinite = true ∧ lo ≤ toReal x ∧ toReal x ≤ hi := by
  have hfinite := hx.finite _ (onGrid_two_zpow (by norm_num)) hrange
    (zpow_lt_zpow_right₀ one_lt_two (by norm_num))
  exact ⟨hfinite, hx.ge hfinite lo hlo hle, hx.le hfinite hi hhi hle'⟩

/-- The literal two is the number two. -/
theorem toReal_twoLiteral : (2.0 : Float).isFinite = true ∧ toReal 2.0 = 2 :=
  ⟨rfl, toReal_two⟩

/-- The literal four is the number four. -/
theorem toReal_fourLiteral : (4.0 : Float).isFinite = true ∧ toReal 4.0 = 4 := by
  have hdatum : datum 4.0 = .finite .positive (2 ^ 52) (-50) (Nat.two_pow_pos 52) := by rfl
  refine ⟨rfl, ?_⟩
  rw [toReal, hdatum, value, signum_positive]
  norm_num

/-- Doubling is exact. -/
theorem double_eq (hx : x.isFinite = true) (hrange : |toReal x| ≤ 2 ^ (1009 : ℤ)) :
    (2.0 * x).isFinite = true ∧ toReal (2.0 * x) = 2 * toReal x := by
  have hrounded := isRounded_mul toReal_twoLiteral.1 hx
  rw [toReal_twoLiteral.2] at hrounded
  have hgrid : OnGrid (2 * toReal x) := by
    simpa [mul_comm] using (onGrid_toReal x).mul_two_zpow (e := 1) (by norm_num)
  have hfinite := (hrounded.between hgrid hgrid le_rfl le_rfl (by
    rw [abs_mul, abs_of_pos two_pos, show (1010 : ℤ) = 1009 + 1 by norm_num,
      zpow_add_one₀ two_ne_zero]
    linarith)).1
  exact ⟨hfinite, hrounded.toReal_eq hfinite hgrid⟩

/-- The residual of a root that is at most twice the smaller component. -/
def residualNear (x y h : Float) : Float :=
  let delta := h - y
  x * (2.0 * delta - x) + (delta - 2.0 * (x - y)) * delta

/-- The residual of a root that exceeds twice the smaller component. -/
def residualFar (x y h : Float) : Float :=
  let delta := h - x
  2.0 * delta * (x - 2.0 * y) + ((4.0 * delta - y) * y + delta * delta)

/-- The root is corrected by half the residual over the root, with one of two ways to compute the
residual. -/
theorem correctedLength_eq (x y : Float) :
    correctedLength x y =
      if rootLength x y ≤ 2.0 * y then
        rootLength x y - residualNear x y (rootLength x y) / (2.0 * rootLength x y)
      else rootLength x y - residualFar x y (rootLength x y) / (2.0 * rootLength x y) :=
  rfl

variable {h : Float}

/-- Sizes up to a multiple of the larger component are far from the end of the range. -/
theorem Ordered.inRange (ho : Ordered x y) (hg : |g| ≤ 16 * toReal x) : |g| ≤ 2 ^ (1009 : ℤ) := by
  calc |g| ≤ 16 * 2 ^ (500 : ℤ) := hg.trans (by gcongr; exact ho.high)
    _ = 2 ^ (504 : ℤ) := sixteen_mul_two_zpow 500
    _ ≤ 2 ^ (1009 : ℤ) := zpow_le_zpow_right₀ one_le_two (by norm_num)

/-- Bounds of an exact result that are on the grid, for sizes up to a multiple of the larger
component. -/
theorem Ordered.between {lo hi : ℝ} {z : Float} (ho : Ordered x y) (hz : IsRounded v (datum z))
    (hlo : OnGrid lo) (hhi : OnGrid hi) (hle : lo ≤ v) (hle' : v ≤ hi)
    (hlow : -(16 * toReal x) ≤ lo) (hhigh : hi ≤ 16 * toReal x) :
    z.isFinite = true ∧ lo ≤ toReal z ∧ toReal z ≤ hi :=
  hz.between hlo hhi hle hle' <|
    (ho.inRange (abs_le.mpr ⟨hlow.trans hle, hle'.trans hhigh⟩)).trans
      (zpow_le_zpow_right₀ one_le_two (by norm_num))

/-- The residual of a root that is at most twice the smaller component. -/
theorem residualNear_within (ho : Ordered x y) (hh : IsRoot x y h) (hle : toReal h ≤ 2 * toReal y) :
    Within (8 / 5 * (toReal h * toReal h)) (residualNear x y h) := by
  obtain ⟨⟨hxf, hyf⟩, -, hyx, -⟩ := id ho
  obtain ⟨hf, hpos, hlow, hhigh⟩ := hh
  have hy := ho.y_pos
  have hx : 0 < toReal x := hy.trans_le hyx
  have hxy : toReal y * toReal y ≤ toReal x * toReal x := mul_le_mul hyx hyx hy.le hx.le
  -- the components differ by a factor below two
  have hXY : toReal x ≤ 2 * toReal y := by nlinarith
  have hHY : toReal y ≤ toReal h := by nlinarith
  have hgridX := onGrid_toReal x
  have hgridY := onGrid_toReal y
  have hgrid2Y : OnGrid (toReal y * 2 ^ (1 : ℤ)) := hgridY.mul_two_zpow (by norm_num)
  rw [zpow_one] at hgrid2Y
  obtain ⟨hdelta, hd0, hd1⟩ := ho.between (isRounded_sub hf hyf) onGrid_zero hgridY (by linarith)
    (by linarith) (by linarith) (by linarith)
  obtain ⟨htwice, htwiceEq⟩ := double_eq hdelta (ho.inRange (by rw [abs_of_nonneg hd0]; linarith))
  obtain ⟨ha, ha0, ha1⟩ := ho.between (isRounded_sub htwice hxf) hgridX.neg hgridX
    (by rw [htwiceEq]; linarith) (by rw [htwiceEq]; linarith) (by linarith) (by linarith)
  obtain ⟨hb, hb0, hb1⟩ := ho.between (isRounded_sub hxf hyf) onGrid_zero hgridY (by linarith)
    (by linarith) (by linarith) (by linarith)
  obtain ⟨htwice', htwiceEq'⟩ := double_eq hb (ho.inRange (by rw [abs_of_nonneg hb0]; linarith))
  obtain ⟨hc, hc0, hc1⟩ := ho.between (isRounded_sub hdelta htwice') hgrid2Y.neg hgrid2Y
    (by rw [htwiceEq']; linarith) (by rw [htwiceEq']; linarith) (by linarith) (by linarith)
  have hfirst := Within.mul_near (g := toReal x) (h := toReal x) ⟨hxf, (abs_of_pos hx).le⟩
    ⟨ha, abs_le.mpr ⟨ha0, ha1⟩⟩ (ho.moderate_sq (by linarith) (by linarith))
  have hsecond := Within.mul_near (g := toReal y * 2) (h := toReal y)
    ⟨hc, abs_le.mpr ⟨hc0, hc1⟩⟩ ⟨hdelta, by rwa [abs_of_nonneg hd0]⟩
    (ho.moderate_sq (by nlinarith) (by nlinarith))
  exact (hfirst.add_near hsecond (ho.moderate_sq (by nlinarith) (by nlinarith))).mono (by linarith)

/-- A root that exceeds twice the smaller component exceeds the larger one by a third of the smaller
one, except for rounding. -/
theorem IsRoot.abs_sub_le (ho : Ordered x y) (hh : IsRoot x y h) (hlt : 2 * toReal y < toReal h) :
    99 / 100 * toReal x ≤ toReal h ∧
      |toReal h - toReal x| ≤ 1 / 3 * toReal y + 1 / 199 * toReal x := by
  obtain ⟨-, hpos, hlow, hhigh⟩ := hh
  have hy := ho.y_pos
  have hyx := ho.le
  have hx : 0 < toReal x := hy.trans_le hyx
  have hsq : 0 ≤ toReal y * toReal y := by positivity
  have hHX : 99 / 100 * toReal x ≤ toReal h := by nlinarith
  have hsum : 0 < toReal h + toReal x := by linarith
  have hfirst : 3 * toReal y * toReal y ≤ toReal y * (toReal h + toReal x) := by nlinarith
  have hsecond : 199 / 100 * toReal x * toReal x ≤ toReal x * (toReal h + toReal x) := by nlinarith
  have hxy : toReal y * toReal y ≤ toReal x * toReal x := mul_le_mul hyx hyx hy.le hx.le
  refine ⟨hHX, abs_le.mpr ⟨?_, ?_⟩⟩ <;> rw [← mul_le_mul_iff_left₀ hsum] <;> linarith

/-- The residual of a root that exceeds twice the smaller component. -/
theorem residualFar_within (ho : Ordered x y) (hh : IsRoot x y h) (hlt : 2 * toReal y < toReal h) :
    Within (8 / 5 * (toReal h * toReal h)) (residualFar x y h) := by
  obtain ⟨hHX, hgap⟩ := hh.abs_sub_le ho hlt
  obtain ⟨⟨hxf, hyf⟩, -, hyx, -⟩ := id ho
  have hy := ho.y_pos
  have hx : 0 < toReal x := hy.trans_le hyx
  obtain ⟨d, hd⟩ : ∃ d, d = 0.334 * toReal y + 0.0051 * toReal x := ⟨_, rfl⟩
  have hdelta : Within d (h - x) :=
    ((isRounded_sub hh.finite hxf).within_near hgap (ho.moderate (by linarith) (by linarith))).mono
      (by linarith)
  obtain ⟨htwice, htwiceEq⟩ := double_eq hdelta.isFinite
    (ho.inRange (hdelta.abs_le.trans (by linarith)))
  have ha : Within (2 * d) (2.0 * (h - x)) :=
    ⟨htwice, by rw [htwiceEq, abs_mul, abs_two]; linarith [hdelta.abs_le]⟩
  obtain ⟨htwice', htwiceEq'⟩ := double_eq hyf (ho.inRange (by rw [abs_of_pos hy]; linarith))
  have hgridX := onGrid_toReal x
  obtain ⟨hb, hb0, hb1⟩ := ho.between (isRounded_sub hxf htwice') hgridX.neg hgridX
    (by rw [htwiceEq']; linarith) (by rw [htwiceEq']; linarith) (by linarith) (by linarith)
  have hyWithin : Within (toReal y) y := ⟨hyf, (abs_of_pos hy).le⟩
  -- the products of the bounds, as combinations of the products of the components
  have hyy : 0 < toReal y * toReal y := by positivity
  have hxy : toReal y * toReal y ≤ toReal x * toReal y := mul_le_mul_of_nonneg_right hyx hy.le
  have hxx : toReal x * toReal y ≤ toReal x * toReal x := mul_le_mul_of_nonneg_left hyx hx.le
  have hdy : d * toReal y = 0.334 * (toReal y * toReal y) + 0.0051 * (toReal x * toReal y) := by
    rw [hd]
    ring
  have hdx : d * toReal x = 0.334 * (toReal x * toReal y) + 0.0051 * (toReal x * toReal x) := by
    rw [hd]
    ring
  have hdd : d * d = 0.334 * (d * toReal y) + 0.0051 * (d * toReal x) := by
    nth_rewrite 2 [hd]
    ring
  have hfirst := ha.mul_near (h := toReal x) ⟨hb, abs_le.mpr ⟨hb0, hb1⟩⟩
    (ho.moderate_sq (by linarith) (by linarith))
  have hfour : Within 4 4.0 :=
    ⟨toReal_fourLiteral.1, by rw [toReal_fourLiteral.2, abs_of_pos (by norm_num)]⟩
  have hscaled := hfour.mul_near hdelta (ho.moderate (by linarith) (by linarith))
  have hsecond := (hscaled.sub_near hyWithin (ho.moderate (by linarith) (by linarith))).mul_near
    hyWithin (ho.moderate_sq (by linarith) (by linarith))
  have hthird := hdelta.mul_near hdelta (ho.moderate_sq (by linarith) (by linarith))
  have hlast := hsecond.add_near hthird (ho.moderate_sq (by linarith) (by linarith))
  refine (hfirst.add_near hlast (ho.moderate_sq (by linarith) (by linarith))).mono ?_
  have hsquares := two_mul_le_add_sq (toReal x) (toReal y)
  have hroot : 4 * (toReal y * toReal y) ≤ toReal h * toReal h := by nlinarith
  linarith [hh.low]

/-- A root less a fraction of it lies between a fraction and a multiple of the larger component. -/
theorem IsRoot.corrected (ho : Ordered x y) (hh : IsRoot x y h) {r : Float}
    (hr : Within (8 / 5 * (toReal h * toReal h)) r) :
    (h - r / (2.0 * h)).isFinite = true ∧ toReal x / 8 ≤ toReal (h - r / (2.0 * h)) ∧
      toReal (h - r / (2.0 * h)) ≤ 4 * toReal x := by
  obtain ⟨hf, hpos, hlow, hhigh⟩ := hh
  have hyx := ho.le
  have hy := ho.y_pos
  have hx : 0 < toReal x := hy.trans_le hyx
  have hge : 99 / 100 * toReal x ≤ toReal h := by nlinarith
  have hle : toReal h ≤ 3 / 2 * toReal x := by nlinarith
  have hdouble := double_eq hf (ho.inRange (by rw [abs_of_pos hpos]; linarith))
  have hquotient : Within (1.001 * (4 / 5 * toReal h)) (r / (2.0 * h)) := by
    refine (isRounded_div hr.isFinite hdouble.1 (by rw [hdouble.2]; positivity)).within_near ?_
      (ho.moderate (by linarith) (by linarith))
    rw [hdouble.2, abs_div, abs_of_pos (show (0 : ℝ) < 2 * toReal h by positivity),
      div_le_iff₀ (by positivity)]
    linarith [hr.abs_le]
  obtain ⟨hq, hq'⟩ := abs_le.mp hquotient.abs_le
  obtain ⟨hfinite, hlow, hhigh⟩ := (isRounded_sub hf hquotient.isFinite).near
    (ho.moderate (by linarith) (by linarith))
  exact ⟨hfinite, by linarith, by linarith⟩

/-- The corrected length lies between a fraction and a multiple of the larger component. -/
theorem correctedLength_spec (ho : Ordered x y) :
    (correctedLength x y).isFinite = true ∧ toReal x / 8 ≤ toReal (correctedLength x y) ∧
      toReal (correctedLength x y) ≤ 4 * toReal x := by
  have hroot := isRoot_rootLength ho
  have hdouble := double_eq ho.finite.2 (ho.inRange (by
    rw [abs_of_pos ho.y_pos]
    linarith [ho.le, ho.y_pos]))
  have hcompare := le_iff_toReal hroot.finite hdouble.1
  rw [hdouble.2] at hcompare
  rw [correctedLength_eq]
  split_ifs with hle
  · exact hroot.corrected ho (residualNear_within ho hroot (hcompare.mp hle))
  · exact hroot.corrected ho (residualFar_within ho hroot (not_le.mp (mt hcompare.mpr hle)))

end Length

section Hypot

variable {large small : Float}

/-- What a computed length of two numbers has to do with the larger one of them. -/
structure IsLength (large : ℝ) (r : Float) : Prop where
  finite : r.isFinite = true
  nonneg : 0 ≤ toReal r
  high : toReal r ≤ 2 ^ (505 : ℤ)
  dominates : toReal r ≠ 0 → large ≤ 16 * toReal r
  pos : 2 ^ (-1000 : ℤ) ≤ large → 0 < toReal r

/-- The length of two magnitudes in order. -/
def orderedLength (large small : Float) : Float :=
  if powerOfTwo 511 < large then
    if small ≤ large * powerOfTwo (-54) then large + small
    else correctedLength (large * powerOfTwo (-600)) (small * powerOfTwo (-600)) * powerOfTwo 600
  else if small < powerOfTwo (-459) then
    if small / powerOfTwo (-54) ≤ large then large + small
    else correctedLength (large * powerOfTwo 600) (small * powerOfTwo 600) * powerOfTwo (-600)
  else if small ≤ large * powerOfTwo (-54) then large + small
  else correctedLength large small

/-- Multiplying by a power of two that is at least one is exact. -/
theorem mul_two_zpow_eq {e : ℤ} (he : 0 ≤ e) (hy : y.isFinite = true) (hpower : toReal y = 2 ^ e)
    (hx : x.isFinite = true) (hrange : |toReal x| * 2 ^ e ≤ 2 ^ (1010 : ℤ)) :
    (x * y).isFinite = true ∧ toReal (x * y) = toReal x * 2 ^ e := by
  have hrounded := isRounded_mul hx hy
  rw [hpower] at hrounded
  have hgrid := (onGrid_toReal x).mul_two_zpow he
  have hfinite := (hrounded.between hgrid hgrid le_rfl le_rfl (by
    rwa [abs_mul, abs_of_pos (show (0 : ℝ) < 2 ^ e by positivity)])).1
  exact ⟨hfinite, hrounded.toReal_eq hfinite hgrid⟩

/-- Scaling a positive length down. Where it vanishes there is nothing left to compare. -/
theorem isLength_scaledDown {q : Float} {l : ℝ} (hq : q.isFinite = true) (hl : 0 < l)
    (hl' : l < 2 ^ (-400 : ℤ)) (hlow : l * 2 ^ (600 : ℤ) / 8 ≤ toReal q)
    (hhigh : toReal q ≤ 4 * (l * 2 ^ (600 : ℤ))) : IsLength l (q * powerOfTwo (-600)) := by
  have hunit : (2 : ℝ) ^ (600 : ℤ) * 2 ^ (-600 : ℤ) = 1 := by
    rw [← zpow_add₀ two_ne_zero, add_neg_cancel, zpow_zero]
  have hpos : (0 : ℝ) < 2 ^ (-600 : ℤ) := by positivity
  have hrounded := isRounded_mul hq (isFinite_powerOfTwo (e := -600) (by norm_num) (by norm_num))
  rw [toReal_powerOfTwo (by norm_num) (by norm_num)] at hrounded
  obtain ⟨v, hv⟩ : ∃ v, v = toReal q * 2 ^ (-600 : ℤ) := ⟨_, rfl⟩
  rw [← hv] at hrounded
  have hge : l / 8 ≤ v := by
    calc l / 8 = l * 2 ^ (600 : ℤ) / 8 * 2 ^ (-600 : ℤ) := by linear_combination (-(l / 8)) * hunit
      _ ≤ v := by rw [hv]; gcongr
  have hle : v ≤ 1 := by
    calc v ≤ 4 * (l * 2 ^ (600 : ℤ)) * 2 ^ (-600 : ℤ) := by rw [hv]; gcongr
      _ = 4 * l := by linear_combination (4 * l) * hunit
      _ ≤ 16 * 2 ^ (-400 : ℤ) := by linarith
      _ = 2 ^ (-396 : ℤ) := sixteen_mul_two_zpow (-400)
      _ ≤ 1 := zpow_le_one_of_nonpos₀ one_le_two (by norm_num)
  have hvpos : 0 < v := lt_of_lt_of_le (by positivity) hge
  obtain ⟨hfinite, hr0, hr1⟩ := hrounded.between onGrid_zero onGrid_one hvpos.le hle
    (by rw [abs_of_pos hvpos]; exact hle.trans (one_le_zpow₀ one_le_two (by norm_num)))
  -- a length above the least numbers keeps a power of two next to it
  have hkept {t : ℤ} (ht : -1071 ≤ t) (htl : 2 ^ t ≤ l) :
      2 ^ (t - 3) ≤ toReal (q * powerOfTwo (-600)) := by
    refine hrounded.ge hfinite _ (onGrid_two_zpow (by omega)) (le_trans ?_ hge)
    rw [zpow_sub₀ two_ne_zero, show (2 : ℝ) ^ (3 : ℤ) = 8 by norm_num]
    gcongr
  obtain ⟨t, ht, ht'⟩ := exists_mem_Ico_zpow hl one_lt_two
  have hsixteen : (2 : ℝ) ^ (t + 1) = 16 * 2 ^ (t - 3) := by
    rw [sixteen_mul_two_zpow]
    congr 1
    ring
  refine ⟨hfinite, hr0, hr1.trans (one_le_zpow₀ one_le_two (by norm_num)), fun hne => ?_,
    fun hlow => ?_⟩
  · rcases le_or_gt (-1071) t with hlarge | hsmall
    · have := hkept hlarge ht
      linarith
    · have hleast := (onGrid_toReal (q * powerOfTwo (-600))).abs_ge hne
      rw [abs_of_nonneg hr0] at hleast
      have hle : (2 : ℝ) ^ (t - 3) ≤ 2 ^ (-1074 : ℤ) := zpow_le_zpow_right₀ one_le_two (by omega)
      linarith
  · have hexponent : -1000 < t + 1 := (zpow_lt_zpow_iff_right₀ one_lt_two).mp (hlow.trans_lt ht')
    exact lt_of_lt_of_le (by positivity) (hkept (by omega) ht)

variable (hlarge : large.isFinite = true) (hsmall : small.isFinite = true)
  (hnonneg : 0 ≤ toReal small) (hle : toReal small ≤ toReal large)
  (hhigh : toReal large ≤ 2 ^ (500 : ℤ))
include hlarge hsmall hnonneg hle hhigh

/-- A negligible component is added. -/
theorem isLength_add : IsLength (toReal large) (large + small) := by
  have hpow : (2 : ℝ) ^ (501 : ℤ) = 2 ^ (500 : ℤ) + 2 ^ (500 : ℤ) := by
    rw [show (501 : ℤ) = 500 + 1 by norm_num, zpow_add_one₀ two_ne_zero, mul_two]
  have hsum : |toReal large + toReal small| ≤ 2 ^ (501 : ℤ) := by
    rw [abs_of_nonneg (by linarith), hpow]
    linarith
  have hgrid := onGrid_two_zpow (e := 501) (by norm_num)
  obtain ⟨hfinite, hge, hle'⟩ := (isRounded_add hlarge hsmall).between (onGrid_toReal large) hgrid
    (by linarith) ((le_abs_self _).trans hsum)
    (hsum.trans (zpow_le_zpow_right₀ one_le_two (by norm_num)))
  have hlargeNonneg := hnonneg.trans hle
  refine ⟨hfinite, hlargeNonneg.trans hge,
    hle'.trans (zpow_le_zpow_right₀ one_le_two (by norm_num)), fun _ => by linarith,
    fun hlow => lt_of_lt_of_le (by positivity) (hlow.trans hge)⟩

omit hnonneg in
/-- Two components of which neither is tiny. -/
theorem isLength_corrected (hlow : 2 ^ (-480 : ℤ) ≤ toReal small) :
    IsLength (toReal large) (correctedLength large small) := by
  have ho : Ordered large small := ⟨⟨hlarge, hsmall⟩, hlow, hle, hhigh⟩
  have hpos := ho.y_pos.trans_le hle
  obtain ⟨hfinite, hge, hle'⟩ := correctedLength_spec ho
  have hpow : (2 : ℝ) ^ (504 : ℤ) = 16 * 2 ^ (500 : ℤ) := (sixteen_mul_two_zpow 500).symm
  refine ⟨hfinite, by linarith, ?_, fun _ => by linarith, fun _ => by linarith⟩
  calc toReal (correctedLength large small) ≤ 16 * toReal large := by linarith
    _ ≤ 16 * 2 ^ (500 : ℤ) := by gcongr
    _ = 2 ^ (504 : ℤ) := sixteen_mul_two_zpow 500
    _ ≤ 2 ^ (505 : ℤ) := zpow_le_zpow_right₀ one_le_two (by norm_num)

omit hhigh in
/-- The smaller component is not negligible: then it is not zero, and the larger one is tiny too. -/
theorem scaled_bounds (htiny : small < powerOfTwo (-459))
    (hcompare : ¬small / powerOfTwo (-54) ≤ large) :
    0 < toReal small ∧ toReal large < toReal small * 2 ^ (54 : ℤ) ∧
      toReal small < 2 ^ (-459 : ℤ) := by
  have hpower := isFinite_powerOfTwo (e := -54) (by norm_num) (by norm_num)
  have hvalue := toReal_powerOfTwo (e := -54) (by norm_num) (by norm_num)
  rw [lt_iff_toReal hsmall (isFinite_powerOfTwo (by norm_num) (by norm_num)),
    toReal_powerOfTwo (by norm_num) (by norm_num)] at htiny
  have hrounded := isRounded_div hsmall hpower (by rw [hvalue]; positivity)
  rw [hvalue, div_eq_mul_inv, ← zpow_neg, neg_neg] at hrounded
  have hgrid := (onGrid_toReal small).mul_two_zpow (e := 54) (by norm_num)
  have hrange : |toReal small * 2 ^ (54 : ℤ)| ≤ 2 ^ (1010 : ℤ) := by
    rw [abs_of_nonneg (by positivity)]
    calc toReal small * 2 ^ (54 : ℤ) ≤ 2 ^ (-459 : ℤ) * 2 ^ (54 : ℤ) := by gcongr
      _ = 2 ^ (-405 : ℤ) := (zpow_add₀ two_ne_zero _ _).symm
      _ ≤ 2 ^ (1010 : ℤ) := zpow_le_zpow_right₀ one_le_two (by norm_num)
  have hfinite := (hrounded.between hgrid hgrid le_rfl le_rfl hrange).1
  rw [le_iff_toReal hfinite hlarge, hrounded.toReal_eq hfinite hgrid, not_le] at hcompare
  exact ⟨pos_of_mul_pos_left ((hnonneg.trans hle).trans_lt hcompare) (by positivity), hcompare,
    htiny⟩

omit hhigh in
/-- Two tiny components that are scaled up. -/
theorem isLength_scaled (htiny : small < powerOfTwo (-459))
    (hcompare : ¬small / powerOfTwo (-54) ≤ large) :
    IsLength (toReal large) (correctedLength (large * powerOfTwo 600) (small * powerOfTwo 600) *
      powerOfTwo (-600)) := by
  obtain ⟨hpos, hlt, hlt'⟩ := scaled_bounds hlarge hsmall hnonneg hle htiny hcompare
  have htop : toReal large < 2 ^ (-405 : ℤ) := by
    calc toReal large < toReal small * 2 ^ (54 : ℤ) := hlt
      _ ≤ 2 ^ (-459 : ℤ) * 2 ^ (54 : ℤ) := by gcongr
      _ = 2 ^ (-405 : ℤ) := (zpow_add₀ two_ne_zero _ _).symm
  have hscaled {z : Float} (hz : z.isFinite = true) (hz0 : 0 ≤ toReal z)
      (hz1 : toReal z ≤ toReal large) := by
    refine mul_two_zpow_eq (e := 600) (by norm_num)
      (isFinite_powerOfTwo (by norm_num) (by norm_num))
      (toReal_powerOfTwo (by norm_num) (by norm_num)) hz ?_
    rw [abs_of_nonneg hz0]
    calc toReal z * 2 ^ (600 : ℤ) ≤ 2 ^ (-405 : ℤ) * 2 ^ (600 : ℤ) := by
          gcongr
          exact hz1.trans htop.le
      _ = 2 ^ (195 : ℤ) := (zpow_add₀ two_ne_zero _ _).symm
      _ ≤ 2 ^ (1010 : ℤ) := zpow_le_zpow_right₀ one_le_two (by norm_num)
  obtain ⟨hx, hxEq⟩ := hscaled hlarge (hpos.le.trans hle) le_rfl
  obtain ⟨hy, hyEq⟩ := hscaled hsmall hpos.le hle
  have hordered : Ordered (large * powerOfTwo 600) (small * powerOfTwo 600) := by
    refine ⟨⟨hx, hy⟩, ?_, ?_, ?_⟩
    · rw [hyEq]
      calc (2 : ℝ) ^ (-480 : ℤ) ≤ 2 ^ (-474 : ℤ) := zpow_le_zpow_right₀ one_le_two (by norm_num)
        _ = 2 ^ (-1074 : ℤ) * 2 ^ (600 : ℤ) := by rw [← zpow_add₀ two_ne_zero]; norm_num
        _ ≤ toReal small * 2 ^ (600 : ℤ) := by
          gcongr
          exact ((onGrid_toReal small).abs_ge hpos.ne').trans_eq (abs_of_pos hpos)
    · rw [hxEq, hyEq]
      gcongr
    · rw [hxEq]
      calc toReal large * 2 ^ (600 : ℤ) ≤ 2 ^ (-405 : ℤ) * 2 ^ (600 : ℤ) := by gcongr
        _ = 2 ^ (195 : ℤ) := (zpow_add₀ two_ne_zero _ _).symm
        _ ≤ 2 ^ (500 : ℤ) := zpow_le_zpow_right₀ one_le_two (by norm_num)
  obtain ⟨hfinite, hge, hle'⟩ := correctedLength_spec hordered
  rw [hxEq] at hge hle'
  exact isLength_scaledDown hfinite (hpos.trans_le hle)
    (htop.trans (zpow_lt_zpow_right₀ one_lt_two (by norm_num))) hge hle'

/-- The length of two magnitudes in order that are not too large. -/
theorem isLength_orderedLength : IsLength (toReal large) (orderedLength large small) := by
  have hhuge : ¬powerOfTwo 511 < large := by
    rw [lt_iff_toReal (isFinite_powerOfTwo (by norm_num) (by norm_num)) hlarge,
      toReal_powerOfTwo (by norm_num) (by norm_num), not_lt]
    exact hhigh.trans (zpow_le_zpow_right₀ one_le_two (by norm_num))
  have htiny : small < powerOfTwo (-459) ↔ toReal small < 2 ^ (-459 : ℤ) := by
    rw [lt_iff_toReal hsmall (isFinite_powerOfTwo (by norm_num) (by norm_num)),
      toReal_powerOfTwo (by norm_num) (by norm_num)]
  rw [orderedLength, if_neg hhuge]
  split_ifs with hbelow hcompare hcompare
  · exact isLength_add hlarge hsmall hnonneg hle hhigh
  · exact isLength_scaled hlarge hsmall hnonneg hle hbelow hcompare
  · exact isLength_add hlarge hsmall hnonneg hle hhigh
  · refine isLength_corrected hlarge hsmall hle hhigh ?_
    exact (zpow_le_zpow_right₀ one_le_two (by norm_num)).trans (not_lt.mp (mt htiny.mpr hbelow))

omit hlarge hsmall hnonneg hle hhigh

/-- The length of two finite numbers that are not too large. -/
theorem isLength_hypot (hx : Within (2 ^ (500 : ℤ)) x) (hy : Within (2 ^ (500 : ℤ)) y) :
    IsLength (max |toReal x| |toReal y|) (hypot x y) := by
  have hplain {z : Float} (hz : z.isFinite = true) : z.isInf = false ∧ z.isNaN = false := by
    refine ⟨?_, Binary64.isNaN_of_isFinite hz⟩
    rw [isFinite_eq] at hz
    change (datum z).isInf = false
    cases hu : datum z with
    | notANumber => rfl
    | infinity s => rw [hu] at hz; exact absurd hz Bool.false_ne_true
    | zero s => rfl
    | finite s m e hm => rfl
  have hordered : hypot x y = orderedLength (if x.abs < y.abs then y.abs else x.abs)
      (if x.abs < y.abs then x.abs else y.abs) := by
    rw [hypot, (hplain hx.isFinite).1, (hplain hx.isFinite).2, (hplain hy.isFinite).1,
      (hplain hy.isFinite).2]
    rfl
  have hx' := (isFinite_abs_iff x).trans hx.isFinite
  have hy' := (isFinite_abs_iff y).trans hy.isFinite
  have hcompare := lt_iff_toReal hx' hy'
  rw [toReal_abs, toReal_abs] at hcompare
  rw [hordered]
  split_ifs with hlt
  · have hlt' := hcompare.mp hlt
    rw [max_eq_right hlt'.le, ← toReal_abs]
    exact isLength_orderedLength hy' hx' (by rw [toReal_abs]; exact abs_nonneg _)
      (by rw [toReal_abs, toReal_abs]; exact hlt'.le) (by rw [toReal_abs]; exact hy.abs_le)
  · have hle' := not_lt.mp (mt hcompare.mpr hlt)
    rw [max_eq_left hle', ← toReal_abs]
    exact isLength_orderedLength hx' hy' (by rw [toReal_abs]; exact abs_nonneg _)
      (by rw [toReal_abs, toReal_abs]; exact hle') (by rw [toReal_abs]; exact hx.abs_le)

end Hypot

end Binary64

end SchurForm
