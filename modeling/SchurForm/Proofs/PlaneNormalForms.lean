import Mathlib.Tactic.FieldSimp
import Mathlib.Tactic.LinearCombination
import SchurForm.Block.Recognition
import SchurForm.Proofs.PatchEmbedding
import SchurForm.TwoByTwo

/-!
# Blocks of order two in exact arithmetic

The eigenvalue that recognition finds is a function of trace and determinant, so it is the same for
similar blocks and for equivalent pencil blocks. Standardizing a block that holds a pair is a
similarity by a rotation and leaves equal diagonal entries and off-diagonal entries of opposite
sign; diagonalizing a block is exact for every block, the zero block included.
-/

namespace SchurForm

open Scalar

/-- The eigenvalue with positive imaginary part of a real block of order two with the given trace
and determinant, if its eigenvalues are not real. -/
noncomputable def conjugatePair? (trace det : ℝ) : Option (ℝ × ℝ) :=
  if trace ^ 2 < four * det then some (half * trace, √(det - (half * trace) ^ 2)) else none

/-- A block has a conjugate pair exactly if its discriminant is negative, and the pair is given by
the quadratic formula. -/
theorem conjugatePair?_eq (trace det : ℝ) : conjugatePair? trace det =
    if trace ^ 2 < 4 * det then some (trace / 2, √(det - (trace / 2) ^ 2)) else none := by
  rw [conjugatePair?, four_real, half_real, one_div_mul_eq_div]

/-- A block whose discriminant is not negative has no eigenvalue with positive imaginary part. -/
theorem conjugatePair?_eq_none {a b c d : ℝ} (h : 0 ≤ (a - d) ^ 2 + 4 * (b * c)) :
    conjugatePair? (a + d) (a * d - b * c) = none := by
  rw [conjugatePair?_eq, if_neg]
  nlinarith

/-- Scaling before the discriminant is taken does not change the eigenvalue. -/
theorem complexEigenvalue?_eq (a b c d : ℝ) :
    complexEigenvalue? a b c d = conjugatePair? (a + d) (a * d - b * c) := by
  set p : ℝ := 1 / 2 * (a - d) with hp
  set scale : ℝ := max (max |p| |b|) |c| with hscale
  have hdef : complexEigenvalue? a b c d = if scale = 0 then none else
      if 0 ≤ p / scale * (p / scale) + b / scale * (c / scale) then none
      else some (1 / 2 * (a + d),
        scale * √(-(p / scale * (p / scale) + b / scale * (c / scale)))) := by
    simp [complexEigenvalue?, hp, hscale]
  have hdisc : p * p + b * c = ((a + d) / 2) ^ 2 - (a * d - b * c) := by rw [hp]; ring
  rw [hdef, conjugatePair?_eq]
  by_cases hzero : scale = 0
  · have hbound : |p| ≤ scale ∧ |b| ≤ scale := by simp [hscale]
    have hpzero : p = 0 := abs_nonpos_iff.mp (hzero ▸ hbound.1)
    have hbzero : b = 0 := abs_nonpos_iff.mp (hzero ▸ hbound.2)
    rw [if_pos hzero, if_neg]
    rw [hpzero, hbzero] at hdisc
    rw [hbzero, not_lt]
    linarith
  · have hpos : 0 < scale := lt_of_le_of_ne (by positivity) (Ne.symm hzero)
    have hquot :
        p / scale * (p / scale) + b / scale * (c / scale) = (p * p + b * c) / scale ^ 2 := by
      field_simp
    rw [if_neg hzero, hquot, hdisc]
    by_cases hneg : (a + d) ^ 2 < 4 * (a * d - b * c)
    · have hlt : ((a + d) / 2) ^ 2 - (a * d - b * c) < 0 := by nlinarith
      rw [if_neg (not_le.mpr (div_neg_of_neg_of_pos hlt (by positivity))), if_pos hneg, ← neg_div,
        Real.sqrt_div (by linarith), Real.sqrt_sq hpos.le, neg_sub]
      congr 2
      · ring
      · field_simp
    · have hge : 0 ≤ ((a + d) / 2) ^ 2 - (a * d - b * c) := by nlinarith
      rw [if_pos (by positivity), if_neg hneg]

/-- A quarter turn has the imaginary unit for an eigenvalue. -/
theorem complexEigenvalue?_quarterTurn : complexEigenvalue? (0 : ℝ) 1 (-1) 0 = some (0, 1) := by
  rw [complexEigenvalue?_eq, conjugatePair?_eq]
  norm_num

/-- The eigenvalue of a pencil block over a diagonal block, from the coefficients of its
characteristic polynomial. -/
theorem pencilComplexEigenvalue?_eq (a b c d t0 t1 : ℝ) :
    pencilComplexEigenvalue? a b c d t0 t1 =
      if t0 * t1 = 0 then none
      else conjugatePair? ((a * t1 + d * t0) / (t0 * t1)) ((a * d - b * c) / (t0 * t1)) := by
  by_cases hzero : t0 * t1 = 0
  · have hor : t0 = 0 ∨ t1 = 0 := mul_eq_zero.mp hzero
    simp [pencilComplexEigenvalue?, hor]
  · obtain ⟨h0, h1⟩ := mul_ne_zero_iff.mp hzero
    have hdef : pencilComplexEigenvalue? a b c d t0 t1 =
        complexEigenvalue? (a / t0) (b / t0) (c / t1) (d / t1) := by
      simp [pencilComplexEigenvalue?, h0, h1]
    rw [hdef, complexEigenvalue?_eq, if_neg hzero]
    congr 1 <;> field_simp

/-- Putting into a block of order two the entries that it has changes nothing. -/
theorem Mat.ofFn_block_eq {n k : Nat} {a : Mat n n ℝ} {x00 x01 x10 x11 : ℝ} (h00 : a.get k k = x00)
    (h01 : a.get k (k + 1) = x01) (h10 : a.get (k + 1) k = x10)
    (h11 : a.get (k + 1) (k + 1) = x11) :
    (Mat.ofFn fun i j =>
      if i = k ∧ j = k then x00
      else if i = k ∧ j = k + 1 then x01
      else if i = k + 1 ∧ j = k then x10
      else if i = k + 1 ∧ j = k + 1 then x11
      else a.get i j) = a := by
  apply Mat.ext_get
  intro i hi j hj
  rw [Mat.get_ofFn, if_pos ⟨hi, hj⟩]
  split
  · rename_i h
    rw [h.1, h.2, h00]
  split
  · rename_i h
    rw [h.1, h.2, h01]
  split
  · rename_i h
    rw [h.1, h.2, h10]
  split
  · rename_i h
    rw [h.1, h.2, h11]
  · rfl

namespace GivensRotation

/-- The rotation as a matrix. -/
def toMat (rot : GivensRotation ℝ) : Mat 2 2 ℝ :=
  Mat.ofRows2 rot.c (-rot.s) rot.s rot.c

/-- Cosine and sine of one angle. -/
def IsRotation (rot : GivensRotation ℝ) : Prop :=
  rot.c ^ 2 + rot.s ^ 2 = 1

variable {n k : Nat}

/-- The matrix of a rotation is orthogonal. -/
theorem IsRotation.isOrthogonal {rot : GivensRotation ℝ} (h : rot.IsRotation) :
    rot.toMat.IsOrthogonal := by
  have hone : rot.c * rot.c + rot.s * rot.s = 1 := by rw [← h]; ring
  apply Mat.ext_get
  intro i hi j hj
  rw [Mat.get_mul, Mat.get_identity hi]
  interval_cases i <;> interval_cases j <;>
    simp [toMat, Mat.ofRows2, Finset.sum_range_succ] <;> linarith

/-- Rotating two adjacent columns is multiplication by the embedded rotation. -/
theorem rotateColumns_eq_mul (rot : GivensRotation ℝ) (hk : k + 2 ≤ n) (a : Mat n n ℝ) :
    rot.rotateColumns k (k + 1) a = a.mul (Mat.embed n k rot.toMat) := by
  apply Mat.ext_get
  intro r hr c hc
  rw [Mat.get_mul_embed hk _ _ _ hc, rotateColumns, Mat.get_ofFn, if_pos ⟨hr, hc⟩]
  by_cases hsecond : c = k + 1
  · subst hsecond
    simp [toMat, Mat.ofRows2, Finset.sum_range_succ]
    ring
  · by_cases hfirst : c = k
    · subst hfirst
      simp [toMat, Mat.ofRows2, Finset.sum_range_succ]
      ring
    · rw [if_neg hsecond, if_neg hfirst, if_neg (by omega)]

/-- Rotating two adjacent rows is multiplication by the transposed embedded rotation. -/
theorem rotateRows_eq_mul (rot : GivensRotation ℝ) (hk : k + 2 ≤ n) (a : Mat n n ℝ) :
    rot.rotateRows k (k + 1) a = (Mat.embed n k rot.toMat).transpose.mul a := by
  apply Mat.ext_get
  intro r hr c hc
  rw [Mat.get_embed_transpose_mul hk _ _ hr, rotateRows, Mat.get_ofFn, if_pos ⟨hr, hc⟩]
  by_cases hsecond : r = k + 1
  · subst hsecond
    simp [toMat, Mat.ofRows2, Finset.sum_range_succ]
    ring
  · by_cases hfirst : r = k
    · subst hfirst
      simp [toMat, Mat.ofRows2, Finset.sum_range_succ]
    · rw [if_neg hsecond, if_neg hfirst, if_neg (by omega)]

/-- Rotating rows by one and columns by another rotation is a transformation of the patch. -/
theorem rotate_eq_transformed (left right : GivensRotation ℝ) (hk : k + 2 ≤ n) (a : Mat n n ℝ) :
    right.rotateColumns k (k + 1) (left.rotateRows k (k + 1) a) =
      transformed (Mat.embed n k left.toMat) a (Mat.embed n k right.toMat) := by
  rw [rotateColumns_eq_mul right hk, rotateRows_eq_mul left hk, transformed]

/-- The entries of a block that is rotated from both sides. -/
theorem get_rotate (left right : GivensRotation ℝ) (hk : k + 2 ≤ n) (a : Mat n n ℝ) :
    let turned := right.rotateColumns k (k + 1) (left.rotateRows k (k + 1) a)
    let x0 := left.c * a.get k k + left.s * a.get (k + 1) k
    let x1 := left.c * a.get k (k + 1) + left.s * a.get (k + 1) (k + 1)
    let y0 := left.c * a.get (k + 1) k - left.s * a.get k k
    let y1 := left.c * a.get (k + 1) (k + 1) - left.s * a.get k (k + 1)
    turned.get k k = right.c * x0 + right.s * x1 ∧
      turned.get k (k + 1) = right.c * x1 - right.s * x0 ∧
      turned.get (k + 1) k = right.c * y0 + right.s * y1 ∧
      turned.get (k + 1) (k + 1) = right.c * y1 - right.s * y0 := by
  have hfirst : k < n := by omega
  have hsecond : k + 1 < n := by omega
  simp [rotateColumns, rotateRows, hfirst, hsecond]

/-- The entries of a block of order two that is turned by the rotation from both sides. -/
def turns (rot : GivensRotation ℝ) (a b c d a' b' c' d' : ℝ) : Prop :=
  a' = rot.c * (rot.c * a + rot.s * c) + rot.s * (rot.c * b + rot.s * d) ∧
    b' = rot.c * (rot.c * b + rot.s * d) - rot.s * (rot.c * a + rot.s * c) ∧
    c' = rot.c * (rot.c * c - rot.s * a) + rot.s * (rot.c * d - rot.s * b) ∧
    d' = rot.c * (rot.c * d - rot.s * b) - rot.s * (rot.c * c - rot.s * a)

/-- Turning a block keeps its trace. -/
theorem turns.trace {rot : GivensRotation ℝ} (hrot : rot.IsRotation) {a b c d a' b' c' d' : ℝ}
    (h : rot.turns a b c d a' b' c' d') : a' + d' = a + d := by
  obtain ⟨rfl, rfl, rfl, rfl⟩ := h
  rw [IsRotation] at hrot
  linear_combination (a + d) * hrot

/-- Turning a block keeps its determinant. -/
theorem turns.det {rot : GivensRotation ℝ} (hrot : rot.IsRotation) {a b c d a' b' c' d' : ℝ}
    (h : rot.turns a b c d a' b' c' d') : a' * d' - b' * c' = a * d - b * c := by
  obtain ⟨rfl, rfl, rfl, rfl⟩ := h
  rw [IsRotation] at hrot
  linear_combination (a * d - b * c) * (rot.c ^ 2 + rot.s ^ 2 + 1) * hrot

end GivensRotation

namespace GivensRotation

/-- The rotation that annihilates a component is the direction of the vector. -/
theorem annihilating_spec (f g : ℝ) :
    (annihilating f g).1.IsRotation ∧
      f = (annihilating f g).1.c * (annihilating f g).2 ∧
      g = (annihilating f g).1.s * (annihilating f g).2 := by
  by_cases hg : g = 0
  · simp [annihilating, hg, IsRotation]
  by_cases hf : f = 0
  · have hdir : annihilating f g = (⟨0, Scalar.sign g⟩, |g|) := by simp [annihilating, hg, hf]
    rw [hdir, IsRotation, sign_real, hf]
    refine ⟨by split <;> norm_num, by rw [zero_mul], ?_⟩
    split
    · rw [one_mul, abs_of_nonneg ‹_›]
    · rw [neg_one_mul, abs_of_neg (not_le.mp ‹_›), neg_neg]
  · set scale : ℝ := max |f| |g| with hscale
    set r : ℝ := scale * √(f / scale * (f / scale) + g / scale * (g / scale)) with hr
    have hdir : annihilating f g = (⟨f / r, g / r⟩, r) := by
      simp [annihilating, hg, hf, hr, hscale]
    have hscalePos : 0 < scale := lt_max_of_lt_left (abs_pos.mpr hf)
    have hsum :
        f / scale * (f / scale) + g / scale * (g / scale) = (f ^ 2 + g ^ 2) / scale ^ 2 := by
      field_simp
    have hsq : r ^ 2 = f ^ 2 + g ^ 2 := by
      rw [hr, mul_pow, hsum, Real.sq_sqrt (by positivity)]
      field_simp
    have hne : r ≠ 0 := by
      intro hzero
      rw [hzero] at hsq
      have : 0 < f ^ 2 := by positivity
      nlinarith [sq_nonneg g]
    rw [hdir, IsRotation]
    refine ⟨?_, (div_mul_cancel₀ f hne).symm, (div_mul_cancel₀ g hne).symm⟩
    rw [div_pow, div_pow, ← add_div, ← hsq, div_self (pow_ne_zero 2 hne)]

end GivensRotation

namespace StandardBlock

open GivensRotation

/-- Bringing two numbers into range multiplies both by one positive factor. -/
theorem rescale_eq (fuel : Nat) (sigma temp : ℝ) :
    ∃ factor : ℝ, 0 < factor ∧ rescale fuel sigma temp = (factor * sigma, factor * temp) := by
  have hlow : 0 < (rescaleLow : ℝ) := Real.sqrt_pos.mpr safeMin_pos
  have hhigh : 0 < (rescaleHigh : ℝ) := div_pos one_pos hlow
  induction fuel generalizing sigma temp with
  | zero => exact ⟨1, one_pos, by simp [rescale]⟩
  | succ fuel ih =>
    rw [rescale]
    split
    · obtain ⟨factor, hpos, heq⟩ := ih (sigma * rescaleLow) (temp * rescaleLow)
      exact ⟨factor * rescaleLow, by positivity, by rw [heq, Prod.mk.injEq]; constructor <;> ring⟩
    · split
      · obtain ⟨factor, hpos, heq⟩ := ih (sigma * rescaleHigh) (temp * rescaleHigh)
        refine ⟨factor * rescaleHigh, by positivity, ?_⟩
        rw [heq, Prod.mk.injEq]
        constructor <;> ring
      · exact ⟨1, one_pos, by simp⟩

/-- Cosine and sine of half the angle between the abscissa and a point. -/
theorem half_angle_rotation {sigma temp : ℝ} (h : 0 < sigma ^ 2 + temp ^ 2) :
    let len := √(sigma ^ 2 + temp ^ 2)
    let cs := √(1 / 2 * (1 + |sigma| / len))
    let sn := -(temp / (2 * len * cs)) * Scalar.sign sigma
    cs ^ 2 + sn ^ 2 = 1 ∧ temp * (cs ^ 2 - sn ^ 2) + 2 * sigma * (cs * sn) = 0 := by
  intro len cs sn
  have hpos : 0 < len := Real.sqrt_pos.mpr h
  have hsq : len ^ 2 = sigma ^ 2 + temp ^ 2 := Real.sq_sqrt h.le
  have hcsSq : cs ^ 2 = 1 / 2 * (1 + |sigma| / len) := Real.sq_sqrt (by positivity)
  have hcsPos : 0 < cs := Real.sqrt_pos.mpr (by positivity)
  have hcross : cs * sn = -(temp * Scalar.sign sigma) / (2 * len) := by
    simp only [sn]
    field_simp
  have hsnSq : sn ^ 2 = 1 / 2 * (1 - |sigma| / len) := by
    have habs : |sigma| ^ 2 = sigma ^ 2 := sq_abs sigma
    have hne : 1 + |sigma| / len ≠ 0 := by positivity
    simp only [sn]
    rw [mul_pow, sign_sq, neg_sq, div_pow, mul_pow, hcsSq]
    field_simp
    rw [show temp ^ 2 = len ^ 2 - |sigma| ^ 2 by rw [habs, hsq]; ring]
    ring
  constructor
  · rw [hcsSq, hsnSq]
    ring
  · rw [hcsSq, hsnSq, hcross]
    field_simp
    linear_combination (-2 * temp) * mul_sign sigma

/-- The rotation that makes the diagonal entries equal turns by half the angle between the abscissa
and the point whose coordinates are the sum of the off-diagonal and the difference of the diagonal
entries. -/
theorem equalized_rotation {a b c d : ℝ} (h : ¬(b + c = 0 ∧ a - d = 0)) :
    let rot := (equalized a b c d).rotation
    rot.IsRotation ∧ (a - d) * (rot.c ^ 2 - rot.s ^ 2) + 2 * (b + c) * (rot.c * rot.s) = 0 := by
  obtain ⟨factor, hfactor, hscaled⟩ := rescale_eq 21 (b + c) (a - d)
  set len : ℝ := √((b + c) ^ 2 + (a - d) ^ 2) with hlen
  set cs : ℝ := √(1 / 2 * (1 + |b + c| / len)) with hcs
  have hsum : 0 < (b + c) ^ 2 + (a - d) ^ 2 := by
    rcases not_and_or.mp h with h | h <;> positivity
  have hpos : 0 < len := Real.sqrt_pos.mpr hsum
  have hcsPos : 0 < cs := Real.sqrt_pos.mpr (by positivity)
  have hscaledLen : √((factor * (b + c)) ^ 2 + (factor * (a - d)) ^ 2) = factor * len := by
    rw [mul_pow, mul_pow, ← mul_add, Real.sqrt_mul (sq_nonneg factor), Real.sqrt_sq hfactor.le]
  have hquot : |factor * (b + c)| / (factor * len) = |b + c| / len := by
    rw [abs_mul, abs_of_pos hfactor]
    field_simp
  have htangent : 1 / 2 * (factor * (a - d)) / (factor * len * cs) = (a - d) / (2 * len * cs) := by
    field_simp
  have hrot : (equalized a b c d).rotation =
      ⟨cs, -((a - d) / (2 * len * cs)) * Scalar.sign (b + c)⟩ := by
    rw [← sign_mul_of_pos hfactor (b + c)]
    simp only [equalized, hscaled, half_real, hypot_real, abs_real, sqrt_real, hscaledLen, hquot]
    rw [← hcs, htangent, sign_real, copySign_real, abs_one]
  rw [hrot]
  exact half_angle_rotation hsum

/-- Making the diagonal entries equal is a similarity by a rotation, and they are equal. -/
theorem equalized_turns {a b c d : ℝ} (h : ¬(b + c = 0 ∧ a - d = 0)) :
    let e := equalized a b c d
    e.rotation.IsRotation ∧ e.rotation.turns a b c d e.a e.b e.c e.d ∧ e.a = e.d := by
  obtain ⟨hrot, hdiag⟩ := equalized_rotation h
  refine ⟨hrot, ⟨?_, ?_, ?_, ?_⟩, ?_⟩
  · simp only [equalized]
    ring
  · simp only [equalized]
    ring
  · simp only [equalized]
    ring
  · simp only [equalized]
    ring
  · rw [← sub_eq_zero, ← hdiag]
    simp only [equalized]
    ring

/-- Two numbers that are not zero have different signs exactly if their product is negative. -/
theorem sign_ne_sign_iff {b c : ℝ} (hb : b ≠ 0) (hc : c ≠ 0) :
    (Scalar.sign b : ℝ) ≠ Scalar.sign c ↔ b * c < 0 := by
  rw [sign_real, sign_real, mul_neg_iff]
  rcases lt_or_gt_of_ne hb with hb | hb <;> rcases lt_or_gt_of_ne hc with hc | hc <;>
    simp [hb, hc, hb.le, hc.le, hb.not_ge, hc.not_ge, hb.not_gt, hc.not_gt] <;> norm_num

/-- Settling keeps a block with equal diagonal entries whose off-diagonal entries have opposite
sign, and leaves no pair in any other. -/
theorem settle_eq_self_or {e : StandardBlock ℝ} (hdiag : e.a = e.d) :
    (settle e = e ∧ e.b * e.c < 0) ∨ ((settle e).holdsPair = false ∧ 0 ≤ e.b * e.c) := by
  obtain ⟨a, b, c, d, rot⟩ := e
  obtain rfl : a = d := hdiag
  by_cases hc : c = 0
  · right
    simp [settle, holdsPair, hc]
  · by_cases hb : b = 0
    · right
      simp [settle, holdsPair, hc, hb]
    · by_cases hsign : (Scalar.sign b : ℝ) = Scalar.sign c
      · right
        refine ⟨by simp [settle, holdsPair, hc, hb, hsign], ?_⟩
        exact not_lt.mp fun hneg => (sign_ne_sign_iff hb hc).mpr hneg hsign
      · left
        have hmean : 2⁻¹ * (a + a) = a := by ring
        exact ⟨by simp [settle, hc, hb, hsign, hmean], (sign_ne_sign_iff hb hc).mp hsign⟩

/-- A standardized block that holds a pair is similar to the original one by a rotation. -/
def IsStandardOf (e : StandardBlock ℝ) (a b c d : ℝ) : Prop :=
  e.rotation.IsRotation ∧ e.rotation.turns a b c d e.a e.b e.c e.d ∧ e.a = e.d ∧ e.b * e.c < 0

/-- An equalized block that is settled is a similar block with a pair, or there is no pair. -/
theorem settle_equalized_cases {a b c d : ℝ} (h : ¬(b + c = 0 ∧ a - d = 0)) :
    let e := settle (equalized a b c d)
    (e.IsStandardOf a b c d ∧ e.holdsPair = true) ∨
      (e.holdsPair = false ∧ conjugatePair? (a + d) (a * d - b * c) = none) := by
  intro e
  obtain ⟨hrot, hturns, hdiag⟩ := equalized_turns h
  rcases settle_eq_self_or hdiag with ⟨hself, hneg⟩ | ⟨hnone, hnonneg⟩
  · left
    rw [show e = equalized a b c d from hself]
    refine ⟨⟨hrot, hturns, hdiag, hneg⟩, ?_⟩
    have hcne : (equalized a b c d).c ≠ 0 := right_ne_zero_of_mul hneg.ne
    simp [holdsPair, hcne]
  · right
    refine ⟨hnone, conjugatePair?_eq_none ?_⟩
    have htrace := hturns.trace hrot
    have hdet := hturns.det hrot
    set equal := equalized a b c d
    have hdisc : (a - d) ^ 2 + 4 * (b * c) = 4 * (equal.b * equal.c) := by
      rw [hdiag] at htrace hdet
      linear_combination (-(2 * equal.d + (a + d))) * htrace + 4 * hdet
    rw [hdisc]
    positivity

end StandardBlock

open StandardBlock GivensRotation

/-- The larger magnitude times the smaller one with both signs is the product. -/
theorem larger_mul_smaller (b c : ℝ) :
    max |b| |c| * (min |b| |c| * Scalar.sign b * Scalar.sign c) = b * c := by
  have habs : max |b| |c| * min |b| |c| = |b| * |c| := max_mul_min |b| |c|
  calc max |b| |c| * (min |b| |c| * Scalar.sign b * Scalar.sign c)
      = max |b| |c| * min |b| |c| * Scalar.sign b * Scalar.sign c := by ring
    _ = (|b| * Scalar.sign b) * (|c| * Scalar.sign c) := by
        rw [habs]
        ring
    _ = b * c := by rw [abs_mul_sign, abs_mul_sign]

/-- Scaling divides the quarter of the discriminant by a positive number. -/
theorem scaledDiscriminant_mul_scale (p : ℝ) {b : ℝ} (hb : b ≠ 0) (c : ℝ) :
    let larger := max |b| |c|
    let smaller := min |b| |c| * Scalar.sign b * Scalar.sign c
    let scale := max |p| larger
    0 < scale ∧ (p / scale * p + larger / scale * smaller) * scale = p ^ 2 + b * c := by
  intro larger smaller scale
  have hscale : 0 < scale := lt_max_of_lt_right (lt_max_of_lt_left (abs_pos.mpr hb))
  have hproduct : larger * smaller = b * c := larger_mul_smaller b c
  refine ⟨hscale, ?_⟩
  rw [← hproduct]
  field_simp

/-- A block with no zero beside its diagonal that is not in standard form already is split if its
scaled discriminant is large enough, and else gets equal diagonal entries. -/
theorem standardize_eq {a b c d : ℝ} (hb : b ≠ 0) (hc : c ≠ 0)
    (hequal : ¬(a - d = 0 ∧ (Scalar.sign b : ℝ) ≠ Scalar.sign c)) :
    let p := 1 / 2 * (a - d)
    let larger := max |b| |c|
    let smaller := min |b| |c| * Scalar.sign b * Scalar.sign c
    let scale := max |p| larger
    let z := p / scale * p + larger / scale * smaller
    standardize a b c d =
      if 4 * epsilon ≤ z then splitReal b c d p scale larger smaller z
      else settle (equalized a b c d) := by
  intro p larger smaller scale z
  have hequal' : ¬(a - d = 0 ∧ ¬(Scalar.sign b : ℝ) = Scalar.sign c) := hequal
  simp only [standardize, hc, hb, beq_real, bne_real, decide_false, Bool.false_eq_true,
    if_false, half_real, four_real, maxNum_real, minNum_real, abs_real, Bool.and_eq_true,
    decide_eq_true_eq, ne_eq, hequal']
  rfl

/-- A block that is not in standard form already has something to equalize. -/
theorem not_equalized {a b c d : ℝ} (hb : b ≠ 0) (hc : c ≠ 0)
    (hequal : ¬(a - d = 0 ∧ (Scalar.sign b : ℝ) ≠ Scalar.sign c)) : ¬(b + c = 0 ∧ a - d = 0) := by
  rintro ⟨hsum, hdiff⟩
  refine hequal ⟨hdiff, (sign_ne_sign_iff hb hc).mpr ?_⟩
  rw [eq_neg_of_add_eq_zero_right hsum]
  nlinarith [mul_self_pos.mpr hb]

/-- Standardizing finds a pair exactly in the blocks whose eigenvalues are not real, and is then a
similarity by a rotation. -/
theorem standardize_cases (a b c d : ℝ) :
    ((standardize a b c d).IsStandardOf a b c d ∧ (standardize a b c d).holdsPair = true) ∨
      ((standardize a b c d).holdsPair = false ∧
        conjugatePair? (a + d) (a * d - b * c) = none) := by
  by_cases hc : c = 0
  · right
    refine ⟨by simp [standardize, holdsPair, hc], conjugatePair?_eq_none ?_⟩
    rw [hc]
    nlinarith [sq_nonneg (a - d)]
  by_cases hb : b = 0
  · right
    refine ⟨by simp [standardize, holdsPair, hc, hb], conjugatePair?_eq_none ?_⟩
    rw [hb]
    nlinarith [sq_nonneg (a - d)]
  by_cases hequal : a - d = 0 ∧ (Scalar.sign b : ℝ) ≠ Scalar.sign c
  · left
    obtain ⟨hdiag, hsign⟩ := hequal
    have hstd : standardize a b c d = ⟨a, b, c, d, .identity⟩ := by
      simp [standardize, hc, hb, hdiag, hsign]
    rw [hstd]
    refine ⟨⟨?_, ?_, ?_, ?_⟩, ?_⟩
    · simp [IsRotation, GivensRotation.identity]
    · simp [turns, GivensRotation.identity]
    · exact sub_eq_zero.mp hdiag
    · exact (sign_ne_sign_iff hb hc).mp hsign
    · simp [holdsPair, hc]
  · set p : ℝ := 1 / 2 * (a - d) with hp
    set larger : ℝ := max |b| |c|
    set smaller : ℝ := min |b| |c| * Scalar.sign b * Scalar.sign c
    set scale : ℝ := max |p| larger
    set z : ℝ := p / scale * p + larger / scale * smaller
    have hstd : standardize a b c d =
        if 4 * epsilon ≤ z then splitReal b c d p scale larger smaller z
        else settle (equalized a b c d) := standardize_eq hb hc hequal
    rw [hstd]
    split
    · rename_i hsplit
      right
      obtain ⟨hscalePos, hzScale⟩ : 0 < scale ∧ z * scale = p ^ 2 + b * c :=
        scaledDiscriminant_mul_scale p hb c
      have hzPos : 0 < z := (mul_pos four_pos epsilon_pos).trans_le hsplit
      have hdisc : 0 < p ^ 2 + b * c := hzScale ▸ mul_pos hzPos hscalePos
      refine ⟨by simp [splitReal, holdsPair], conjugatePair?_eq_none ?_⟩
      rw [hp] at hdisc
      nlinarith
    · exact settle_equalized_cases (not_equalized hb hc hequal)

/-- Half the angle of a point turns the point onto the abscissa. -/
theorem half_angle_turn (x y : ℝ) :
    let theta := 1 / 2 * Complex.arg ⟨x, y⟩
    Real.cos theta * Real.sin theta * x =
      1 / 2 * y * (Real.cos theta ^ 2 - Real.sin theta ^ 2) := by
  intro theta
  have hdouble : Complex.arg ⟨x, y⟩ = 2 * theta := by ring
  have hcos : Real.cos (Complex.arg ⟨x, y⟩) = Real.cos theta ^ 2 - Real.sin theta ^ 2 := by
    rw [hdouble, Real.cos_two_mul']
  have hsin : Real.sin (Complex.arg ⟨x, y⟩) = 2 * Real.sin theta * Real.cos theta := by
    rw [hdouble, Real.sin_two_mul]
  by_cases hzero : (⟨x, y⟩ : ℂ) = 0
  · obtain ⟨rfl, rfl⟩ : x = 0 ∧ y = 0 := by simpa [Complex.ext_iff] using hzero
    ring
  · have hnorm : ‖(⟨x, y⟩ : ℂ)‖ ≠ 0 := norm_ne_zero_iff.mpr hzero
    rw [Complex.cos_arg hzero, div_eq_iff hnorm] at hcos
    rw [Complex.sin_arg, div_eq_iff hnorm] at hsin
    linear_combination Real.cos theta * Real.sin theta * hcos -
      1 / 2 * (Real.cos theta ^ 2 - Real.sin theta ^ 2) * hsin

/-- The rotation that turns the first of two orthogonal columns, or the second one if the first is
zero, onto its axis turns both of them there. -/
theorem turn_orthogonal_columns {x0 y0 x1 y1 : ℝ} (horth : x0 * x1 + y0 * y1 = 0) :
    let n0 := √(x0 ^ 2 + y0 ^ 2)
    let n1 := √(x1 ^ 2 + y1 ^ 2)
    let rot : GivensRotation ℝ :=
      if 0 < n0 then ⟨x0 / n0, y0 / n0⟩ else if 0 < n1 then ⟨y1 / n1, -x1 / n1⟩ else .identity
    rot.IsRotation ∧ rot.c * x1 + rot.s * y1 = 0 ∧ rot.c * y0 - rot.s * x0 = 0 := by
  intro n0 n1 rot
  have hvanish {x y : ℝ} (h : ¬0 < √(x ^ 2 + y ^ 2)) : x = 0 ∧ y = 0 := by
    have hsum : x ^ 2 + y ^ 2 ≤ 0 := Real.sqrt_eq_zero'.mp
      (le_antisymm (not_lt.mp h) (Real.sqrt_nonneg _))
    constructor <;> nlinarith [sq_nonneg x, sq_nonneg y]
  have hn0 : n0 ^ 2 = x0 ^ 2 + y0 ^ 2 := Real.sq_sqrt (by positivity)
  have hn1 : n1 ^ 2 = x1 ^ 2 + y1 ^ 2 := Real.sq_sqrt (by positivity)
  by_cases hpos0 : 0 < n0
  · have hrot : rot = ⟨x0 / n0, y0 / n0⟩ := if_pos hpos0
    rw [hrot, IsRotation]
    refine ⟨?_, ?_, by ring⟩
    · field_simp
      exact hn0.symm
    · field_simp
      rw [horth, mul_zero]
  · obtain ⟨hx0, hy0⟩ := hvanish hpos0
    by_cases hpos1 : 0 < n1
    · have hrot : rot = ⟨y1 / n1, -x1 / n1⟩ := (if_neg hpos0).trans (if_pos hpos1)
      rw [hrot, IsRotation, hx0, hy0]
      refine ⟨?_, by ring, by ring⟩
      field_simp
      rw [hn1]
      ring
    · obtain ⟨hx1, hy1⟩ := hvanish hpos1
      have hrot : rot = .identity := (if_neg hpos0).trans (if_neg hpos1)
      rw [hrot, IsRotation, hx0, hy0, hx1, hy1]
      simp [GivensRotation.identity]

/-- Diagonalizing turns a block from both sides by rotations, exactly. -/
theorem diagonalize_spec (a b c d : ℝ) :
    let e := diagonalize a b c d
    let x0 := e.right.c * a + e.right.s * b
    let y0 := e.right.c * c + e.right.s * d
    let x1 := e.right.c * b - e.right.s * a
    let y1 := e.right.c * d - e.right.s * c
    e.left.IsRotation ∧ e.right.IsRotation ∧
      e.left.c * x0 + e.left.s * y0 = e.d0 ∧ e.left.c * x1 + e.left.s * y1 = 0 ∧
      e.left.c * y0 - e.left.s * x0 = 0 ∧ e.left.c * y1 - e.left.s * x1 = e.d1 := by
  intro e x0 y0 x1 y1
  have hright : e.right.IsRotation := by
    rw [IsRotation, add_comm]
    exact Real.sin_sq_add_cos_sq _
  -- The columns of the block turned from the right are orthogonal.
  have horth : x0 * x1 + y0 * y1 = 0 := by
    have hturn : e.right.c * e.right.s * (a * a + c * c - (b * b + d * d)) =
        1 / 2 * (2 * (a * b + c * d)) * (e.right.c ^ 2 - e.right.s ^ 2) := by
      have h := half_angle_turn (a * a + c * c - (b * b + d * d)) (2 * (a * b + c * d))
      simpa [e, diagonalize] using h
    linear_combination (-1) * hturn
  have hx1 : -e.right.s * a + e.right.c * b = x1 := by ring
  have hy1 : -e.right.s * c + e.right.c * d = y1 := by ring
  have hd0 : e.d0 = e.left.c * x0 + e.left.s * y0 := rfl
  have hd1 : e.d1 = -e.left.s * (-e.right.s * a + e.right.c * b) +
      e.left.c * (-e.right.s * c + e.right.c * d) := rfl
  have horth' :
      x0 * (-e.right.s * a + e.right.c * b) + y0 * (-e.right.s * c + e.right.c * d) = 0 := by
    rw [hx1, hy1, horth]
  have hleft : e.left.IsRotation ∧
      e.left.c * (-e.right.s * a + e.right.c * b) +
        e.left.s * (-e.right.s * c + e.right.c * d) = 0 ∧
      e.left.c * y0 - e.left.s * x0 = 0 :=
    turn_orthogonal_columns horth'
  rw [hx1, hy1] at hleft hd1
  exact ⟨hleft.1, hright, hd0.symm, hleft.2.1, hleft.2.2, by rw [hd1]; ring⟩

end SchurForm
