import SchurForm.Exchange.Pencil
import SchurForm.Exchange.Standard
import SchurForm.Proofs.BoundedSolution

/-!
# Sylvester equations of moderate patches

The coefficients of the Sylvester equations of a patch are the entries of its diagonal blocks, and
differences of them in the standard case. If no entry of the patch exceeds one power of two and an
entry of a block is not below another one, the solution is bounded: the exponent of its bound grows
with the distance of the two powers, with the order of the equations and with the number of
refinement steps.
-/

namespace SchurForm

open Scalar Binary64

variable [Angles] {m p q : Nat} {e : ℤ} {k j : ℕ}

namespace Mat

/-- No entry exceeds `2 ^ k` in magnitude, and none is a NaN. -/
def AtMost (k : ℕ) (a : Mat m m Float) : Prop :=
  ∀ i < m, ∀ c < m, Scalar.abs (a.get i c) ≤ powerOfTwo k

instance (k : ℕ) (a : Mat m m Float) : Decidable (a.AtMost k) :=
  inferInstanceAs (Decidable (∀ i < m, ∀ c < m, Scalar.abs (a.get i c) ≤ powerOfTwo k))

/-- Comparisons with a power of two bound the entries. -/
theorem AtMost.bounded {a : Mat m m Float} (ha : a.AtMost k) (hk : k ≤ 1022) : a.Bounded k := by
  intro i c
  by_cases hin : i < m ∧ c < m
  · exact within_of_abs_le (by omega) (by omega) (ha i hin.1 c hin.2)
  · rcases Nat.lt_or_ge i m with hi | hi
    · rw [a.get_of_cols_le i (by omega)]
      exact within_zero_two_zpow _
    · rw [a.get_of_rows_le hi]
      exact within_zero_two_zpow _

/-- An entry in one of the two diagonal blocks is at least `2 ^ (-j)` in magnitude. -/
def LargeInBlock (p j : ℕ) (a : Mat m m Float) (i c : Nat) : Prop :=
  i < m ∧ c < m ∧ (i < p ↔ c < p) ∧ powerOfTwo (-j) ≤ Scalar.abs (a.get i c)

end Mat

section Coupling

variable {x : Float}

/-- What compares with a power of two from above is as large. -/
theorem le_of_powerOfTwo_le (hj : j ≤ 490) (hx : x.isFinite = true)
    (hle : powerOfTwo (-j) ≤ Scalar.abs x) : (2 : ℝ) ^ (-j : ℤ) ≤ |toReal x| := by
  have hpower := isFinite_powerOfTwo (e := -j) (by omega) (by omega)
  have hcompare := (le_iff_toReal hpower ((isFinite_abs_iff x).trans hx)).mp hle
  rwa [toReal_powerOfTwo (by omega) (by omega), toReal_abs] at hcompare

/-- The coefficients of the upper block are its entries and zeros. -/
theorem leftCoefficient_within {a : Mat p p Float} (ha : a.Bounded e) (i r : Nat) :
    Within (2 ^ e) (leftCoefficient a i r) := by
  unfold leftCoefficient
  split
  · exact ha _ _
  · exact within_zero_two_zpow e

/-- The coefficients of the lower block are its entries and zeros. -/
theorem rightCoefficient_within {a : Mat q q Float} (ha : a.Bounded e) (i r : Nat) :
    Within (2 ^ e) (rightCoefficient a p i r) := by
  unfold rightCoefficient
  split
  · exact ha _ _
  · exact within_zero_two_zpow e

/-- Stacking the columns of a matrix keeps their bound. -/
theorem stackColumns_bounded {a : Mat p q Float} (ha : a.Bounded e) : (stackColumns a).Bounded e :=
  Vec.bounded_ofFn fun _ _ => ha _ _

/-- A matrix cut from a vector keeps the bound of the vector. -/
theorem unstackColumns_bounded {n : Nat} {v : Vec n Float} (hv : v.Bounded e) (offset : Nat) :
    (unstackColumns v offset : Mat p q Float).Bounded e :=
  Mat.bounded_ofFn fun _ _ _ _ => hv _

/-- An entry of the upper block is the coefficient of an unknown of the first column in an equation
of the first column. -/
theorem leftCoefficient_block (d : Mat (p + q) (p + q) Float) {i c : Nat} (hi : i < p)
    (hc : c < p) : leftCoefficient (d.block 0 0 : Mat p p Float) i c = d.get i c := by
  rw [leftCoefficient, Nat.div_eq_of_lt hi, Nat.div_eq_of_lt hc, if_pos rfl, Nat.mod_eq_of_lt hi,
    Nat.mod_eq_of_lt hc, Mat.block, Mat.get_ofFn, if_pos ⟨hi, hc⟩, Nat.zero_add, Nat.zero_add]

/-- An entry of the lower block is the coefficient of an unknown of the first row in an equation of
the first row. -/
theorem rightCoefficient_block (d : Mat (p + q) (p + q) Float) (hp : 0 < p) {i c : Nat} (hi : i < q)
    (hc : c < q) :
    rightCoefficient (d.block p p : Mat q q Float) p (c * p) (i * p) = d.get (p + i) (p + c) := by
  rw [rightCoefficient, Nat.mul_mod_left, Nat.mul_mod_left, if_pos rfl, Nat.mul_div_cancel _ hp,
    Nat.mul_div_cancel _ hp, Mat.block, Mat.get_ofFn, if_pos ⟨hi, hc⟩]

/-- The exponents of a bound leave room for the solution and its refinement. -/
def HasRoom (n steps k j : ℕ) : Prop :=
  k ≤ 400 ∧ k + j + refinementGrowth n * (steps + 1) ≤ 490

instance (n steps k j : ℕ) : Decidable (HasRoom n steps k j) :=
  inferInstanceAs (Decidable (_ ∧ _))

/-- The solution of a system of moderate numbers. -/
theorem solveWithRefinement_room {n steps : Nat} {a : Mat n n Float} {rhs : Vec n Float}
    (ha : a.Bounded (k + 1)) (hrhs : rhs.Bounded k) (hn : n ≤ 8) (hroom : HasRoom n steps k j)
    (hlarge : ∃ r c, (2 : ℝ) ^ (-j : ℤ) ≤ |toReal (a.get r c)|) :
    (solveWithRefinement a rhs steps).x.Bounded 490 ∧
      (solveWithRefinement a rhs steps).scale = 1 := by
  have hsum : (k : ℤ) + j + refinementGrowth n * (steps + 1) ≤ 490 := by exact_mod_cast hroom.2
  obtain ⟨hx, hscale⟩ := solveWithRefinement_bounded (k := k) (j := j) ha hrhs hlarge (by omega)
    (by exact_mod_cast hroom.1) hn hsum
  exact ⟨hx.mono hsum, hscale⟩

/-- The solution of the Sylvester equation of a standard patch with moderate entries, of which an
entry beside the diagonal of a block is not too small. -/
theorem couplingSolution_bounded {tol : Tolerance Float} {d : Mat (p + q) (p + q) Float}
    (hd : d.Bounded k) (hp : 0 < p) (hq : 0 < q) (hn : p * q ≤ 8)
    (hroom : HasRoom (p * q) tol.refinements k j) {i c : Nat} (hlarge : d.LargeInBlock p j i c)
    (hne : i ≠ c) :
    (couplingSolution tol d).right.Bounded 490 ∧ (couplingSolution tol d).scale = 1 := by
  obtain ⟨hi, hc, hblock, hsize⟩ := hlarge
  have hj : j ≤ 490 := by have := hroom.2; omega
  have hentry := le_of_powerOfTwo_le hj (hd i c).isFinite hsize
  have hcoefficients : (Mat.ofFn fun r t => leftCoefficient (d.block 0 0 : Mat p p Float) r t -
      rightCoefficient (d.block p p : Mat q q Float) p r t :
        Mat (p * q) (p * q) Float).Bounded (k + 1) :=
    Mat.bounded_ofFn fun r _ t _ => (leftCoefficient_within (hd.block 0 0) r t).sub_two_zpow
      (rightCoefficient_within (hd.block p p) r t) (by omega) (by have := hroom.1; omega)
  obtain ⟨hx, hscale⟩ := solveWithRefinement_room hcoefficients
    (stackColumns_bounded (hd.block 0 p : (d.block 0 p : Mat p q Float).Bounded k)) hn hroom (by
      by_cases hip : i < p
      · have hcp := hblock.mp hip
        have hpq : p ≤ p * q := Nat.le_mul_of_pos_right p hq
        refine ⟨i, c, ?_⟩
        rw [Mat.get_ofFn, if_pos ⟨by omega, by omega⟩, leftCoefficient_block d hip hcp,
          rightCoefficient, if_neg (by rwa [Nat.mod_eq_of_lt hip, Nat.mod_eq_of_lt hcp])]
        exact hentry.trans_eq (abs_toReal_sub_zero (hd i c).isFinite).1.symm
      · obtain ⟨r, rfl⟩ := Nat.exists_eq_add_of_le (Nat.le_of_not_lt hip)
        obtain ⟨t, rfl⟩ := Nat.exists_eq_add_of_le (Nat.le_of_not_lt (mt hblock.mpr hip))
        refine ⟨t * p, r * p, ?_⟩
        have hin {l : Nat} (hl : l < q) : l * p < p * q := by
          rw [mul_comm p q]
          exact Nat.mul_lt_mul_of_pos_right hl hp
        rw [Mat.get_ofFn, if_pos ⟨hin (by omega), hin (by omega)⟩,
          rightCoefficient_block d hp (by omega) (by omega), leftCoefficient,
          if_neg (by rw [Nat.mul_div_cancel _ hp, Nat.mul_div_cancel _ hp]; omega)]
        exact hentry.trans_eq (abs_toReal_sub_zero (hd (p + r) (p + t)).isFinite).2.symm)
  exact ⟨unstackColumns_bounded hx 0, hscale⟩

/-- The coefficients of the coupled equations of a pair of patches. -/
def coupledCoefficients (a b : Mat (p + q) (p + q) Float) :
    Mat (p * q + p * q) (p * q + p * q) Float :=
  Mat.ofFn fun r t =>
    let x11 : Mat p p Float := if r < p * q then a.block 0 0 else b.block 0 0
    let x22 : Mat q q Float := if r < p * q then a.block p p else b.block p p
    if t < p * q then leftCoefficient x11 (r % (p * q)) t
    else 0 - rightCoefficient x22 p (r % (p * q)) (t - p * q)

/-- Every entry of a block is a coefficient of the coupled equations, up to its sign. -/
theorem exists_coupledCoefficient {a b : Mat (p + q) (p + q) Float} (ha : a.Bounded e)
    (hb : b.Bounded e) (hp : 0 < p) (hq : 0 < q) (first : Bool) {i c : Nat} (hi : i < p + q)
    (hc : c < p + q) (hblock : i < p ↔ c < p) :
    ∃ r t, |toReal ((coupledCoefficients a b).get r t)| =
      |toReal ((if first then a else b).get i c)| := by
  obtain ⟨offset, hoffset⟩ : ∃ offset, offset = if first then 0 else p * q := ⟨_, rfl⟩
  have hpq : p ≤ p * q := Nat.le_mul_of_pos_right p hq
  -- the equations of the first matrix come before those of the second one
  have hequation {l : Nat} (hl : l < p * q) : offset + l < p * q + p * q ∧
      (offset + l) % (p * q) = l ∧ (offset + l < p * q ↔ first = true) := by
    cases first
    · rw [hoffset, if_neg Bool.false_ne_true, Nat.add_mod_left, Nat.mod_eq_of_lt hl]
      exact ⟨by omega, rfl, iff_of_false (by omega) Bool.false_ne_true⟩
    · rw [hoffset, if_pos rfl, Nat.zero_add, Nat.mod_eq_of_lt hl]
      exact ⟨by omega, rfl, iff_of_true hl rfl⟩
  have hchoose {l : Nat} (hl : l < p * q) {k n u v : Nat} :
      (if offset + l < p * q then (a.block u v : Mat k n Float) else b.block u v) =
        (if first then a else b).block u v := by
    rw [if_congr (hequation hl).2.2 rfl rfl]
    cases first <;> rfl
  by_cases hip : i < p
  · have hcp := hblock.mp hip
    have hip' : i < p * q := by omega
    refine ⟨offset + i, c, ?_⟩
    rw [coupledCoefficients, Mat.get_ofFn, if_pos ⟨(hequation hip').1, by omega⟩]
    dsimp only
    rw [if_pos (show c < p * q by omega), hchoose hip', (hequation hip').2.1,
      leftCoefficient_block _ hip hcp]
  · obtain ⟨s, rfl⟩ := Nat.exists_eq_add_of_le (Nat.le_of_not_lt hip)
    obtain ⟨t, rfl⟩ := Nat.exists_eq_add_of_le (Nat.le_of_not_lt (mt hblock.mpr hip))
    have hin {l : Nat} (hl : l < q) : l * p < p * q := by
      rw [mul_comm p q]
      exact Nat.mul_lt_mul_of_pos_right hl hp
    have ht := hin (show t < q by omega)
    refine ⟨offset + t * p, p * q + s * p, ?_⟩
    rw [coupledCoefficients, Mat.get_ofFn,
      if_pos ⟨(hequation ht).1, by have := hin (show s < q by omega); omega⟩]
    dsimp only
    rw [if_neg (by omega), hchoose ht, (hequation ht).2.1, Nat.add_sub_cancel_left,
      rightCoefficient_block _ hp (by omega) (by omega)]
    refine (abs_toReal_sub_zero ?_).2
    cases first
    · exact (hb _ _).isFinite
    · exact (ha _ _).isFinite

/-- The solution of the coupled Sylvester equations of a pair of patches with moderate entries, of
which an entry of a block is not too small. -/
theorem coupledSolution_bounded {tol : Tolerance Float} {a b : Mat (p + q) (p + q) Float}
    (ha : a.Bounded k) (hb : b.Bounded k) (hp : 0 < p) (hq : 0 < q) (hn : p * q + p * q ≤ 8)
    (hroom : HasRoom (p * q + p * q) tol.refinements k j) (first : Bool) {i c : Nat}
    (hlarge : (if first then a else b).LargeInBlock p j i c) :
    (coupledSolution tol a b).right.Bounded 490 ∧ (coupledSolution tol a b).left.Bounded 490 ∧
      (coupledSolution tol a b).scale = 1 := by
  obtain ⟨hi, hc, hblock, hsize⟩ := hlarge
  have hj : j ≤ 490 := by have := hroom.2; omega
  have hk : k ≤ 400 := hroom.1
  have hfinite : ((if first then a else b).get i c).isFinite = true := by
    cases first
    · exact (hb i c).isFinite
    · exact (ha i c).isFinite
  obtain ⟨r, t, hcoefficient⟩ := exists_coupledCoefficient ha hb hp hq first hi hc hblock
  have hcoefficients : (coupledCoefficients a b).Bounded (k + 1) := by
    refine Mat.bounded_ofFn fun r _ t _ => ?_
    dsimp only
    split
    · refine (leftCoefficient_within ?_ _ _).mono_two_zpow (i := k) (by omega)
      split
      · exact ha.block 0 0
      · exact hb.block 0 0
    · refine (within_zero_two_zpow k).sub_two_zpow (rightCoefficient_within ?_ _ _) (by omega)
        (by omega)
      split
      · exact ha.block p p
      · exact hb.block p p
  have hrhs : (Vec.ofFn fun r =>
      if r < p * q then (stackColumns (a.block 0 p : Mat p q Float)).get r
      else (stackColumns (b.block 0 p : Mat p q Float)).get (r - p * q) :
        Vec (p * q + p * q) Float).Bounded k := by
    refine Vec.bounded_ofFn fun r _ => ?_
    split
    · exact stackColumns_bounded (ha.block 0 p) _
    · exact stackColumns_bounded (hb.block 0 p) _
  obtain ⟨hx, hscale⟩ := solveWithRefinement_room hcoefficients hrhs hn hroom
    ⟨r, t, hcoefficient ▸ le_of_powerOfTwo_le hj hfinite hsize⟩
  exact ⟨unstackColumns_bounded hx 0, unstackColumns_bounded hx (p * q), hscale⟩

end Coupling

end SchurForm
