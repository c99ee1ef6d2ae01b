import SchurForm.Decimal.Shortest
import SchurForm.Proofs.NearestNumbers

/-!
# The shortest digits round to their number

The grid of decimals with seventeen digits is finer than the interval of those that round to a
number, so the search comes upon a grid with a point in the interval at the latest there. What it
finds lies in the interval, on whichever grid, and dropping zeros does not change it.
-/

namespace SchurForm

namespace Decimal

open Binary64 (Canonical RoundsTo hiddenBit minExponent quotient cast_div_scaled log_div_eq)

variable {m num den scale : ℕ} {e u : ℤ} {d : Decimal}

/-- The number that a decimal stands for. -/
def value (d : Decimal) : ℚ := d.coefficient * 10 ^ d.exponent

/-- A positive decimal has a positive coefficient. -/
theorem coefficient_pos (h : 0 < d.value) : 0 < d.coefficient := by
  refine Nat.pos_of_ne_zero fun hzero => h.ne' ?_
  simp [value, hzero]

/-! ### Magnitudes -/

/-- The number of digits of a positive number is one more than its decimal logarithm. -/
theorem length_toDigits {n : ℕ} (hn : 0 < n) :
    (Nat.toDigits 10 n).length = Nat.log 10 n + 1 := by
  refine eq_of_forall_ge_iff fun k => ?_
  rcases k.eq_zero_or_pos with rfl | hk
  · simp
  · rw [Nat.length_toDigits_le_iff (by norm_num) hk, ← Nat.log_lt_iff_lt_pow (by norm_num) hn.ne',
      Nat.lt_iff_add_one_le]

/-- The computed logarithm of a quotient is the integer below its decimal logarithm. -/
theorem floorLog10_eq (hnum : 0 < num) (hden : 0 < den) :
    floorLog10 num den = Int.log 10 (num / den : ℚ) := by
  have hguess : (Int.ofNat (Nat.toDigits 10 num).length - Int.ofNat (Nat.toDigits 10 den).length) =
      (Nat.log 10 num - Nat.log 10 den : ℤ) := by
    rw [length_toDigits hnum, length_toDigits hden, Int.ofNat_eq_natCast, Int.ofNat_eq_natCast]
    omega
  rw [log_div_eq (by norm_num) hnum hden, floorLog10, hguess]
  rfl

/-- The point stands behind the leading digit. -/
theorem point_eq (hd : 0 < d.coefficient) : d.point = Int.log 10 d.value + 1 := by
  have hvalue : Int.log 10 d.value = Nat.log 10 d.coefficient + d.exponent := by
    have hc : (0 : ℚ) < d.coefficient := by exact_mod_cast hd
    have hpow : (0 : ℚ) < 10 ^ d.exponent := by positivity
    have hpos : 0 < d.value := mul_pos hc hpow
    refine eq_of_forall_le_iff fun k => ?_
    have hshift : ((10 : ℕ) : ℚ) ^ k ≤ d.value ↔
        ((10 : ℕ) : ℚ) ^ (k - d.exponent) ≤ d.coefficient := by
      rw [zpow_sub₀ (by norm_num), div_le_iff₀ (by exact_mod_cast hpow)]
      rfl
    rw [← Int.zpow_le_iff_le_log (by norm_num) hpos, hshift,
      Int.zpow_le_iff_le_log (by norm_num) hc, Int.log_natCast]
    omega
  rw [point, digits, length_toDigits hd, hvalue, Int.ofNat_eq_natCast]
  omega

/-! ### Dropped zeros -/

/-- Dropping zeros at the end keeps the value. -/
theorem value_dropZeros (fuel : ℕ) (d : Decimal) : (dropZeros fuel d).value = d.value := by
  induction fuel generalizing d with
  | zero => rfl
  | succ fuel ih =>
    rw [dropZeros]
    split_ifs with hzero
    · have hc : (d.coefficient : ℚ) = (d.coefficient / 10 : ℕ) * 10 := by
        exact_mod_cast (Nat.div_mul_cancel (Nat.dvd_of_mod_eq_zero hzero.2)).symm
      rw [ih, value, value, hc, zpow_add_one₀ (by norm_num)]
      ring
    · rfl

/-- Without zeros at the end a decimal has the same value. -/
theorem value_stripped (d : Decimal) : d.stripped.value = d.value :=
  value_dropZeros _ d

/-! ### Grids -/

/-- Numerator and denominator give the value of a mantissa and an exponent. -/
theorem cast_quotient (m : ℕ) (e : ℤ) :
    ((quotient m e).1 : ℚ) / (quotient m e).2 = m * 2 ^ e := by
  have hscaled := cast_div_scaled two_pos m 1 (-e)
  rw [neg_neg] at hscaled
  simpa [quotient, twoPow] using hscaled

/-- The quarters of a unit in the last place from a number down to the end of its interval. -/
def quartersBelow (m : ℕ) (e : ℤ) : ℕ := if m = hiddenBit ∧ minExponent < e then 1 else 2

/-- The interval of a number in quarters of a unit in its last place. -/
theorem roundsTo_iff_quarters {q : ℚ} : RoundsTo m e q ↔
    ((4 * m - quartersBelow m e : ℚ) ≤ 4 * (q / 2 ^ e) ∧ 4 * (q / 2 ^ e) ≤ 4 * m + 2) ∧
      (m % 2 = 1 → (4 * m - quartersBelow m e : ℚ) < 4 * (q / 2 ^ e) ∧
        4 * (q / 2 ^ e) < 4 * m + 2) := by
  by_cases hpower : m = hiddenBit ∧ minExponent < e
  · have hodd : ¬m % 2 = 1 := by
      rw [hpower.1]
      decide
    rw [quartersBelow, if_pos hpower, Nat.cast_one]
    refine ⟨fun h => ⟨⟨?_, ?_⟩, fun h' => absurd h' hodd⟩,
      fun ⟨h, _⟩ => ⟨⟨?_, ?_, fun h' => absurd h' hodd⟩, fun _ _ => ?_⟩⟩
    · linarith [h.quarter hpower.1 hpower.2]
    · linarith [h.nearest.high]
    all_goals linarith
  · rw [quartersBelow, if_neg hpower, Nat.cast_ofNat]
    refine ⟨fun h => ⟨⟨?_, ?_⟩, fun hodd => ⟨?_, ?_⟩⟩,
      fun ⟨h, hstrict⟩ => ⟨⟨?_, ?_, fun hodd => ⟨?_, ?_⟩⟩, fun hm he => absurd ⟨hm, he⟩ hpower⟩⟩
    · linarith [h.nearest.low]
    · linarith [h.nearest.high]
    · linarith [(h.nearest.odd hodd).1]
    · linarith [(h.nearest.odd hodd).2]
    · linarith
    · linarith
    · linarith [(hstrict hodd).1]
    · linarith [(hstrict hodd).2]

/-- Everything strictly between the ends of the interval rounds to the number. -/
theorem roundsTo_of_between {q : ℚ} (hlow : (m - quartersBelow m e / 4 : ℚ) < q / 2 ^ e)
    (hhigh : q / 2 ^ e < m + 1 / 2) : RoundsTo m e q :=
  roundsTo_iff_quarters.mpr
    ⟨⟨by linarith, by linarith⟩, fun _ => ⟨by linarith, by linarith⟩⟩

/-- A quotient in quarters of a unit in the last place. -/
theorem cast_eq_quarters (num : ℕ) (hscale : 0 < scale) (e : ℤ) :
    (num : ℚ) = 4 * (num / (scale * (quotient 1 (e - 2)).2 : ℕ) / 2 ^ e) *
      ((quotient 1 (e - 2)).1 * scale : ℕ) := by
  have hden : 0 < (quotient 1 (e - 2)).2 := Nat.two_pow_pos _
  have hunit : ((quotient 1 (e - 2)).1 : ℚ) = 2 ^ e / 4 * (quotient 1 (e - 2)).2 := by
    rw [← div_eq_iff (by positivity), cast_quotient, zpow_sub₀ two_ne_zero]
    norm_num
  push_cast
  rw [hunit]
  field_simp

/-- A quotient is held exactly if it rounds to the number. -/
theorem holds_iff (hm : 0 < m) (hscale : 0 < scale) :
    (roundingInterval m e).holds num scale = true ↔
      RoundsTo m e (num / (scale * (roundingInterval m e).den : ℕ)) := by
  have hnum := cast_eq_quarters num hscale e
  set unit := quotient 1 (e - 2) with hunit
  have hstep : (0 : ℚ) < (unit.1 * scale : ℕ) := by
    exact_mod_cast Nat.mul_pos (Nat.mul_pos one_pos (Nat.two_pow_pos _)) hscale
  have hdef : roundingInterval m e = ⟨(4 * m - quartersBelow m e) * unit.1, 4 * m * unit.1,
      (4 * m + 2) * unit.1, unit.2, m % 2 == 0⟩ := rfl
  rw [roundsTo_iff_quarters, hdef, Interval.holds]
  dsimp only
  generalize (num / (scale * unit.2 : ℕ) / 2 ^ e : ℚ) = x at hnum
  have hle : ∀ k : ℕ, k * unit.1 * scale ≤ num ↔ (k : ℚ) ≤ 4 * x := by
    intro k
    rw [mul_assoc, ← Nat.cast_le (α := ℚ), hnum, Nat.cast_mul k,
      mul_le_mul_iff_of_pos_right hstep]
  have hge : ∀ k : ℕ, num ≤ k * unit.1 * scale ↔ 4 * x ≤ k := by
    intro k
    rw [mul_assoc, ← Nat.cast_le (α := ℚ), hnum, Nat.cast_mul k,
      mul_le_mul_iff_of_pos_right hstep]
  have hlt : ∀ k : ℕ, k * unit.1 * scale < num ↔ (k : ℚ) < 4 * x := by
    intro k
    rw [← not_le, hge, not_le]
  have hgt : ∀ k : ℕ, num < k * unit.1 * scale ↔ 4 * x < k := by
    intro k
    rw [← not_le, hle, not_le]
  have hlow : ((4 * m - quartersBelow m e : ℕ) : ℚ) = 4 * m - quartersBelow m e := by
    rw [Nat.cast_sub (by unfold quartersBelow; split_ifs <;> omega), Nat.cast_mul, Nat.cast_ofNat]
  have hhigh : ((4 * m + 2 : ℕ) : ℚ) = 4 * m + 2 := by push_cast; ring
  simp only [hle, hge, hlt, hgt, hlow, hhigh]
  rcases Nat.mod_two_eq_zero_or_one m with heven | hodd
  · simp [heven]
  · have hopen : (m % 2 == 0) = false := by
      rw [hodd]
      rfl
    rw [hopen, if_neg Bool.false_ne_true, Bool.and_eq_true, decide_eq_true_eq, decide_eq_true_eq]
    exact ⟨fun h => ⟨⟨h.1.le, h.2.le⟩, fun _ => h⟩, fun h => h.2 hodd⟩

/-- A power of ten as a quotient of two whole ones. -/
theorem zpow_eq_div (u : ℤ) : (10 : ℚ) ^ u = tenPow u.toNat / tenPow (-u).toNat := by
  have hscaled := cast_div_scaled (b := 10) (by norm_num) 1 1 (-u)
  simpa [tenPow] using hscaled.symm

/-- The test in whole numbers holds exactly for the decimals that round to the number. -/
theorem holds_grid_iff (hm : 0 < m) (c : ℕ) :
    (roundingInterval m e).holds (c * (tenPow u.toNat * (roundingInterval m e).den))
      (tenPow (-u).toNat) = true ↔ RoundsTo m e (⟨c, u⟩ : Decimal).value := by
  have hden : ((roundingInterval m e).den : ℚ) ≠ 0 := by
    exact_mod_cast (Nat.two_pow_pos _).ne'
  rw [holds_iff hm (tenPow_pos _), value, zpow_eq_div]
  push_cast
  rw [← mul_assoc, mul_div_mul_right _ _ hden, mul_div_assoc]

/-- The lower one of the two neighbours of a number on a grid. -/
def gridFloor (m : ℕ) (e u : ℤ) : ℕ :=
  let i := roundingInterval m e
  (inUnits u i.value i.den).1 / (inUnits u i.value i.den).2

/-- What a grid is hit at rounds to the number. -/
theorem roundsTo_of_onGrid (hm : 0 < m) (h : (roundingInterval m e).onGrid u = some d) :
    RoundsTo m e d.value := by
  rw [Interval.onGrid] at h
  split at h
  · rename_i hfloor
    rw [Bool.and_eq_true] at hfloor
    obtain rfl := Option.some.inj h
    exact (holds_grid_iff hm _).mp hfloor.1
  · split at h
    · rename_i hnext
      obtain rfl := Option.some.inj h
      exact (holds_grid_iff hm _).mp hnext
    · exact absurd h (Option.some_ne_none d).symm

/-- A grid is hit if one of the neighbours of the number on it rounds to the number. -/
theorem isSome_onGrid (hm : 0 < m) (h : RoundsTo m e (⟨gridFloor m e u, u⟩ : Decimal).value ∨
    RoundsTo m e (⟨gridFloor m e u + 1, u⟩ : Decimal).value) :
    ((roundingInterval m e).onGrid u).isSome = true := by
  rw [← holds_grid_iff hm, ← holds_grid_iff hm] at h
  rw [Interval.onGrid]
  split_ifs with hfloor hnext
  · rfl
  · rfl
  · rcases h with h | h
    · refine absurd (Bool.and_eq_true_iff.mpr ⟨h, ?_⟩) hfloor
      rw [Bool.not_eq_true] at hnext
      rw [hnext]
      rfl
    · exact absurd h hnext

/-- The interval of a number is around its value. -/
theorem cast_roundingInterval (m : ℕ) (e : ℤ) :
    ((roundingInterval m e).value : ℚ) / (roundingInterval m e).den = m * 2 ^ e := by
  have hunit := cast_quotient 1 (e - 2)
  calc ((roundingInterval m e).value : ℚ) / (roundingInterval m e).den
      = (4 * m * (quotient 1 (e - 2)).1 : ℕ) / (quotient 1 (e - 2)).2 := rfl
    _ = 4 * m * ((quotient 1 (e - 2)).1 / (quotient 1 (e - 2)).2) := by
        push_cast
        ring
    _ = m * 2 ^ e := by
        rw [hunit, zpow_sub₀ two_ne_zero]
        push_cast
        ring

/-- The number lies between its neighbours on a grid. -/
theorem gridFloor_bounds (m : ℕ) (e u : ℤ) :
    (⟨gridFloor m e u, u⟩ : Decimal).value ≤ m * 2 ^ e ∧
      (m * 2 ^ e : ℚ) < (⟨gridFloor m e u + 1, u⟩ : Decimal).value := by
  have hpow : (0 : ℚ) < 10 ^ u := by positivity
  have hfloor : gridFloor m e u = ⌊(m * 2 ^ e / 10 ^ u : ℚ)⌋₊ := by
    have hscaled := cast_div_scaled (b := 10) (by norm_num) (roundingInterval m e).value
      (roundingInterval m e).den u
    rw [cast_roundingInterval, Nat.cast_ofNat] at hscaled
    rw [← hscaled, Nat.floor_div_eq_div]
    rfl
  rw [value, value, ← le_div_iff₀ hpow, ← div_lt_iff₀ hpow, hfloor, Nat.cast_succ]
  exact ⟨Nat.floor_le (by positivity), Nat.lt_floor_add_one _⟩

/-- The grid of decimals with seventeen digits is finer than the interval around a number. -/
theorem gridStep_lt (hc : Canonical m e) (hm : 0 < m)
    (hu : u = Int.log 10 (m * 2 ^ e : ℚ) - 16) :
    (10 ^ u / 2 ^ e : ℚ) < quartersBelow m e / 4 + 1 / 2 := by
  have hpow : (0 : ℚ) < 2 ^ e := by positivity
  have hpos : (0 : ℚ) < m := by exact_mod_cast hm
  have hfine : (10 ^ u / 2 ^ e : ℚ) * 10 ^ 16 ≤ m := by
    have hlog := Int.zpow_log_le_self (b := 10) (r := (m * 2 ^ e : ℚ)) (by norm_num) (by positivity)
    have hsplit : ((10 : ℕ) : ℚ) ^ Int.log 10 (m * 2 ^ e : ℚ) = 10 ^ u * 10 ^ 16 := by
      rw [← zpow_natCast, ← zpow_add₀ (by norm_num), Nat.cast_ofNat, hu]
      congr 1
      push_cast
      ring
    rw [div_mul_eq_mul_div, div_le_iff₀ hpow, ← hsplit]
    exact hlog
  rw [quartersBelow]
  split_ifs with hpower
  · have : (m : ℚ) = 2 ^ 52 := by exact_mod_cast hpower.1
    push_cast
    linarith
  · have : (m : ℚ) < 2 ^ 53 := by exact_mod_cast hc.mantissa_lt
    push_cast
    linarith

/-- So one of the two neighbours of the number on this grid rounds to it. -/
theorem isSome_onGrid_seventeen (hc : Canonical m e) (hm : 0 < m)
    (hu : u = Int.log 10 (m * 2 ^ e : ℚ) - 16) :
    ((roundingInterval m e).onGrid u).isSome = true := by
  have hpow : (0 : ℚ) < 2 ^ e := by positivity
  have hquarters : (1 : ℚ) ≤ quartersBelow m e := by
    rw [quartersBelow]
    split_ifs <;> norm_num
  have hstep := gridStep_lt hc hm hu
  obtain ⟨hbelow, habove⟩ := gridFloor_bounds m e u
  rw [← div_le_iff₀ hpow] at hbelow
  rw [← lt_div_iff₀ hpow] at habove
  have hnext : (⟨gridFloor m e u + 1, u⟩ : Decimal).value / 2 ^ e =
      (⟨gridFloor m e u, u⟩ : Decimal).value / 2 ^ e + 10 ^ u / 2 ^ e := by
    rw [value, value, Nat.cast_succ]
    ring
  apply isSome_onGrid hm
  rcases lt_or_ge (m - quartersBelow m e / 4 : ℚ)
    ((⟨gridFloor m e u, u⟩ : Decimal).value / 2 ^ e) with hin | hout
  · exact .inl (roundsTo_of_between hin (by linarith))
  · exact .inr (roundsTo_of_between (by linarith) (by linarith))

/-- A decimal that the search finds rounds to the number. -/
theorem roundsTo_of_search (hm : 0 < m) {magnitude : ℤ} {fuel places : ℕ}
    (h : (roundingInterval m e).search magnitude fuel places = some d) : RoundsTo m e d.value := by
  induction fuel generalizing places with
  | zero => exact absurd h (Option.some_ne_none d).symm
  | succ fuel ih =>
    rw [Interval.search] at h
    split at h
    · rename_i hit
      exact roundsTo_of_onGrid hm (hit.trans h)
    · exact ih h

/-- The search finds a decimal if some number of places has one. -/
theorem isSome_search {i : Interval} {magnitude : ℤ} {fuel places k : ℕ} (hk : k < fuel)
    (h : (i.onGrid (magnitude - Int.ofNat (places + k) + 1)).isSome = true) :
    (i.search magnitude fuel places).isSome = true := by
  induction fuel generalizing places k with
  | zero => omega
  | succ fuel ih =>
    rw [Interval.search]
    split
    · rfl
    · rename_i hmiss
      cases k with
      | zero =>
        rw [Nat.add_zero, hmiss] at h
        exact absurd h Bool.false_ne_true
      | succ k =>
        refine ih (k := k) (by omega) ?_
        rwa [Nat.add_assoc, Nat.add_comm 1 k]

/-- The shortest digits round to their number. -/
theorem roundsTo_shortest (hc : Canonical m e) (hm : 0 < m) :
    RoundsTo m e (shortest m e).value := by
  have hvalue : 0 < (roundingInterval m e).value :=
    Nat.mul_pos (by omega) (Nat.mul_pos one_pos (Nat.two_pow_pos _))
  have hden : 0 < (roundingInterval m e).den := Nat.two_pow_pos _
  have hlog : floorLog10 (roundingInterval m e).value (roundingInterval m e).den =
      Int.log 10 (m * 2 ^ e : ℚ) := by
    rw [floorLog10_eq hvalue hden, cast_roundingInterval]
  rw [shortest, hlog]
  split
  · rename_i d hit
    rw [value_stripped]
    exact roundsTo_of_search hm hit
  · rename_i hmiss
    have hseventeen : ((roundingInterval m e).onGrid
        (Int.log 10 (m * 2 ^ e : ℚ) - Int.ofNat (1 + 16) + 1)).isSome = true :=
      isSome_onGrid_seventeen hc hm (sub_add _ 17 1)
    have hsome := isSome_search (by norm_num : 16 < 17) hseventeen
    rw [hmiss] at hsome
    exact absurd hsome Bool.false_ne_true

end Decimal

end SchurForm
