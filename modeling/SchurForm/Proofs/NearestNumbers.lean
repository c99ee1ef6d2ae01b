import SchurForm.Proofs.Rounding

/-!
# The number nearest to a quotient

The quotients that round to a number form an interval around it: half a unit of its last place to
either side, less below a power of two, where the unit shrinks, and with the ends only if its
mantissa is even. Rounding a quotient finds the place of its leading bit, rounds to the 53 bits from
there on and carries. That gives the number in whose interval the quotient lies.
-/

namespace SchurForm

namespace Binary64

variable {m m' num den : ℕ} {e : ℤ} {q : ℚ}

/-! ### Scaled quotients -/

/-- A quotient in units of a power is scaled on one side only. -/
theorem cast_div_scaled {b : ℕ} (hb : 0 < b) (num den : ℕ) (u : ℤ) :
    ((num * b ^ (-u).toNat : ℕ) : ℚ) / ((den * b ^ u.toNat : ℕ) : ℚ) =
      num / den / (b : ℚ) ^ u := by
  have hpow : (b : ℚ) ^ u = (b : ℚ) ^ u.toNat / (b : ℚ) ^ (-u).toNat := by
    rw [← zpow_natCast, ← zpow_natCast, ← zpow_sub₀ (by positivity)]
    congr 1
    omega
  rw [hpow]
  push_cast
  field_simp

/-- The powers at most a positive quotient, decided in whole numbers. -/
theorem mul_pow_le_iff {b : ℕ} (hb : 0 < b) (hden : 0 < den) (k : ℤ) :
    den * b ^ k.toNat ≤ num * b ^ (-k).toNat ↔ (b : ℚ) ^ k ≤ num / den := by
  have hscaled : (0 : ℚ) < (den * b ^ k.toNat : ℕ) := by positivity
  have hpow : (0 : ℚ) < (b : ℚ) ^ k := by positivity
  rw [← one_le_div hpow, ← cast_div_scaled hb, one_le_div hscaled, Nat.cast_le]

/-- The logarithms of its parts give the logarithm of a quotient up to one. -/
theorem log_div_eq {b : ℕ} (hb : 1 < b) (hnum : 0 < num) (hden : 0 < den) :
    Int.log b (num / den : ℚ) =
      (let guess : ℤ := Nat.log b num - Nat.log b den
      if den * b ^ guess.toNat ≤ num * b ^ (-guess).toNat then guess else guess - 1) := by
  have hb' : (0 : ℚ) < b := by positivity
  have hq : (0 : ℚ) < num / den := by positivity
  set guess : ℤ := Nat.log b num - Nat.log b den with hguess
  have hbounds : (b : ℚ) ^ (guess - 1) ≤ num / den ∧ (num / den : ℚ) < (b : ℚ) ^ (guess + 1) := by
    have hnum₁ : (b : ℚ) ^ Nat.log b num ≤ num := by
      exact_mod_cast Nat.pow_log_le_self b hnum.ne'
    have hnum₂ : (num : ℚ) < (b : ℚ) ^ (Nat.log b num + 1) := by
      exact_mod_cast Nat.lt_pow_succ_log_self hb num
    have hden₁ : (b : ℚ) ^ Nat.log b den ≤ den := by
      exact_mod_cast Nat.pow_log_le_self b hden.ne'
    have hden₂ : (den : ℚ) < (b : ℚ) ^ (Nat.log b den + 1) := by
      exact_mod_cast Nat.lt_pow_succ_log_self hb den
    constructor
    · calc (b : ℚ) ^ (guess - 1)
          = (b : ℚ) ^ Nat.log b num / (b : ℚ) ^ (Nat.log b den + 1) := by
            rw [← zpow_natCast, ← zpow_natCast, ← zpow_sub₀ hb'.ne']
            congr 1
            omega
        _ ≤ num / den := by gcongr
    · calc (num / den : ℚ) < (b : ℚ) ^ (Nat.log b num + 1) / (b : ℚ) ^ Nat.log b den := by gcongr
        _ = (b : ℚ) ^ (guess + 1) := by
            rw [← zpow_natCast, ← zpow_natCast, ← zpow_sub₀ hb'.ne']
            congr 1
            omega
  have hlow := (Int.zpow_le_iff_le_log hb hq).mp hbounds.1
  have hhigh := (Int.lt_zpow_iff_log_lt hb hq).mp hbounds.2
  simp only [mul_pow_le_iff (by omega : 0 < b) hden, Int.zpow_le_iff_le_log hb hq]
  split_ifs <;> omega

/-- The computed logarithm of a quotient is the integer below its binary logarithm. -/
theorem floorLog2_eq (hnum : 0 < num) (hden : 0 < den) :
    floorLog2 num den = Int.log 2 (num / den : ℚ) := by
  rw [log_div_eq one_lt_two hnum hden, floorLog2, Nat.log2_eq_log_two, Nat.log2_eq_log_two]
  rfl

/-! ### Whole numbers -/

/-- A whole number nearest to the given one; of two such numbers the even one. -/
structure IsNearest (m : ℕ) (q : ℚ) : Prop where
  low : m - 1 / 2 ≤ q
  high : q ≤ m + 1 / 2
  odd : m % 2 = 1 → m - 1 / 2 < q ∧ q < m + 1 / 2

/-- There is only one nearest integer, since ties go to the even one. -/
theorem IsNearest.unique (h : IsNearest m q) (h' : IsNearest m' q) : m = m' := by
  wlog hle : m ≤ m' generalizing m m'
  · exact (this h' h (Nat.le_of_not_le hle)).symm
  have hclose : (m' : ℚ) ≤ m + 1 := by linarith [h.high, h'.low]
  rcases hle.lt_or_eq with hlt | rfl
  · -- the number lies halfway between two neighbours, one of which is odd
    obtain rfl : m' = m + 1 := Nat.le_antisymm (by exact_mod_cast hclose) hlt
    have hlow := h'.low
    push_cast at hlow
    rcases Nat.mod_two_eq_zero_or_one m with heven | hodd
    · have := (h'.odd (by omega)).1
      push_cast at this
      linarith [h.high]
    · linarith [(h.odd hodd).2]
  · rfl

/-- Rounded division gives the nearest integer. -/
theorem isNearest_roundDiv (num : ℕ) (hden : 0 < den) :
    IsNearest (roundDiv num den) (num / den) := by
  have hden' : (0 : ℚ) < den := by exact_mod_cast hden
  obtain ⟨rest, hrest⟩ : ∃ rest : ℚ, rest = (num % den : ℕ) / den := ⟨_, rfl⟩
  have hq : (num / den : ℚ) = (num / den : ℕ) + rest := by
    have hdiv : ((den * (num / den) + num % den : ℕ) : ℚ) = num := by rw [Nat.div_add_mod]
    rw [hrest, ← hdiv]
    push_cast
    field_simp
  have hnonneg : 0 ≤ rest := hrest ▸ by positivity
  have hone : rest < 1 := by
    rw [hrest, div_lt_one hden']
    exact_mod_cast Nat.mod_lt num hden
  have hbelow : 2 * (num % den) < den ↔ rest < 1 / 2 := by
    rw [hrest, div_lt_div_iff₀ hden' two_pos, one_mul, mul_comm]
    exact_mod_cast Iff.rfl
  have habove : den < 2 * (num % den) ↔ 1 / 2 < rest := by
    rw [hrest, div_lt_div_iff₀ two_pos hden', one_mul, mul_comm]
    exact_mod_cast Iff.rfl
  have hsucc : ((num / den + 1 : ℕ) : ℚ) = (num / den : ℕ) + 1 := Nat.cast_succ _
  rw [roundDiv, hq]
  simp only [hbelow, habove]
  split_ifs with hlow hhigh heven
  · exact ⟨by linarith, by linarith, fun _ => ⟨by linarith, by linarith⟩⟩
  · exact ⟨by linarith, by linarith, fun _ => ⟨by linarith, by linarith⟩⟩
  · exact ⟨by linarith, by linarith, fun hodd => absurd heven (by omega)⟩
  · exact ⟨by linarith, by linarith, fun hodd => absurd hodd (by omega)⟩

/-! ### Numbers of the format -/

/-- The quotient rounds to `m * 2 ^ e`. Below a power of two, the next number is half as far away as
above it. -/
structure RoundsTo (m : ℕ) (e : ℤ) (q : ℚ) : Prop where
  nearest : IsNearest m (q / 2 ^ e)
  quarter : m = hiddenBit → minExponent < e → m - 1 / 4 ≤ q / 2 ^ e

/-- The leading bit of a mantissa, which is not stored. -/
theorem hiddenBit_eq : hiddenBit = 2 ^ 52 := rfl

/-- Only a positive number rounds to a number with a positive mantissa. -/
theorem RoundsTo.pos (hm : 0 < m) (h : RoundsTo m e q) : 0 < q := by
  have hpow : (0 : ℚ) < 2 ^ e := by positivity
  suffices hunits : 0 < q / 2 ^ e by simpa [hpow] using hunits
  rcases Nat.lt_or_ge m 2 with hone | htwo
  · obtain rfl : m = 1 := by omega
    have := (h.nearest.odd rfl).1
    push_cast at this
    linarith
  · have : (2 : ℚ) ≤ m := by exact_mod_cast htwo
    linarith [h.nearest.low]

/-- Dividing by half of a power doubles the quotient. -/
theorem div_two_zpow_pred (q : ℚ) (e : ℤ) : q / 2 ^ (e - 1) = 2 * (q / 2 ^ e) := by
  rw [zpow_sub_one₀ two_ne_zero]
  field_simp

/-- The last place of a quotient that rounds to a number is the one of this number, or just below a
power of two the next lower one. -/
theorem RoundsTo.log_cases (hc : Canonical m e) (hm : 0 < m) (h : RoundsTo m e q) :
    max (Int.log 2 q - 52) minExponent = e ∨
      max (Int.log 2 q - 52) minExponent = e - 1 ∧ m = hiddenBit ∧ minExponent < e ∧
        q / 2 ^ (e - 1) < 2 * hiddenBit := by
  obtain ⟨hlt, hge, hnormal⟩ := hc
  have hq := h.pos hm
  have hminimum : minExponent = -1074 := rfl
  have hpow : (0 : ℚ) < 2 ^ e := by positivity
  have hlog : ∀ k : ℤ, (2 : ℚ) ^ k ≤ q / 2 ^ e ↔ k + e ≤ Int.log 2 q := by
    intro k
    rw [le_div_iff₀ hpow, ← zpow_add₀ two_ne_zero]
    exact_mod_cast Int.zpow_le_iff_le_log one_lt_two hq
  have hupper : Int.log 2 q < 53 + e := by
    rw [← not_le, ← hlog, not_le]
    have hmax : (m : ℚ) + 1 ≤ 2 ^ 53 := by exact_mod_cast hlt
    have hnext : ((2 : ℚ) ^ (53 : ℤ)) = 2 ^ 53 := by norm_num
    linarith [h.nearest.high]
  rcases hnormal with hfull | rfl
  · rcases le_or_gt ((2 : ℚ) ^ (52 : ℤ)) (q / 2 ^ e) with habove | hbelow
    · have := (hlog 52).mp habove
      exact .inl (by omega)
    · have hbound : q / 2 ^ e < 2 ^ 52 := by exact_mod_cast hbelow
      obtain rfl : m = hiddenBit := by
        refine hfull.antisymm' (Nat.le_of_lt_succ ?_)
        have : (m : ℚ) < 2 ^ 52 + 1 := by linarith [h.nearest.low]
        exact_mod_cast this
      rcases hge.eq_or_lt with rfl | hgreater
      · exact .inl (by omega)
      · have hquarter := h.quarter rfl hgreater
        have hlower := (hlog 51).mp (by
          have hhalf : (2 : ℚ) ^ (51 : ℤ) = 2 ^ 51 := by norm_num
          have hhidden : (hiddenBit : ℚ) = 2 ^ 52 := by norm_num [hiddenBit_eq]
          linarith)
        have hhigher := mt (hlog 52).mpr hbelow.not_ge
        refine .inr ⟨by omega, rfl, hgreater, ?_⟩
        rw [div_two_zpow_pred, hiddenBit_eq]
        push_cast
        linarith
  · exact .inl (by omega)

/-- A quotient is rounded to the number in whose interval it lies. -/
theorem nearestBits_of_roundsTo {negative : Bool} (hc : Canonical m e) (he : e ≤ 971) (hm : 0 < m)
    (hden : 0 < den) (h : RoundsTo m e (num / den)) :
    nearestBits negative num den = bits negative m e := by
  have hnum : 0 < num := by
    have hpos := h.pos hm
    rw [div_pos_iff_of_pos_right (by exact_mod_cast hden)] at hpos
    exact_mod_cast hpos
  have hrounded : ∀ k : ℤ, IsNearest
      (roundDiv (num * twoPow (-k).toNat) (den * twoPow k.toNat)) (num / den / 2 ^ k) := by
    intro k
    have := isNearest_roundDiv (num * 2 ^ (-k).toNat)
      (Nat.mul_pos hden (Nat.two_pow_pos k.toNat))
    rwa [cast_div_scaled two_pos] at this
  rw [nearestBits, if_neg hnum.ne', floorLog2_eq hnum hden]
  rcases h.log_cases hc hm with hlog | ⟨hlog, rfl, hgreater, hbelow⟩
  · have hmantissa := (hrounded e).unique h.nearest
    have hcarry : decide (2 * hiddenBit ≤ m) = false :=
      decide_eq_false (Nat.not_le.mpr hc.mantissa_lt)
    simp only [hlog, hmantissa, hcarry, Bool.false_eq_true, if_false]
    exact if_neg he.not_gt
  · -- the mantissa is rounded up to the next power of two and carried
    have hquarter := h.quarter rfl hgreater
    have hdouble := div_two_zpow_pred (num / den) e
    have hmantissa := (hrounded (e - 1)).unique
      (⟨by push_cast; linarith, by push_cast; linarith, fun hodd => absurd hodd (by omega)⟩ :
        IsNearest (2 * hiddenBit) _)
    simp only [hlog, hmantissa, le_refl, decide_true, if_true, sub_add_cancel]
    exact if_neg he.not_gt

end Binary64

end SchurForm
