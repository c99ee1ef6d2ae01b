import SchurForm.Decimal.Reader
import SchurForm.Decimal.Style
import SchurForm.Proofs.FiniteNumbers
import SchurForm.Proofs.ShortestDigits

/-!
# Written numbers read back

However a decimal is laid out, the reader finds its digits and its power of ten again. The digits of
a finite number round to it, so the number that was written is the one that is read, down to the
sign of a zero.
-/

namespace SchurForm

namespace Binary64

open Float.Model (UnpackedFloat Format)
open Float.Model.UnpackedFloat

/-! ### Bit patterns -/

/-- The exponent field of a finite number is not full. -/
theorem exponentField_ne {x : Float} (hx : x.isFinite = true) :
    x.toBits.toNat / 2 ^ 52 % 2 ^ 11 ≠ 2047 := by
  intro hfull
  have hfield : @unpackExponent .binary64 x.toBits.toBitVec = -1#11 := by
    refine BitVec.eq_of_toNat_eq (Eq.trans ?_ hfull)
    change (x.toBits.toBitVec.extractLsb 62 52).toNat = _
    rw [BitVec.extractLsb_toNat, Nat.shiftRight_eq_div_pow]
    rfl
  rw [isFinite_eq] at hx
  change (unpack .binary64 x.toBits.toBitVec).isFinite = true at hx
  unfold unpack at hx
  simp only [hfield, if_true] at hx
  split at hx <;> exact absurd hx Bool.false_ne_true

/-- A bit pattern whose exponent field is not full is that of a number of the format. -/
theorem ofBits_spec {n : ℕ} (hn : n < 2 ^ 64) (hfield : n / 2 ^ 52 % 2 ^ 11 ≠ 2047) :
    ∃ negative m e, ofBits n = .finite negative m e ∧ Canonical m e ∧ e ≤ 971 ∧
      bits negative m e = n := by
  have hhidden := hiddenBit_eq
  have hpow : twoPow 52 = 2 ^ 52 ∧ twoPow 63 = 2 ^ 63 := ⟨rfl, rfl⟩
  have hsign : (if decide (twoPow 63 ≤ n) then twoPow 63 else 0) = n / 2 ^ 63 * 2 ^ 63 := by
    simp only [decide_eq_true_eq, hpow.2]
    split_ifs <;> omega
  have hparts : ofBits n = if n / 2 ^ 52 % 2 ^ 11 = 2047 then
        if n % 2 ^ 52 = 0 then .infinite (decide (twoPow 63 ≤ n)) else .nan
      else if n / 2 ^ 52 % 2 ^ 11 = 0 then
        .finite (decide (twoPow 63 ≤ n)) (n % 2 ^ 52) minExponent
      else .finite (decide (twoPow 63 ≤ n)) (hiddenBit + n % 2 ^ 52)
        (Int.ofNat (n / 2 ^ 52 % 2 ^ 11) - 1075) := rfl
  rw [hparts, if_neg hfield]
  by_cases hzero : n / 2 ^ 52 % 2 ^ 11 = 0
  · have hlt : n % 2 ^ 52 < 2 ^ 52 := Nat.mod_lt n (Nat.two_pow_pos 52)
    refine ⟨_, _, _, if_pos hzero,
      ⟨hlt.trans (by norm_num), le_rfl, .inr rfl⟩, by decide, ?_⟩
    rw [bits, hsign, hiddenBit_eq, if_pos hlt]
    omega
  · refine ⟨_, _, _, if_neg hzero, ⟨?_, ?_, .inl ?_⟩, ?_, ?_⟩
    · omega
    · rw [Int.ofNat_eq_natCast]
      omega
    · omega
    · rw [Int.ofNat_eq_natCast]
      omega
    · rw [bits, hsign, if_neg (by omega), Int.ofNat_eq_natCast, hpow.1]
      omega

/-- The bits of a number give the number. -/
theorem ofBits_toBits (x : Float) : Float.ofBits x.toBits = x := by
  rcases x with ⟨⟨word, hvalid⟩⟩
  have hword : UInt64.ofBitVec (pack .binary64 (unpack .binary64 word.toBitVec)) = word := by
    rw [pack_unpack_of_valid hvalid]
  change Float.ofModel ⟨UInt64.ofBitVec (pack .binary64 (unpack .binary64 word.toBitVec)), _⟩ = _
  simp only [hword]

/-- A finite number taken apart is a number of the format with the same bits. -/
theorem ofFloat_spec {x : Float} (hx : x.isFinite = true) :
    ∃ negative m e, ofFloat x = .finite negative m e ∧ Canonical m e ∧ e ≤ 971 ∧
      bits negative m e = x.toBits.toNat :=
  ofBits_spec x.toBits.toBitVec.isLt (exponentField_ne hx)

end Binary64

namespace Decimal

open Binary64 (Canonical RoundsTo bits minExponent nearest nearestBits nearestBits_of_roundsTo)

variable {c : Char} {cs whole fraction tail : List Char} {d : Decimal} {e : ℤ} {q : ℚ}

/-! ### Digits -/

/-- All characters are digits. -/
def AllDigits (cs : List Char) : Prop := ∀ c ∈ cs, c.isDigit = true

/-- Digits behind digits are digits. -/
theorem AllDigits.append {xs ys : List Char} (hx : AllDigits xs) (hy : AllDigits ys) :
    AllDigits (xs ++ ys) := fun _ h => (List.mem_append.mp h).elim (hx _) (hy _)

/-- The first ones of some digits are digits. -/
theorem AllDigits.take (h : AllDigits cs) (n : ℕ) : AllDigits (cs.take n) := fun _ hc =>
  h _ (List.mem_of_mem_take hc)

/-- The last ones of some digits are digits. -/
theorem AllDigits.drop (h : AllDigits cs) (n : ℕ) : AllDigits (cs.drop n) := fun _ hc =>
  h _ (List.mem_of_mem_drop hc)

/-- Zeros are digits. -/
theorem allDigits_replicate_zero (n : ℕ) : AllDigits (List.replicate n '0') := by
  intro c hc
  rw [List.eq_of_mem_replicate hc]
  rfl

/-- The digits of a number are digits. -/
theorem allDigits_toDigits (n : ℕ) : AllDigits (Nat.toDigits 10 n) := fun _ =>
  Nat.isDigit_of_mem_toDigits (by norm_num) le_rfl

/-- Digits are read as in the library. -/
theorem ofDigits_eq (cs : List Char) : ofDigits cs = Nat.ofDigitChars 10 cs 0 := rfl

/-- Digits in front count by the number of digits behind them. -/
theorem ofDigits_append (xs ys : List Char) :
    ofDigits (xs ++ ys) = 10 ^ ys.length * ofDigits xs + ofDigits ys := by
  rw [ofDigits_eq, Nat.ofDigitChars_append, Nat.ofDigitChars_eq_ofDigitChars_zero]
  rfl

/-- Zeros are read as zero. -/
theorem ofDigits_replicate_zero (n : ℕ) : ofDigits (List.replicate n '0') = 0 := by
  rw [ofDigits_eq, Nat.ofDigitChars_replicate_zero, mul_zero]

/-- The digits of a number are read as this number. -/
theorem ofDigits_toDigits (n : ℕ) : ofDigits (Nat.toDigits 10 n) = n :=
  Nat.ofDigitChars_ten_toDigits

/-- Digits are split off up to the first character that is none. -/
theorem splitDigits_append (hdigits : AllDigits cs) (htail : ∀ c ∈ tail.head?, c.isDigit = false) :
    splitDigits (cs ++ tail) = (cs, tail) := by
  have htake : tail.takeWhile Char.isDigit = [] ∧ tail.dropWhile Char.isDigit = tail := by
    cases tail with
    | nil => exact ⟨rfl, rfl⟩
    | cons c tail =>
      have hc := htail c rfl
      exact ⟨List.takeWhile_cons_of_neg (by simp [hc]), List.dropWhile_cons_of_neg (by simp [hc])⟩
  rw [splitDigits, List.takeWhile_append_of_pos hdigits, List.dropWhile_append_of_pos hdigits,
    htake.1, htake.2, List.append_nil]

/-- There is no sign in front of a digit. -/
theorem splitSign_of_isDigit (hc : c.isDigit = true) (cs : List Char) :
    splitSign (c :: cs) = (false, c :: cs) := by
  rw [splitSign.eq_def]
  split
  · rename_i h
    obtain rfl := (List.cons.inj h).1
    exact absurd hc (by decide)
  · rename_i h
    obtain rfl := (List.cons.inj h).1
    exact absurd hc (by decide)
  · rfl

/-! ### Exponents -/

/-- The characters of a written number. -/
def IsMark (c : Char) : Prop := c.isDigit = true ∨ c = '.' ∨ c = 'e' ∨ c = '-'

/-- The end of a written number: nothing, or an exponent. -/
structure IsExponent (tail : List Char) (e : ℤ) : Prop where
  lead : ∀ c ∈ tail.head?, c = 'e'
  reads : readExponent tail = some e
  marks : ∀ c ∈ tail, IsMark c

/-- Nothing at all is the exponent zero. -/
theorem isExponent_nil : IsExponent [] 0 := ⟨by simp, rfl, by simp⟩

/-- An exponent does not begin with a digit. -/
theorem IsExponent.not_digit (h : IsExponent tail e) : ∀ c ∈ tail.head?, c.isDigit = false := by
  intro c hc
  rw [h.lead c hc]
  rfl

/-- There is no fraction in an exponent. -/
theorem IsExponent.splitFraction_eq (h : IsExponent tail e) : splitFraction tail = ([], tail) := by
  cases tail with
  | nil => rfl
  | cons c tail =>
    obtain rfl := h.lead c rfl
    rfl

/-- A written exponent is an optional sign and the digits of its magnitude. -/
theorem toList_toString (k : ℤ) : ∃ digits, digits = Nat.toDigits 10 k.natAbs ∧
    (toString k).toList = (if k < 0 then ['-'] else []) ++ digits ∧
    splitSign (toString k).toList = (decide (k < 0), digits) := by
  refine ⟨_, rfl, ?_⟩
  obtain ⟨c, cs, hdigits⟩ :=
    List.exists_cons_of_ne_nil (Nat.toDigits_ne_nil (n := k.natAbs) (b := 10))
  have hc : c.isDigit = true := allDigits_toDigits k.natAbs c (hdigits ▸ List.mem_cons_self)
  rw [Int.toString_eq_repr, Int.repr_eq_if]
  by_cases hk : k < 0
  · have habs : (-k).toNat = k.natAbs := by omega
    rw [if_neg (by omega), if_pos hk, String.toList_append, Nat.toList_repr, habs,
      decide_eq_true hk]
    exact ⟨rfl, rfl⟩
  · have habs : k.toNat = k.natAbs := by omega
    rw [if_pos (by omega), if_neg hk, Nat.toList_repr, habs, hdigits, decide_eq_false hk]
    exact ⟨rfl, splitSign_of_isDigit hc cs⟩

/-- A written exponent is read as this exponent. -/
theorem isExponent_toString (k : ℤ) : IsExponent ('e' :: (toString k).toList) k := by
  obtain ⟨digits, hdigits, htext, hsign⟩ := toList_toString k
  have hall : AllDigits digits := hdigits ▸ allDigits_toDigits _
  have hsplit : splitDigits digits = (digits, []) := by
    have hsplit := splitDigits_append hall isExponent_nil.not_digit
    rwa [List.append_nil] at hsplit
  refine ⟨fun c hc => (Option.some.inj hc).symm, ?_, fun c hc => ?_⟩
  · rw [readExponent, if_pos (.inl rfl), hsign]
    dsimp only
    rw [hsplit, if_pos ⟨hdigits ▸ Nat.toDigits_ne_nil, rfl⟩, hdigits, ofDigits_toDigits,
      Int.ofNat_eq_natCast]
    simp only [decide_eq_true_eq]
    split_ifs <;> exact congrArg some (by omega)
  · rw [htext, List.mem_cons, List.mem_append] at hc
    rcases hc with rfl | hc | hc
    · exact .inr (.inr (.inl rfl))
    · split_ifs at hc
      · exact .inr (.inr (.inr (List.mem_singleton.mp hc)))
      · simp at hc
    · exact .inl (hall c hc)

/-! ### Numerals -/

/-- A text that begins with a digit, has only the characters of numbers and is read as a decimal of
the given value. -/
structure IsNumeral (cs : List Char) (q : ℚ) : Prop where
  lead : ∃ c rest, cs = c :: rest ∧ c.isDigit = true
  marks : ∀ c ∈ cs, IsMark c
  reads : ∃ d, readUnsigned cs = some d ∧ d.value = q

/-- What begins with some digits begins with a digit. -/
theorem AllDigits.lead_append (hdigits : AllDigits cs) (hne : cs ≠ []) (tail : List Char) :
    ∃ c rest, cs ++ tail = c :: rest ∧ c.isDigit = true := by
  obtain ⟨c, rest, rfl⟩ := List.exists_cons_of_ne_nil hne
  exact ⟨c, rest ++ tail, rfl, hdigits c List.mem_cons_self⟩

/-- Digits without a point. -/
theorem isNumeral_whole (hne : whole ≠ []) (hwhole : AllDigits whole) (htail : IsExponent tail e) :
    IsNumeral (whole ++ tail) (⟨ofDigits whole, e⟩ : Decimal).value := by
  refine ⟨hwhole.lead_append hne tail, fun c hc => ?_, _, ?_, rfl⟩
  · exact (List.mem_append.mp hc).elim (fun hc => .inl (hwhole c hc)) (htail.marks c)
  · rw [readUnsigned, splitDigits_append hwhole htail.not_digit]
    dsimp only
    rw [htail.splitFraction_eq, if_neg (by simp [hne]), htail.reads]
    simp

/-- Digits around a point. -/
theorem isNumeral_point (hne : whole ≠ []) (hwhole : AllDigits whole)
    (hfraction : AllDigits fraction) (htail : IsExponent tail e) :
    IsNumeral (whole ++ '.' :: (fraction ++ tail))
      (⟨ofDigits (whole ++ fraction), e - fraction.length⟩ : Decimal).value := by
  have hsplit : splitFraction ('.' :: (fraction ++ tail)) = (fraction, tail) :=
    splitDigits_append hfraction htail.not_digit
  refine ⟨hwhole.lead_append hne _, fun c hc => ?_, _, ?_, rfl⟩
  · rw [List.mem_append, List.mem_cons, List.mem_append] at hc
    rcases hc with hc | rfl | hc | hc
    · exact .inl (hwhole c hc)
    · exact .inr (.inl rfl)
    · exact .inl (hfraction c hc)
    · exact htail.marks c hc
  · rw [readUnsigned, splitDigits_append hwhole (by simp)]
    dsimp only
    rw [hsplit, if_neg (by simp [hne]), htail.reads]
    rfl

/-- Zeros at the end of a coefficient can be moved to the exponent. -/
theorem value_shift (c : ℕ) (e : ℤ) (n : ℕ) :
    (⟨10 ^ n * c, e⟩ : Decimal).value = (⟨c, e + n⟩ : Decimal).value := by
  rw [value, value, zpow_add₀ (by norm_num), zpow_natCast]
  push_cast
  ring

/-- The point may stand in front of the digits, behind them or between them. -/
theorem isNumeral_positionalText (keepPoint : Bool) (d : Decimal) :
    IsNumeral (positionalText keepPoint d.digits d.point) d.value := by
  have hdigits : AllDigits d.digits := allDigits_toDigits _
  have hne : d.digits ≠ [] := Nat.toDigits_ne_nil
  have hvalue : ofDigits d.digits = d.coefficient := ofDigits_toDigits _
  have hpoint : d.point = d.exponent + d.digits.length := rfl
  have hpadded : ∀ zeros, ofDigits (d.digits ++ List.replicate zeros '0') =
      10 ^ zeros * d.coefficient := by
    intro zeros
    rw [ofDigits_append, ofDigits_replicate_zero, hvalue, List.length_replicate, add_zero]
  rw [positionalText, Int.ofNat_eq_natCast]
  split_ifs with hfront hback hkeep
  · -- in front of the digits
    have hnumeral := isNumeral_point (List.cons_ne_nil '0' []) (allDigits_replicate_zero 1)
      ((allDigits_replicate_zero (-d.point).toNat).append hdigits) isExponent_nil
    have hcoefficient : ofDigits (['0'] ++ (List.replicate (-d.point).toNat '0' ++ d.digits)) =
        d.coefficient := by
      rw [ofDigits_append, ofDigits_append, ofDigits_replicate_zero, hvalue]
      simp [ofDigits, digitValue]
    have hexponent : (0 - (List.replicate (-d.point).toNat '0' ++ d.digits).length : ℤ) =
        d.exponent := by
      rw [List.length_append, List.length_replicate]
      omega
    rwa [List.append_nil, hcoefficient, hexponent] at hnumeral
  · -- behind the digits and the zeros that make the number whole
    have hnumeral := isNumeral_point (List.append_ne_nil_of_left_ne_nil hne _)
      (hdigits.append (allDigits_replicate_zero (d.point.toNat - d.digits.length)))
      (allDigits_replicate_zero 1) isExponent_nil
    have hcoefficient : ofDigits (d.digits ++
        List.replicate (d.point.toNat - d.digits.length) '0' ++ List.replicate 1 '0') =
        10 ^ (d.point.toNat - d.digits.length + 1) * d.coefficient := by
      rw [List.append_assoc, ← List.replicate_add, hpadded]
    have hexponent : (0 - (List.replicate 1 '0').length : ℤ) +
        ((d.point.toNat - d.digits.length + 1 : ℕ) : ℤ) = d.exponent := by
      rw [List.length_replicate]
      omega
    rwa [List.append_nil, hcoefficient, value_shift, hexponent] at hnumeral
  · have hnumeral := isNumeral_whole (List.append_ne_nil_of_left_ne_nil hne _)
      (hdigits.append (allDigits_replicate_zero (d.point.toNat - d.digits.length))) isExponent_nil
    have hexponent : 0 + ((d.point.toNat - d.digits.length : ℕ) : ℤ) = d.exponent := by omega
    rwa [hpadded, value_shift, hexponent] at hnumeral
  · -- between two digits
    have htake : d.digits.take d.point.toNat ≠ [] := by
      rw [Ne, List.take_eq_nil_iff, not_or]
      exact ⟨by omega, hne⟩
    have hnumeral := isNumeral_point htake (hdigits.take d.point.toNat)
      (hdigits.drop d.point.toNat) isExponent_nil
    have hexponent : (0 - (d.digits.drop d.point.toNat).length : ℤ) = d.exponent := by
      rw [List.length_drop]
      omega
    rwa [List.append_nil, List.take_append_drop, hvalue, hexponent] at hnumeral

/-- The point stands behind the first digit. -/
theorem isNumeral_exponentText (d : Decimal) :
    IsNumeral (exponentText d.digits d.point) d.value := by
  have hdigits : AllDigits d.digits := allDigits_toDigits _
  have hvalue : ofDigits d.digits = d.coefficient := ofDigits_toDigits _
  have hpoint : d.point = d.exponent + d.digits.length := rfl
  have htail := isExponent_toString (d.point - 1)
  rw [exponentText.eq_def]
  cases hcase : d.digits with
  | nil => exact absurd hcase Nat.toDigits_ne_nil
  | cons a more =>
    rw [hcase] at hdigits hvalue hpoint
    rw [List.length_cons] at hpoint
    have hlead : AllDigits [a] := hdigits.take 1
    cases more with
    | nil =>
      have hnumeral := isNumeral_whole (List.cons_ne_nil a []) hlead htail
      have hexponent : d.point - 1 = d.exponent := by
        rw [hpoint, List.length_nil]
        omega
      have hread : (⟨ofDigits [a], d.point - 1⟩ : Decimal).value = d.value := by
        rw [hvalue, hexponent]
      rw [← hread]
      exact hnumeral
    | cons b more =>
      have hnumeral := isNumeral_point (List.cons_ne_nil a []) hlead (hdigits.drop 1) htail
      have hexponent : d.point - 1 - ((b :: more).length : ℤ) = d.exponent := by omega
      have hread : (⟨ofDigits (a :: b :: more), d.point - 1 - ((b :: more).length : ℤ)⟩ :
          Decimal).value = d.value := by
        rw [hvalue, hexponent]
      rw [← hread]
      exact hnumeral

/-- A decimal in any style is a numeral of its value. -/
theorem isNumeral_decimalText (style : Style) (d : Decimal) :
    IsNumeral (style.decimalText d) d.value := by
  rw [Style.decimalText]
  split_ifs
  · exact isNumeral_positionalText style.keepPoint d
  · exact isNumeral_exponentText d

/-! ### Values -/

section Values

variable {m : ℕ} {negative : Bool}

/-- The range of the numbers in terms of powers of ten. -/
theorem two_pow_le_ten_pow : (2 : ℚ) ^ 1300 ≤ 10 ^ 400 :=
  calc (2 : ℚ) ^ 1300 = (2 ^ 13) ^ 100 := pow_mul 2 13 100
    _ ≤ (10 ^ 4) ^ 100 := by gcongr; norm_num
    _ = 10 ^ 400 := (pow_mul 10 4 100).symm

/-- Decimals that round to a finite number are not settled by their magnitude. -/
theorem point_bounds (hc : Canonical m e) (he : e ≤ 971) (hm : 0 < m)
    (h : RoundsTo m e d.value) : -400 ≤ d.point ∧ d.point ≤ 400 := by
  have hpos := h.pos hm
  have hpow : (0 : ℚ) < 2 ^ e := by positivity
  have hlog : ∀ k : ℤ, (10 : ℚ) ^ k ≤ d.value ↔ k ≤ Int.log 10 d.value := fun k => by
    exact_mod_cast Int.zpow_le_iff_le_log (by norm_num) hpos
  have hlow : (10 : ℚ) ^ (-400 : ℤ) ≤ d.value := by
    have hm' : (1 : ℚ) ≤ m := by exact_mod_cast hm
    have hhalf : 2 ^ (-1 : ℤ) ≤ d.value / 2 ^ e := by
      rw [zpow_neg_one]
      linarith [h.nearest.low]
    calc (10 : ℚ) ^ (-400 : ℤ) = (10 ^ 400)⁻¹ := by rw [zpow_neg, zpow_ofNat]
      _ ≤ (2 ^ 1300)⁻¹ := inv_anti₀ (pow_pos two_pos 1300) two_pow_le_ten_pow
      _ = 2 ^ (-1300 : ℤ) := by rw [zpow_neg, zpow_ofNat]
      _ ≤ 2 ^ (-1 + e) := zpow_le_zpow_right₀ one_le_two (by linarith [hc.exponent_ge])
      _ = 2 ^ (-1 : ℤ) * 2 ^ e := zpow_add₀ two_ne_zero _ _
      _ ≤ d.value := (le_div_iff₀ hpow).mp hhalf
  have hhigh : d.value < (10 : ℚ) ^ (400 : ℤ) := by
    have hm' : (m : ℚ) + 1 ≤ 2 ^ 53 := by exact_mod_cast hc.mantissa_lt
    have hunits : d.value / 2 ^ e < 2 ^ (53 : ℤ) := by
      have hcast : (2 : ℚ) ^ (53 : ℤ) = 2 ^ 53 := zpow_ofNat 2 53
      linarith [h.nearest.high]
    calc d.value < 2 ^ (53 : ℤ) * 2 ^ e := (div_lt_iff₀ hpow).mp hunits
      _ = 2 ^ (53 + e) := (zpow_add₀ two_ne_zero _ _).symm
      _ ≤ 2 ^ (1300 : ℤ) := zpow_le_zpow_right₀ one_le_two (by linarith)
      _ ≤ (10 : ℚ) ^ (400 : ℤ) := by
        rw [zpow_ofNat, zpow_ofNat]
        exact two_pow_le_ten_pow
  have hlower := (hlog (-400)).mp hlow
  have hupper := mt (hlog 400).mpr hhigh.not_ge
  rw [point_eq (coefficient_pos hpos)]
  omega

/-- A decimal is read as the number that it rounds to. -/
theorem toFloat_of_roundsTo (hc : Canonical m e) (he : e ≤ 971) (hm : 0 < m)
    (h : RoundsTo m e d.value) :
    toFloat negative d = Float.ofBits (.ofNat (bits negative m e)) := by
  obtain ⟨hlow, hhigh⟩ := point_bounds hc he hm h
  have hcoefficient := coefficient_pos (h.pos hm)
  have hquotient : ((d.coefficient * tenPow d.exponent.toNat : ℕ) : ℚ) /
      (tenPow (-d.exponent).toNat : ℕ) = d.value := by
    rw [value, zpow_eq_div]
    push_cast
    ring
  rw [toFloat, if_neg (by omega), if_neg (by omega), nearest,
    nearestBits_of_roundsTo hc he hm (tenPow_pos _) (hquotient ▸ h)]

/-- A decimal without value is read as a zero. -/
theorem toFloat_of_zero (h : d.value = 0) :
    toFloat negative d = Float.ofBits (.ofNat (bits negative 0 minExponent)) := by
  have hzero : d.coefficient = 0 := by
    rw [value, mul_eq_zero, or_iff_left (by positivity)] at h
    exact_mod_cast h
  rw [toFloat, if_pos (.inl hzero), nearest, nearestBits, if_pos rfl]

/-- Digits have no case. -/
theorem toLower_of_isDigit (hc : c.isDigit = true) : c.toLower = c := by
  rw [Char.isDigit, Bool.and_eq_true, decide_eq_true_eq, decide_eq_true_eq] at hc
  rw [Char.toLower, dif_neg]
  rintro ⟨hupper, -⟩
  exact absurd (UInt32.le_trans hupper hc.2) (by decide)

/-- A numeral is no word for an infinity or a NaN, so its digits count. -/
theorem read_of_isNumeral (h : IsNumeral cs q) (negative : Bool) :
    ∃ d, d.value = q ∧
      read ((if negative then ['-'] else []) ++ cs) = .ok (toFloat negative d) := by
  obtain ⟨⟨c, rest, rfl, hc⟩, -, d, hread, hvalue⟩ := h
  refine ⟨d, hvalue, ?_⟩
  have hsign : splitSign ((if negative then ['-'] else []) ++ c :: rest) =
      (negative, c :: rest) := by
    cases negative
    · exact splitSign_of_isDigit hc rest
    · rfl
  have hword : ∀ word : List Char, (∀ a ∈ word.head?, a.isDigit = false) →
      (c :: rest).map Char.toLower ≠ word := by
    rintro word hword rfl
    have hdigit := hword _ rfl
    rw [toLower_of_isDigit hc, hc] at hdigit
    exact absurd hdigit (by decide)
  rw [read, if_neg (by simp), hsign]
  dsimp only
  rw [if_neg (not_or.mpr ⟨hword _ (by simp), hword _ (by simp)⟩),
    if_neg (hword _ (by simp)), hread]

/-- A finite number in any style reads back. -/
theorem read_render (style : Style) (hc : Canonical m e) (he : e ≤ 971) :
    read (style.render (.finite negative m e)) =
      .ok (Float.ofBits (.ofNat (bits negative m e))) := by
  obtain ⟨d, hvalue, hread⟩ := read_of_isNumeral
    (isNumeral_decimalText style (if m = 0 then ⟨0, 0⟩ else shortest m e)) negative
  refine hread.trans (congrArg Except.ok ?_)
  rcases m.eq_zero_or_pos with rfl | hm
  · rw [if_pos rfl] at hvalue
    have hexponent : e = minExponent := hc.normal.resolve_left (by norm_num)
    rw [hexponent]
    exact toFloat_of_zero (hvalue.trans (by simp [value]))
  · rw [if_neg hm.ne'] at hvalue
    exact toFloat_of_roundsTo hc he hm (hvalue ▸ roundsTo_shortest hc hm)

/-- A finite number that is written in any style is read back. -/
theorem read_write (style : Style) {x : Float} (hx : x.isFinite = true) :
    read (style.write x).toList = .ok x := by
  obtain ⟨negative, m, e, hparts, hc, he, hbits⟩ := Binary64.ofFloat_spec hx
  rw [Style.write, String.toList_ofList, hparts, read_render style hc he, hbits,
    UInt64.ofNat_toNat, Binary64.ofBits_toBits]

/-- A finite number is written with the characters of numbers. -/
theorem marks_write (style : Style) {x : Float} (hx : x.isFinite = true) :
    (style.write x).toList ≠ [] ∧ ∀ c ∈ (style.write x).toList, IsMark c := by
  obtain ⟨negative, m, e, hparts, -⟩ := Binary64.ofFloat_spec hx
  obtain ⟨⟨c, rest, hlead, -⟩, hmarks⟩ :=
    isNumeral_decimalText style (if m = 0 then ⟨0, 0⟩ else shortest m e)
  rw [Style.write, String.toList_ofList, hparts, Style.render]
  refine ⟨List.append_ne_nil_of_right_ne_nil _ (hlead ▸ List.cons_ne_nil c rest), fun a ha => ?_⟩
  rcases List.mem_append.mp ha with ha | ha
  · cases negative
    · simp at ha
    · exact .inr (.inr (.inr (List.mem_singleton.mp ha)))
  · exact hmarks a ha

end Values

end Decimal

end SchurForm
