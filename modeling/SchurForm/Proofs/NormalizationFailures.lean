import SchurForm.Proofs.BoundedArithmetic
import SchurForm.Proofs.BoundedMatrices
import SchurForm.Proofs.PackedColumns

/-!
# Failed blocks under both normalizations

A vector that back-substitution found fails if its size cannot divide it. The largest component is
zero only for the zero vector and infinite only if the magnitudes of two parts overflow together.
The length is the root of a sum of squares that is not scaled, so that it vanishes or overflows for
vectors that have a largest component. Whatever fails under the largest component therefore fails
under the length, and not the other way round. The lists agree as long as the largest entry stays
within the range in which squares can be summed. The bounds of these sums hold for every order in
which they can be taken.
-/

namespace SchurForm

open Block Scalar Binary64

variable {n rows : Nat}

section Sizes

variable {x y re im : Vec n Float} {size : Float} {factor : Option (Mat n n Float)}

/-- A size can be divided by exactly if it is a finite number other than zero. -/
theorem usableSize_iff : usableSize size = true ↔ size.isFinite = true ∧ toReal size ≠ 0 := by
  have hdef : usableSize size = (!(size == 0) && size.isFinite) := rfl
  rw [hdef, Bool.and_eq_true, Bool.not_eq_true', and_comm]
  refine and_congr_right fun hfinite => ?_
  rw [← Bool.not_eq_true, beq_iff_toReal hfinite isFinite_zero, toReal_zero]

/-- The largest of finite numbers is usable if one of them is positive. -/
theorem usable_maxTo {f : Nat → Float} (hf : ∀ i < n, (f i).isFinite = true)
    (h : ∃ i < n, 0 < toReal (f i)) : usableSize (maxTo n f) = true := by
  obtain ⟨i, hi, hpos⟩ := h
  exact usableSize_iff.mpr ⟨isFinite_maxTo hf, (hpos.trans_le ((toReal_maxTo hf).1 i hi)).ne'⟩

/-- A root is usable only if the number under it is finite and not zero. -/
theorem of_usable_sqrt (size : Float) (h : usableSize size.sqrt = true) :
    size.isFinite = true ∧ toReal size ≠ 0 := by
  obtain ⟨hroot, hne⟩ := usableSize_iff.mp h
  have hfinite := isFinite_of_sqrt hroot
  refine ⟨hfinite, fun hzero => hne ?_⟩
  have hrounded := isRounded_sqrt hfinite hzero.ge
  rw [hzero, Real.sqrt_zero] at hrounded
  exact hrounded.toReal_eq hroot onGrid_zero

/-- The root of a positive number is usable: it lies well inside the range. -/
theorem usable_sqrt (h : size.isFinite = true) (hpos : 0 < toReal size) :
    usableSize size.sqrt = true := by
  have hrounded := isRounded_sqrt h hpos.le
  have hhigh : |√(toReal size)| ≤ 2 ^ (512 : ℤ) := by
    rw [abs_of_nonneg (Real.sqrt_nonneg _), Real.sqrt_le_left (by positivity), ← zpow_natCast,
      ← zpow_mul]
    exact ((le_abs_self _).trans_lt (abs_toReal_lt size)).le
  have hlow : (2 : ℝ) ^ (-537 : ℤ) ≤ √(toReal size) := by
    refine Real.le_sqrt_of_sq_le ?_
    rw [← zpow_natCast, ← zpow_mul]
    exact ((onGrid_toReal size).abs_ge hpos.ne').trans_eq (abs_of_pos hpos)
  have hfinite := (hrounded.within (onGrid_two_zpow (by norm_num)) hhigh
    (zpow_lt_zpow_right₀ one_lt_two (by norm_num))).isFinite
  have hroot := hrounded.ge hfinite _ (onGrid_two_zpow (by norm_num)) hlow
  have hpower : (0 : ℝ) < 2 ^ (-537 : ℤ) := by positivity
  exact usableSize_iff.mpr ⟨hfinite, (hpower.trans_le hroot).ne'⟩

section Squares

/-- A sum of the squares of all entries, in any order and with any brackets. -/
def SumOfSquares (x : Vec n Float) (sum : Float) : Prop :=
  SumOf (fun i => x.get i * x.get i) (Finset.range n) sum

/-- The inner product sums the squares from the first to the last. -/
theorem sumOfSquares_dot (x : Vec n Float) : SumOfSquares x (x.dot x) :=
  sumOf_sumTo _ n

namespace SumOfSquares

variable {sum : Float} (hsum : SumOfSquares x sum)
include hsum

/-- If a sum of squares is finite, the squares are. -/
theorem isFinite_squares (h : sum.isFinite = true) :
    ∀ i < n, (x.get i * x.get i).isFinite = true :=
  fun i hi => hsum.isFinite_terms h i (Finset.mem_range.mpr hi)

/-- A finite sum of squares is at least each of them. -/
theorem le (h : sum.isFinite = true) :
    0 ≤ toReal sum ∧ ∀ i < n, toReal (x.get i * x.get i) ≤ toReal sum := by
  obtain ⟨hnonneg, hterms⟩ := SumOf.le hsum h fun i hi =>
    square_nonneg (hsum.isFinite_squares h i (Finset.mem_range.mp hi))
  exact ⟨hnonneg, fun i hi => hterms i (Finset.mem_range.mpr hi)⟩

/-- The sum of the squares of zeros. -/
theorem within_zero (hx : ∀ i < n, Within 0 (x.get i)) : Within 0 sum := by
  have hrange : (0 : ℝ) < 2 ^ (1024 : ℤ) := by positivity
  have hsquares (i : Nat) (hi : i ∈ Finset.range n) : Within 0 (x.get i * x.get i) := by
    have hi' := hx i (Finset.mem_range.mp hi)
    have := hi'.mul hi' (by rw [mul_zero]; exact onGrid_zero) (by rwa [mul_zero])
    rwa [mul_zero] at this
  have hbound := hsum.within hsquares (fun k _ => by rw [mul_zero]; exact onGrid_zero)
    (by rwa [mul_zero]) le_rfl
  rwa [mul_zero] at hbound

/-- The sum of the squares of numbers that are not too large. -/
theorem within_moderate (hn : n ≤ 2 ^ 30) (hx : ∀ i < n, Within (2 ^ (495 : ℤ)) (x.get i)) :
    Within (2 ^ (1020 : ℤ)) sum := by
  have hsquares (i : Nat) (hi : i ∈ Finset.range n) :
      Within (2 ^ (990 : ℤ)) (x.get i * x.get i) :=
    have hi' := hx i (Finset.mem_range.mp hi)
    hi'.mul_two_zpow hi' (by norm_num) (by norm_num)
  have hcount : (n : ℝ) * 2 ^ (990 : ℤ) ≤ 2 ^ (1020 : ℤ) := by
    have hn' : (n : ℝ) ≤ 2 ^ (30 : ℤ) := by exact_mod_cast hn
    calc (n : ℝ) * 2 ^ (990 : ℤ) ≤ 2 ^ (30 : ℤ) * 2 ^ (990 : ℤ) := by gcongr
      _ = 2 ^ (1020 : ℤ) := by
        rw [← zpow_add₀ two_ne_zero]
        norm_num
  have hgrid (k : ℕ) (hk : k ≤ n) : OnGrid (k * 2 ^ (990 : ℤ)) :=
    onGrid_natCast_mul ((hk.trans hn).trans_lt (by norm_num)) (by norm_num)
  have hrange : (2 : ℝ) ^ (1020 : ℤ) < 2 ^ (1024 : ℤ) :=
    zpow_lt_zpow_right₀ one_lt_two (by norm_num)
  have hbound := SumOf.within hsum hsquares
  rw [Finset.card_range] at hbound
  exact (hbound hgrid (hcount.trans_lt hrange) (by positivity)).mono hcount

/-- Where a sum of squares does not vanish, an entry does not. -/
theorem exists_ne_zero (h : sum.isFinite = true) (hne : toReal sum ≠ 0) :
    ∃ i < n, toReal (x.get i) ≠ 0 := by
  by_contra hzero
  push Not at hzero
  have hentries (i : Nat) (hi : i < n) : Within 0 (x.get i) :=
    ⟨(isFinite_of_mul (hsum.isFinite_squares h i hi)).1, by rw [hzero i hi, abs_zero]⟩
  exact hne (abs_nonpos_iff.mp (hsum.within_zero hentries).abs_le)

/-- A finite sum of squares is positive if one of the numbers is not too small. -/
theorem pos (h : sum.isFinite = true) {i : Nat} (hi : i < n)
    (hlow : 2 ^ (-535 : ℤ) ≤ |toReal (x.get i)|) : 0 < toReal sum := by
  have hfinite := hsum.isFinite_squares h i hi
  have hx := (isFinite_of_mul hfinite).1
  have hsquare : (2 : ℝ) ^ (-1070 : ℤ) ≤ toReal (x.get i) * toReal (x.get i) := by
    rw [← abs_mul_abs_self, show (-1070 : ℤ) = -535 + -535 by norm_num, zpow_add₀ two_ne_zero]
    exact mul_le_mul hlow hlow (by positivity) (abs_nonneg _)
  have hterm := (isRounded_mul hx hx).ge hfinite _ (onGrid_two_zpow (by norm_num)) hsquare
  exact (by positivity : (0 : ℝ) < 2 ^ (-1070 : ℤ)).trans_le (hterm.trans ((hsum.le h).2 i hi))

end SumOfSquares

end Squares

/-- The sum of the magnitudes of both parts of an entry. -/
theorem abs_add_abs {a b : Float} (ha : Within (2 ^ (512 : ℤ)) a) (hb : Within (2 ^ (512 : ℤ)) b) :
    (a.abs + b.abs).isFinite = true ∧ |toReal a| ≤ toReal (a.abs + b.abs) ∧
      |toReal b| ≤ toReal (a.abs + b.abs) := by
  have ha' := within_abs_iff.mpr ha
  have hb' := within_abs_iff.mpr hb
  have hfinite := (ha'.add_two_zpow hb' (by norm_num) (by norm_num)).isFinite
  have hrounded := isRounded_add ha'.isFinite hb'.isFinite
  rw [toReal_abs, toReal_abs] at hrounded
  exact ⟨hfinite,
    hrounded.ge hfinite _ (onGrid_toReal a).abs (le_add_of_nonneg_right (abs_nonneg _)),
    hrounded.ge hfinite _ (onGrid_toReal b).abs (le_add_of_nonneg_left (abs_nonneg _))⟩

/-- The largest magnitude is usable if an entry does not vanish. -/
theorem usable_supNorm (hx : ∀ i < n, (x.get i).isFinite = true)
    (h : ∃ i < n, toReal (x.get i) ≠ 0) :
    usableSize (Normalization.maxAbs.sizeOfReal x) = true := by
  obtain ⟨i, hi, hne⟩ := h
  refine usable_maxTo (fun i hi => (isFinite_abs_iff _).trans (hx i hi)) ⟨i, hi, ?_⟩
  exact (toReal_abs (x.get i)).symm ▸ abs_pos.mpr hne

/-- The largest sum of magnitudes is usable if a part of an entry does not vanish. -/
theorem usable_maxAbs (hre : ∀ i < n, Within (2 ^ (512 : ℤ)) (re.get i))
    (him : ∀ i < n, Within (2 ^ (512 : ℤ)) (im.get i))
    (h : ∃ i < n, toReal (re.get i) ≠ 0 ∨ toReal (im.get i) ≠ 0) :
    usableSize (Normalization.maxAbs.sizeOf re im) = true := by
  obtain ⟨i, hi, hne⟩ := h
  refine usable_maxTo (fun i hi => (abs_add_abs (hre i hi) (him i hi)).1) ⟨i, hi, ?_⟩
  obtain ⟨-, hleft, hright⟩ := abs_add_abs (hre i hi) (him i hi)
  rcases hne with hne | hne
  · exact (abs_pos.mpr hne).trans_le hleft
  · exact (abs_pos.mpr hne).trans_le hright

/-- A real vector with a usable length has a usable largest magnitude. -/
theorem usable_supNorm_of_length
    (h : usableSize (Normalization.euclidean.sizeOfReal x) = true) :
    usableSize (Normalization.maxAbs.sizeOfReal x) = true := by
  obtain ⟨hfinite, hne⟩ := of_usable_sqrt (x.dot x) h
  have hsum := sumOfSquares_dot x
  exact usable_supNorm (fun i hi => (isFinite_of_mul (hsum.isFinite_squares hfinite i hi)).1)
    (hsum.exists_ne_zero hfinite hne)

/-- A complex vector with a usable length has a usable largest sum of magnitudes: a sum that
overflows is of numbers whose squares do. -/
theorem usable_maxAbs_of_length
    (h : usableSize (Normalization.euclidean.sizeOf re im) = true) :
    usableSize (Normalization.maxAbs.sizeOf re im) = true := by
  obtain ⟨hfinite, hne⟩ := of_usable_sqrt (re.dot re + im.dot im) h
  obtain ⟨hre, him⟩ := isFinite_of_add hfinite
  have hreSum := sumOfSquares_dot re
  have himSum := sumOfSquares_dot im
  refine usable_maxAbs
    (fun i hi => within_of_isFinite_square (hreSum.isFinite_squares hre i hi))
    (fun i hi => within_of_isFinite_square (himSum.isFinite_squares him i hi)) ?_
  by_cases hzero : toReal (re.dot re) = 0
  · have hne' : toReal (im.dot im) ≠ 0 := by
      intro hzero'
      have hrounded := isRounded_add hre him
      rw [hzero, hzero', add_zero] at hrounded
      exact hne (hrounded.toReal_eq hfinite onGrid_zero)
    obtain ⟨i, hi, hi'⟩ := himSum.exists_ne_zero him hne'
    exact ⟨i, hi, .inr hi'⟩
  · obtain ⟨i, hi, hi'⟩ := hreSum.exists_ne_zero hre hzero
    exact ⟨i, hi, .inl hi'⟩

/-- The length of a real vector with moderate entries is usable. -/
theorem usable_length_of_real (hn : n ≤ 2 ^ 30)
    (hx : ∀ i < n, Within (2 ^ (495 : ℤ)) (x.get i))
    (hlow : ∃ i < n, 2 ^ (-535 : ℤ) ≤ |toReal (x.get i)|) :
    usableSize (Normalization.euclidean.sizeOfReal x) = true := by
  obtain ⟨i, hi, hlow⟩ := hlow
  have hfinite := ((sumOfSquares_dot x).within_moderate hn hx).isFinite
  exact usable_sqrt hfinite ((sumOfSquares_dot x).pos hfinite hi hlow)

/-- The length of a complex vector with moderate entries is usable. -/
theorem usable_length (hn : n ≤ 2 ^ 30) (hre : ∀ i < n, Within (2 ^ (495 : ℤ)) (re.get i))
    (him : ∀ i < n, Within (2 ^ (495 : ℤ)) (im.get i))
    (hlow : ∃ i < n, 2 ^ (-535 : ℤ) ≤ |toReal (re.get i)| ∨
      2 ^ (-535 : ℤ) ≤ |toReal (im.get i)|) :
    usableSize (Normalization.euclidean.sizeOf re im) = true := by
  obtain ⟨i, hi, hlow⟩ := hlow
  have hreSum := sumOfSquares_dot re
  have himSum := sumOfSquares_dot im
  have hreDot := hreSum.within_moderate hn hre
  have himDot := himSum.within_moderate hn him
  have hfinite := (hreDot.add_two_zpow himDot (by norm_num) (by norm_num)).isFinite
  have hrounded := isRounded_add hreDot.isFinite himDot.isFinite
  have hreNonneg := (hreSum.le hreDot.isFinite).1
  have himNonneg := (himSum.le himDot.isFinite).1
  refine usable_sqrt hfinite ?_
  rcases hlow with hlow | hlow
  · exact (hreSum.pos hreDot.isFinite hi hlow).trans_le
      (hrounded.ge hfinite _ (onGrid_toReal _) (by linarith))
  · exact (himSum.pos himDot.isFinite hi hlow).trans_le
      (hrounded.ge hfinite _ (onGrid_toReal _) (by linarith))

end Sizes

section Vectors

variable {α : Type} [Scalar α]

/-- The size by which a vector is divided in all rows. -/
def LeadingVector.sizeIn (norm : Normalization) (factor : Option (Mat n n α)) (isPair : Bool)
    (x : LeadingVector rows α) : α :=
  if isPair then norm.sizeOf (inAllRows factor x.re : Vec n α) (inAllRows factor x.im)
  else norm.sizeOfReal (inAllRows factor x.re : Vec n α)

/-- A block has no eigenvector if its vector is lost or has no usable size. -/
theorem LeadingVector.eigenvector?_eq_none {norm : Normalization} {factor : Option (Mat n n α)}
    {isPair : Bool} {x : LeadingVector rows α} : x.eigenvector? norm factor isPair = none ↔
      x.isLost = true ∨ usableSize (x.sizeIn norm factor isPair) = false := by
  unfold eigenvector?
  split_ifs with hlost hpair
  · simp [hlost]
  · simp [hlost, sizeIn, hpair, Eigenvector.ofComplex?]
  · simp [hlost, sizeIn, hpair, Eigenvector.ofReal?]

/-- The largest magnitude of an entry, for a pair over both parts. -/
def LeadingVector.largest (isPair : Bool) (x : LeadingVector rows α) : α :=
  if isPair then maxNum x.re.supNorm x.im.supNorm else x.re.supNorm

end Vectors

section Leading

variable {v : Vec rows Float} {B g : ℝ}

/-- The entries of a vector that passes the test are finite. -/
theorem isFinite_of_allFinite (h : v.allFinite = true) : ∀ i < rows, (v.get i).isFinite = true := by
  intro i hi
  refine List.all_eq_true.mp h _ ?_
  rw [Vec.get, dif_pos hi]
  exact Vector.mem_toList_iff.mpr (Vector.getElem_mem hi)

/-- The largest magnitude of finite entries is one of them, or zero. -/
theorem supNorm_spec (hv : ∀ i < rows, (v.get i).isFinite = true) :
    v.supNorm.isFinite = true ∧ (∀ i < rows, |toReal (v.get i)| ≤ toReal v.supNorm) ∧
      (toReal v.supNorm = 0 ∨ ∃ i < rows, |toReal (v.get i)| = toReal v.supNorm) := by
  have habs (i : Nat) (hi : i < rows) : (v.get i).abs.isFinite = true :=
    (isFinite_abs_iff _).trans (hv i hi)
  obtain ⟨hterms, hreached⟩ := toReal_maxTo habs
  simp only [toReal_abs] at hterms hreached
  exact ⟨isFinite_maxTo habs, hterms, hreached⟩

/-- Without a factor a vector is not expanded. -/
theorem get_inAllRows_none {i : Nat} (hi : i < n) :
    (inAllRows none v : Vec n Float).get i = v.get i := by
  simp [inAllRows, hi]

/-- In all rows the entries keep their bound. -/
theorem within_inAllRows (hv : ∀ i < rows, (v.get i).isFinite = true)
    (hle : toReal v.supNorm ≤ B) (hB : 0 ≤ B) :
    ∀ i < n, Within B ((inAllRows none v : Vec n Float).get i) := by
  intro i hi
  rw [get_inAllRows_none hi]
  by_cases hrow : i < rows
  · exact ⟨hv i hrow, ((supNorm_spec hv).2.1 i hrow).trans hle⟩
  · rw [v.get_of_le (Nat.le_of_not_lt hrow)]
    exact ⟨isFinite_zero, (abs_eq_zero.mpr toReal_zero).trans_le hB⟩

/-- The largest entry is found in all rows. -/
theorem exists_inAllRows (hrows : rows ≤ n) (hv : ∀ i < rows, (v.get i).isFinite = true)
    (hpos : 0 < g) (hle : g ≤ toReal v.supNorm) :
    ∃ i < n, g ≤ |toReal ((inAllRows none v : Vec n Float).get i)| := by
  obtain ⟨i, hi, heq⟩ := (supNorm_spec hv).2.2.resolve_left (hpos.trans_le hle).ne'
  exact ⟨i, hi.trans_le hrows, by rwa [get_inAllRows_none (hi.trans_le hrows), heq]⟩

end Leading

namespace LeadingVector

variable {x : LeadingVector rows Float} {isPair : Bool} {factor : Option (Mat n n Float)}

/-- The largest entry lies in the range in which squares can be summed. -/
def IsModerate (isPair : Bool) (x : LeadingVector rows Float) : Prop :=
  powerOfTwo (-535) ≤ x.largest isPair ∧ x.largest isPair ≤ powerOfTwo 495

instance : Decidable (x.IsModerate isPair) :=
  inferInstanceAs (Decidable (_ ∧ _))

/-- A vector that has a length in binary64 numbers has a largest entry too. -/
theorem usable_of_length (h : usableSize (x.sizeIn .euclidean factor isPair) = true) :
    usableSize (x.sizeIn .maxAbs factor isPair) = true := by
  unfold sizeIn at *
  split_ifs at *
  · exact usable_maxAbs_of_length h
  · exact usable_supNorm_of_length h

/-- A vector that is not lost has finite entries. -/
theorem allFinite_of_kept (h : x.isLost = false) :
    (∀ i < rows, (x.re.get i).isFinite = true) ∧ ∀ i < rows, (x.im.get i).isFinite = true := by
  simp only [isLost, Bool.or_eq_false_iff, Bool.not_eq_false', Bool.and_eq_true] at h
  exact ⟨isFinite_of_allFinite h.2.1, isFinite_of_allFinite h.2.2⟩

/-- A vector of moderate size has a length. -/
theorem IsModerate.usable (h : x.IsModerate isPair) (hkept : x.isLost = false) (hrows : rows ≤ n)
    (hn : n ≤ 2 ^ 30) :
    usableSize (x.sizeIn .euclidean (none : Option (Mat n n Float)) isPair) = true := by
  obtain ⟨hre, him⟩ := allFinite_of_kept hkept
  have hreSup := (supNorm_spec hre).1
  have himSup := (supNorm_spec him).1
  have hlowPos : (0 : ℝ) < 2 ^ (-535 : ℤ) := by positivity
  have hhighPos : (0 : ℝ) ≤ 2 ^ (495 : ℤ) := by positivity
  have hlow := isFinite_powerOfTwo (e := -535) (by norm_num) (by norm_num)
  have hhigh := isFinite_powerOfTwo (e := 495) (by norm_num) (by norm_num)
  have hlowValue := toReal_powerOfTwo (e := -535) (by norm_num) (by norm_num)
  have hhighValue := toReal_powerOfTwo (e := 495) (by norm_num) (by norm_num)
  unfold IsModerate largest at h
  unfold sizeIn
  split_ifs at *
  · have hmax := isFinite_maxNum hreSup himSup
    rw [le_iff_toReal hlow hmax, le_iff_toReal hmax hhigh, toReal_maxNum hreSup himSup, hlowValue,
      hhighValue, max_le_iff, le_max_iff] at h
    obtain ⟨hlarge, hreLe, himLe⟩ := h
    refine usable_length hn (within_inAllRows hre hreLe hhighPos)
      (within_inAllRows him himLe hhighPos) ?_
    rcases hlarge with hlarge | hlarge
    · obtain ⟨i, hi, hentry⟩ := exists_inAllRows hrows hre hlowPos hlarge
      exact ⟨i, hi, .inl hentry⟩
    · obtain ⟨i, hi, hentry⟩ := exists_inAllRows hrows him hlowPos hlarge
      exact ⟨i, hi, .inr hentry⟩
  · rw [le_iff_toReal hlow hreSup, le_iff_toReal hreSup hhigh, hlowValue, hhighValue] at h
    exact usable_length_of_real hn (within_inAllRows hre h.2 hhighPos)
      (exists_inAllRows hrows hre hlowPos h.1)

end LeadingVector

section Failures

variable {find find' : Block Float → List (Block Float) → Option (Eigenvector n Float)}
  {chosen : List (Block Float × List (Block Float))}

/-- The failed blocks are the chosen ones without a vector, in their order. -/
theorem failed_eq : (packColumns find chosen).failed =
    (chosen.filter fun entry => (find entry.1 entry.2).isNone).map fun entry => entry.1.start := by
  simp only [packColumns, List.filterMap_map, Function.comp_def]
  induction chosen with
  | nil => rfl
  | cons entry chosen ih =>
    cases h : find entry.1 entry.2 <;> simp [h, ih]

/-- If whatever fails under one search fails under another, so do the lists of failures. -/
theorem failed_sublist (h : ∀ b above, find b above = none → find' b above = none) :
    (packColumns find chosen).failed.Sublist (packColumns find' chosen).failed := by
  rw [failed_eq, failed_eq]
  refine List.Sublist.map _ (List.monotone_filter_right _ fun entry hnone => ?_)
  exact Option.isNone_iff_eq_none.mpr (h _ _ (Option.isNone_iff_eq_none.mp hnone))

/-- Searches that fail for the same blocks report the same failures. -/
theorem failed_congr (h : ∀ entry ∈ chosen, find entry.1 entry.2 = none ↔
    find' entry.1 entry.2 = none) :
    (packColumns find chosen).failed = (packColumns find' chosen).failed := by
  rw [failed_eq, failed_eq]
  refine congrArg _ (List.filter_congr fun entry hentry => ?_)
  rw [Bool.eq_iff_iff, Option.isNone_iff_eq_none, Option.isNone_iff_eq_none]
  exact h entry hentry

variable {vector : (b : Block Float) → List (Block Float) → LeadingVector b.stop Float}
  {factor : Option (Mat n n Float)}

/-- What fails under the largest component fails under the length as well. -/
theorem failed_maxAbs_sublist :
    (packColumns (fun b above => (vector b above).eigenvector? .maxAbs factor b.isPair)
      chosen).failed.Sublist
    (packColumns (fun b above => (vector b above).eigenvector? .euclidean factor b.isPair)
      chosen).failed := by
  refine failed_sublist fun b above hnone => ?_
  rw [LeadingVector.eigenvector?_eq_none] at hnone ⊢
  refine hnone.imp_right fun hsize => ?_
  by_contra hlength
  rw [LeadingVector.usable_of_length (Bool.not_eq_false _ ▸ hlength)] at hsize
  cases hsize

/-- Without a factor, vectors that are lost or of moderate size fail alike. -/
theorem failed_eq_of_moderate (hn : n ≤ 2 ^ 30) (hrows : ∀ entry ∈ chosen, entry.1.stop ≤ n)
    (hsize : ∀ entry ∈ chosen, (vector entry.1 entry.2).isLost = true ∨
      (vector entry.1 entry.2).IsModerate entry.1.isPair) :
    (packColumns (fun b above => (vector b above).eigenvector? .maxAbs
      (none : Option (Mat n n Float)) b.isPair) chosen).failed =
    (packColumns (fun b above => (vector b above).eigenvector? .euclidean
      (none : Option (Mat n n Float)) b.isPair) chosen).failed := by
  refine failed_congr fun entry hentry => ?_
  rw [LeadingVector.eigenvector?_eq_none, LeadingVector.eigenvector?_eq_none]
  cases hlost : (vector entry.1 entry.2).isLost with
  | true => simp
  | false =>
    have hmoderate := (hsize entry hentry).resolve_left (by simp [hlost])
    have hlength := hmoderate.usable hlost (hrows entry hentry) hn
    rw [hlength, LeadingVector.usable_of_length hlength]

end Failures

/-- The blocks of the entries of a selection are blocks of the form. -/
theorem mem_blocks_of_mem_selectedWithAbove {blocks : List (Block Float)} {selected : List Bool}
    {entry : Block Float × List (Block Float)} (h : entry ∈ selectedWithAbove blocks selected) :
    entry.1 ∈ blocks := by
  have hmem := List.mem_map_of_mem (f := Prod.fst) h
  rw [map_fst_selectedWithAbove] at hmem
  exact (List.mem_filter.mp hmem).1

/-- For every recognized form and every selection that fits it, the blocks that fail under the
largest component fail under the Euclidean length as well, whatever factor there is. Without a
factor the same blocks fail, provided that no vector has a largest entry so far from one that its
square leaves the range. -/
theorem normalizations_fail_alike (n : Nat) (blocks : List (Block Float)) (selected : List Bool)
    (count : Nat) (hselected : checkSelection blocks selected 2 = .ok count) :
    (∀ form : StandardForm n Float, diagonalBlocks form.s = .ok blocks →
      ∃ largest euclidean, form.eigenvectors .maxAbs selected = .ok largest ∧
        form.eigenvectors .euclidean selected = .ok euclidean ∧
        largest.failed.Sublist euclidean.failed ∧
        let sweep : StandardSweep n Float := ⟨form.s, sumsAboveBlocks form.s blocks⟩
        (form.q = none → n ≤ 2 ^ 30 →
          (∀ entry ∈ selectedWithAbove blocks selected,
            (sweep.vector entry.1 entry.2).isLost = true ∨
              (sweep.vector entry.1 entry.2).IsModerate entry.1.isPair) →
          largest.failed = euclidean.failed)) ∧
    ∀ form : PencilForm n Float, pencilBlocks form.s form.t = .ok blocks →
      ∃ largest euclidean, form.eigenvectors .maxAbs selected = .ok largest ∧
        form.eigenvectors .euclidean selected = .ok euclidean ∧
        largest.failed.Sublist euclidean.failed ∧
        let sweep := PencilSweep.ofPencil form.s form.t blocks
        (form.z = none → n ≤ 2 ^ 30 →
          (∀ entry ∈ selectedWithAbove blocks selected,
            (sweep.vector entry.1 entry.2).isLost = true ∨
              (sweep.vector entry.1 entry.2).IsModerate entry.1.isPair) →
          largest.failed = euclidean.failed) := by
  refine ⟨fun form hblocks => ⟨_, _, form.eigenvectors_eq_ok hblocks hselected,
      form.eigenvectors_eq_ok hblocks hselected, failed_maxAbs_sublist, ?_⟩,
    fun form hblocks => ⟨_, _, form.eigenvectors_eq_ok hblocks hselected,
      form.eigenvectors_eq_ok hblocks hselected, failed_maxAbs_sublist, ?_⟩⟩
  · intro sweep hfactor hn hsize
    rw [hfactor]
    exact failed_eq_of_moderate hn (fun entry hentry =>
      (tiles_of_diagonalBlocks hblocks).stop_le (mem_blocks_of_mem_selectedWithAbove hentry)) hsize
  · intro sweep hfactor hn hsize
    rw [hfactor]
    exact failed_eq_of_moderate hn (fun entry hentry =>
      (tiles_of_pencilBlocks hblocks).stop_le (mem_blocks_of_mem_selectedWithAbove hentry)) hsize

/-- A triangular form and a triangular pencil with moderate entries: neither normalization fails
without the other. -/
theorem normalizations_fail_alike_two :
    let s : Mat 2 2 Float := Mat.ofRows2 1 3 0 2
    let t : Mat 2 2 Float := Mat.ofRows2 1 1 0 4
    (∃ largest euclidean,
      (⟨s, none⟩ : StandardForm 2 Float).eigenvectors .maxAbs [false, true] = .ok largest ∧
      (⟨s, none⟩ : StandardForm 2 Float).eigenvectors .euclidean [false, true] = .ok euclidean ∧
      largest.failed = euclidean.failed) ∧
    ∃ largest euclidean,
      (⟨s, t, none, none⟩ : PencilForm 2 Float).eigenvectors .maxAbs [false, true] = .ok largest ∧
      (⟨s, t, none, none⟩ : PencilForm 2 Float).eigenvectors .euclidean [false, true] =
        .ok euclidean ∧
      largest.failed = euclidean.failed := by
  intro s t
  have hreal {x : Except (FormError Float) (List (Block Float))}
      (h : x.toOption.map (List.map fun b => (b.isPair, b.start)) = some [(false, 0), (false, 1)]) :
      x = .ok [.real 0, .real 1] := by
    obtain _ | _ | ⟨i | _, _ | ⟨j | _, _ | _⟩⟩ := x <;>
      simp [Except.toOption, Block.isPair, Block.start] at h
    rw [h.1, h.2]
  have hselected : checkSelection [(.real 0 : Block Float), .real 1] [false, true] 2 = .ok 1 := rfl
  have halike := normalizations_fail_alike 2 [.real 0, .real 1] [false, true] 1 hselected
  obtain ⟨largest, euclidean, hlargest, heuclidean, -, hequal⟩ :=
    halike.1 ⟨s, none⟩ (hreal (by decide +kernel))
  obtain ⟨largest', euclidean', hlargest', heuclidean', -, hequal'⟩ :=
    halike.2 ⟨s, t, none, none⟩ (hreal (by decide +kernel))
  exact ⟨⟨largest, euclidean, hlargest, heuclidean, hequal rfl (by norm_num) (by decide +kernel)⟩,
    largest', euclidean', hlargest', heuclidean', hequal' rfl (by norm_num) (by decide +kernel)⟩

/-- The normalizations do not always fail alike. Above a large entry the eigenvector has a component
near `1e200`, which is its largest one, but its square overflows, and the block is reported as
failed. -/
theorem normalizations_fail_apart :
    let s : Mat 2 2 Float := Mat.ofRows2 1 1e200 0 2
    let failed (norm : Normalization) : Option (List Nat) :=
      ((⟨s, none⟩ : StandardForm 2 Float).eigenvectors norm [false, true]).toOption.map
        Eigenvectors.failed
    s.IsFinite ∧ failed .maxAbs = some [] ∧ failed .euclidean = some [1] := by
  decide +kernel

end SchurForm
