import SchurForm.Binary64
import SchurForm.Proofs.PencilShift

/-!
# Eigenvectors of a pencil

The vector computed for a diagonal block is, up to normalization, an exact null vector of the pencil
shifted by the coefficients of the eigenvalue, after the diagonal blocks above it have been
perturbed by no more than the floor for pivots allows. Infinite eigenvalues are no exception. The
rest of the vector is rescaled only when the scale of a solution is below one; that is enough as
long as no coefficient of a block of order two above exceeds the reciprocal of twice the least
normal number, and for conjugate pairs none does.
-/

namespace SchurForm

open Scalar Block Matrix

variable {n rows : Nat}

/-- The coefficients stand for the eigenvalue of a block: for a real one as a quotient, which may be
infinite but not undefined, for a pair as a multiple of the eigenvalue with positive imaginary
part. -/
def PencilShift.StandsFor (shift : PencilShift ℝ) (s t : Mat n n ℝ) : Block ℝ → Prop
  | .real k => shift.im = 0 ∧ (shift.a ≠ 0 ∨ shift.re ≠ 0) ∧
      shift.a * s.get k k = shift.re * t.get k k
  | .pair _ re im => 0 < im ∧ 0 < shift.a ∧ shift.re = shift.a * re ∧ shift.im = shift.a * im

namespace PencilSweep

variable (sweep : PencilSweep n ℝ) {shift : PencilShift ℝ} {floor : ℝ}

section Entries

variable {sweep}

/-- The shifted pencil has the cuts that both matrices have. -/
theorem cutAt_entry {t : Nat} (hs : sweep.s.IsCut t) (ht : sweep.t.IsCut t) :
    CutAt (sweep.entry shift) t := by
  intro i c hi hc
  rw [entry, hs i c hi hc, ht i c hi hc]
  simp

/-- Without an imaginary part all entries are real. -/
theorem im_entry (h : shift.im = 0) (i c : Nat) : (sweep.entry shift i c).im = 0 := by
  simp [entry, PencilShift.b, h]

/-- The equation of a block has the entries of the shifted pencil as its coefficients. -/
theorem coefficient_equation {b : Block ℝ} (hdiagonal : b.size = 2 → sweep.t.DiagonalAt b.start)
    {i c : Nat} (hi : i < b.size) (hc : c < b.size) :
    (sweep.equation shift floor b.start b.size).coefficient i c =
      sweep.entry shift (b.start + i) (b.start + c) := by
  have hsizes := b.size_cases
  rcases eq_or_ne i c with rfl | hne
  · have hd : (sweep.equation shift floor b.start b.size).d i =
        sweep.t.get (b.start + i) (b.start + i) := by
      obtain rfl | ⟨rfl, hsize⟩ : i = 0 ∨ i = 1 ∧ b.size = 2 := by omega
      · rfl
      · simp [ShiftedEquation.d, equation, hsize]
    apply Complex.ext <;>
      simp [ShiftedEquation.coefficient, ShiftedEquation.coefficientRe,
        ShiftedEquation.coefficientIm, hi, hd, entry, PencilShift.b] <;>
      simp [equation, Mat.block, hi]
  · have hoff : sweep.t.get (b.start + i) (b.start + c) = 0 := by
      obtain ⟨hupper, hlower⟩ := hdiagonal (by omega)
      obtain ⟨rfl, rfl⟩ | ⟨rfl, rfl⟩ : i = 0 ∧ c = 1 ∨ i = 1 ∧ c = 0 := by omega
      · exact hupper
      · exact hlower
    apply Complex.ext <;>
      simp [ShiftedEquation.coefficient, ShiftedEquation.coefficientRe,
        ShiftedEquation.coefficientIm, equation, Mat.block, hi, hc, hne, entry, PencilShift.b, hoff]

/-- No solution is scaled up as long as the coefficients of a block of order two are not too
large. -/
theorem scale_le_one {b : Block ℝ} {right : Mat 2 2 ℝ} {e : Nat → Nat → ℂ}
    {solution : ShiftedSolution ℝ} (hdiagonal : b.size = 2 → sweep.t.DiagonalAt b.start)
    (hlarge : b.size = 2 → ∀ i < b.size, ∀ c < b.size,
      magnitude (sweep.entry shift (b.start + i) (b.start + c)) ≤ ShiftedEquation.largest)
    (h : (sweep.equation shift floor b.start b.size).SolvedNear right e solution) :
    solution.scale ≤ 1 := by
  refine h.scale_le_one fun htwo i c => ?_
  by_cases hic : i < b.size ∧ c < b.size
  · rw [coefficient_equation hdiagonal hic.1 hic.2]
    exact hlarge htwo i hic.1 c hic.2
  · have hzero : (sweep.equation shift floor b.start b.size).coefficient i c = 0 := by
      apply Complex.ext <;>
        simp [ShiftedEquation.coefficient, ShiftedEquation.coefficientRe,
          ShiftedEquation.coefficientIm, hic]
    rw [hzero, magnitude_zero]
    exact ShiftedEquation.largest_pos.le

end Entries

/-- Subtracting a column takes effect in the rows above the block. -/
theorem entry_subtractColumn (shift : PencilShift ℝ) {j : Nat} (hj : j ≤ rows)
    (x : LeadingVector rows ℝ) (c i : Nat) :
    (sweep.subtractColumn shift j x c).entry i =
      if i < j then x.entry i - sweep.entry shift i c * x.entry c else x.entry i := by
  split
  · rename_i hij
    have hi : i < rows := hij.trans_le hj
    apply Complex.ext
    · simp [LeadingVector.entry, subtractColumn, hi, hij, entry, PencilShift.b]
    · simp [LeadingVector.entry, subtractColumn, hi, hij, entry, PencilShift.b]
      ring
  · rename_i hij
    by_cases hi : i < rows
    · apply Complex.ext <;> simp [LeadingVector.entry, subtractColumn, hi, hij]
    · have hi := Nat.le_of_not_lt hi
      rw [LeadingVector.entry_of_le _ hi, LeadingVector.entry_of_le _ hi]

/-- A vector with the rows of a block replaced by their solution, the rest multiplied by the scale
if that is below one. -/
noncomputable def withSolution (x : LeadingVector rows ℝ) (b : Block ℝ)
    (solution : ShiftedSolution ℝ) : LeadingVector rows ℝ :=
  { (if solution.scale < 1 then x.scaledBy solution.scale else x).setRows b.start b.size solution.x
    with perturbed := x.perturbed || solution.perturbed }

section Solution

variable {b : Block ℝ} (x : LeadingVector rows ℝ) (solution : ShiftedSolution ℝ)

/-- The rows of a block hold the solution of its equation. -/
theorem entry_withSolution_inside (hrows : b.stop ≤ rows) {r : Nat} (hr : r < b.size) :
    (withSolution x b solution).entry (b.start + r) = solution.x.complexRow r :=
  LeadingVector.entry_setRows_inside _ solution.x hr ((Nat.add_lt_add_left hr _).trans_le hrows)

/-- Multiplying by the scales below one is multiplying by all of them if none exceeds one. -/
theorem entry_withSolution_outside (hscale : solution.scale ≤ 1) {i : Nat}
    (hi : i < b.start ∨ b.stop ≤ i) :
    (withSolution x b solution).entry i = solution.scale * x.entry i := by
  have hkept := (if solution.scale < 1 then x.scaledBy solution.scale else x).entry_setRows_outside
    solution.x hi
  refine hkept.trans ?_
  split
  · exact x.entry_times solution.scale i
  · have hone : solution.scale = 1 := le_antisymm hscale (not_lt.mp ‹_›)
    rw [hone, Complex.ofReal_one, one_mul]

end Solution

/-- Once the rows of a block have their solution, a step multiplies everything by one more positive
number and subtracts the contribution of these rows from the rows above. -/
theorem exists_step_eq {b : Block ℝ} {st : Rising rows ℝ} {solution : ShiftedSolution ℝ}
    (hrows : b.stop ≤ rows) (hsolution : solution =
      (sweep.equation shift floor b.start b.size).solve (st.x.rowsOf b.start b.size)) :
    ∃ (shrink : ℝ) (shrunk : LeadingVector rows ℝ), 0 < shrink ∧
      (∀ i, shrunk.entry i = shrink * (withSolution st.x b solution).entry i) ∧
      (∀ i, (sweep.step shift floor st b).x.entry i =
        if i < b.start then shrunk.entry i - ∑ r ∈ Finset.range b.size,
          sweep.entry shift i (b.start + r) * shrunk.entry (b.start + r)
        else shrunk.entry i) ∧
      (sweep.step shift floor st b).x.perturbed = (st.x.perturbed || solution.perturbed) := by
  subst hsolution
  set solution := (sweep.equation shift floor b.start b.size).solve (st.x.rowsOf b.start b.size)
  set bound := maxNum (solution.scale * st.bound) solution.norm
  set solved := withSolution st.x b solution
  by_cases hstart : 0 < b.start
  · set shrinks := decide ((1 : ℝ) / (minPositive * (n : ℝ)) * (1 / maxNum bound 1) <
      sweep.contribution shift b.start b.size)
    set shrunk := if shrinks then solved.scaledBy (1 / maxNum bound 1) else solved with hshrunk
    have hstep : (sweep.step shift floor st b).x = (List.range b.size).foldl
        (fun y r => sweep.subtractColumn shift b.start y (b.start + r)) shrunk := by
      simp only [step, hstart, if_true]
      rfl
    obtain ⟨shrink, hshrink, hentry⟩ : ∃ shrink : ℝ, 0 < shrink ∧
        ∀ i, shrunk.entry i = shrink * solved.entry i := by
      rw [hshrunk]
      split
      · have hbound : 0 < maxNum bound 1 := by
          rw [maxNum_real]
          exact one_pos.trans_le (le_max_right _ _)
        exact ⟨_, one_div_pos.mpr hbound, solved.entry_times _⟩
      · exact ⟨1, one_pos, fun i => by rw [Complex.ofReal_one, one_mul]⟩
    refine ⟨shrink, shrunk, hshrink, hentry, fun i => ?_, ?_⟩
    · rw [hstep]
      exact entry_foldl_subtract shrunk
        (sweep.entry_subtractColumn shift ((Nat.le_add_right _ _).trans hrows)) b.size i
    · rw [hstep, perturbed_foldl_subtract shrunk
        (fun y r => sweep.subtractColumn shift b.start y (b.start + r)) (fun _ _ => rfl), hshrunk]
      split <;> rfl
  -- There are no rows above the first block, and nothing is shrunk for it.
  · have hstep : (sweep.step shift floor st b).x = solved := by
      simp only [step, hstart, if_false]
      rfl
    refine ⟨1, solved, one_pos, fun i => ?_, fun i => ?_, by rw [hstep]; rfl⟩
    · rw [Complex.ofReal_one, one_mul]
    · rw [hstep, if_neg (by omega)]

/-- A step of the sweep solves for one block, provided the coefficients of a block of order two are
not too large. -/
theorem exists_step_raised {b : Block ℝ} {st : Rising rows ℝ} (hrows : b.stop ≤ rows)
    (hdiagonal : b.size = 2 → sweep.t.DiagonalAt b.start)
    (hlarge : b.size = 2 → ∀ i < b.size, ∀ c < b.size,
      magnitude (sweep.entry shift (b.start + i) (b.start + c)) ≤ ShiftedEquation.largest)
    (hreal : shift.im = 0 → st.x.IsReal) :
    ∃ factor e, Raised (sweep.entry shift) (shift.im = 0)
      (2 * max floor ShiftedEquation.leastFloor) b st.x (sweep.step shift floor st b).x
      factor e := by
  set eqn := sweep.equation shift floor b.start b.size with heqn
  obtain ⟨e, hsolved⟩ := ShiftedEquation.exists_solvedNear (b := st.x.rowsOf b.start b.size)
    b.size_cases eqn fun hshift => (hreal hshift).rowsOf b.start b.size
  set solution := eqn.solve (st.x.rowsOf b.start b.size) with hsolution
  have hscale : solution.scale ≤ 1 := scale_le_one hdiagonal hlarge hsolved
  obtain ⟨shrink, shrunk, hshrink, hshrunk, hupdate, hperturbed⟩ :=
    sweep.exists_step_eq hrows hsolution
  have houtside (i : Nat) (hi : i < b.start ∨ b.stop ≤ i) :
      shrunk.entry i = (solution.scale * shrink : ℝ) * st.x.entry i := by
    rw [hshrunk, entry_withSolution_outside st.x solution hscale hi]
    push_cast
    ring
  have hinside (r : Nat) (hr : r < b.size) :
      shrunk.entry (b.start + r) = shrink * solution.x.complexRow r := by
    rw [hshrunk, entry_withSolution_inside st.x solution hrows hr]
  have hraised := Raised.of_solvedNear hsolved hshrink
    (fun i hi c hc => coefficient_equation hdiagonal hi hc)
    (fun hshift => ⟨hreal hshift, im_entry hshift⟩) hinside houtside hupdate hperturbed
  rw [ShiftedEquation.effectiveFloor, maxNum_real] at hraised
  exact ⟨_, e, hraised⟩

section Starts

variable {sweep} {k : Nat} {bound : ℝ}

/-- A real eigenvalue starts from a unit entry in its row. -/
theorem startReal_ascent (hbound : 0 ≤ bound)
    (hstands : shift.StandsFor sweep.s sweep.t (.real k)) :
    Ascent (sweep.entry shift) (shift.im = 0) bound [] k (sweep.startReal shift k).x 0 := by
  obtain ⟨him, -, hshift⟩ := hstands
  have hone : (sweep.startReal shift k).x.entry k = 1 := by
    apply Complex.ext <;> simp [LeadingVector.entry, startReal, Vec.zero]
  refine Ascent.start (b := .real k) rfl hbound ⟨0, one_pos, ?_⟩ (fun i hi => ?_) (fun r hr => ?_)
    fun _ i => by simp [startReal, Vec.zero]
  · exact hone.symm ▸ one_ne_zero
  · have hi : i < k := hi
    have hrows : i < k + 1 := Nat.lt_succ_of_lt hi
    simp only [size, start, Finset.sum_range_one, Nat.add_zero, hone, mul_one]
    apply Complex.ext <;>
      simp [LeadingVector.entry, startReal, Vec.zero, hrows, hi.ne, entry, PencilShift.b, him]
  · obtain rfl : r = 0 := Nat.lt_one_iff.mp hr
    simp only [size, start, Finset.sum_range_one, Nat.add_zero, hone, mul_one]
    apply Complex.ext
    · simp [entry, PencilShift.b, hshift]
    · simp [entry, PencilShift.b, him]

variable {re im : ℝ} (hstands : shift.StandsFor sweep.s sweep.t (.pair k re im))

include hstands

/-- The shift of a pair is not real. -/
theorem im_ne_zero_of_pair : shift.im ≠ 0 := by
  obtain ⟨him, ha, -, him_eq⟩ := hstands
  exact him_eq ▸ (mul_pos ha him).ne'

variable (hdiagonal : sweep.t.DiagonalAt k) (hpair : pencilPairAt sweep.s sweep.t k = some (re, im))

include hdiagonal hpair

/-- The block of a pair is singular after the shift. -/
theorem entry_mul_entry : sweep.entry shift k k * sweep.entry shift (k + 1) (k + 1) =
    sweep.entry shift k (k + 1) * sweep.entry shift (k + 1) k := by
  have hfound : pencilPairAt sweep.s sweep.t k ≠ none := hpair.trans_ne (Option.some_ne_none _)
  obtain ⟨h0, h1⟩ := diagonal_ne_zero_of_pencilPairAt hfound
  obtain ⟨-, hdet⟩ := characteristic_of_complexEigenvalue?
    ((pencilPairAt_eq_complexEigenvalue? hfound).symm.trans hpair)
  obtain ⟨-, -, hre, him⟩ := hstands
  have hb : shift.b = shift.a * (⟨re, im⟩ : ℂ) := by
    apply Complex.ext <;> simp [PencilShift.b, hre, him]
  have h0 : (sweep.t.get k k : ℂ) ≠ 0 := by exact_mod_cast h0
  have h1 : (sweep.t.get (k + 1) (k + 1) : ℂ) ≠ 0 := by exact_mod_cast h1
  simp only [entry, hb, hdiagonal.1, hdiagonal.2, Complex.ofReal_zero, mul_zero, sub_zero]
  push_cast at hdet
  field_simp at hdet
  linear_combination (shift.a : ℂ) ^ 2 * hdet

/-- The starting vector of a pair is a null vector of its block. -/
theorem pairNullVector_spec :
    let start := sweep.pairNullVector shift k
    NullVectorTwo (sweep.entry shift k k) (sweep.entry shift k (k + 1))
      (sweep.entry shift (k + 1) k) (sweep.entry shift (k + 1) (k + 1)) ⟨start.1.1, start.2.1⟩
      ⟨start.1.2, start.2.2⟩ := by
  intro start
  have hdet := entry_mul_entry hstands hdiagonal hpair
  obtain ⟨h0, h1⟩ := diagonal_ne_zero_of_pencilPairAt (hpair.trans_ne (Option.some_ne_none _))
  have hentry (i : Nat) : sweep.entry shift i i =
      ⟨shift.a * sweep.s.get i i - shift.re * sweep.t.get i i, -shift.im * sweep.t.get i i⟩ := by
    apply Complex.ext <;> simp [entry, PencilShift.b]
  have hentry_ne (i : Nat) (hi : sweep.t.get i i ≠ 0) : sweep.entry shift i i ≠ 0 := by
    intro hzero
    exact mul_ne_zero (neg_ne_zero.mpr (im_ne_zero_of_pair hstands)) hi
      (congrArg Complex.im ((hentry i).symm.trans hzero))
  have hproduct := mul_ne_zero (hentry_ne _ h0) (hentry_ne _ h1)
  rw [hdet] at hproduct
  -- The entries off the diagonal are real, so the quotients are taken part by part.
  obtain ⟨upper, hupper⟩ : ∃ upper : ℝ, shift.a * sweep.s.get k (k + 1) = upper := ⟨_, rfl⟩
  obtain ⟨lower, hlower⟩ : ∃ lower : ℝ, shift.a * sweep.s.get (k + 1) k = lower := ⟨_, rfl⟩
  have hentry_upper : sweep.entry shift k (k + 1) = upper := by
    simp [entry, hdiagonal.1, ← hupper]
  have hentry_lower : sweep.entry shift (k + 1) k = lower := by
    simp [entry, hdiagonal.2, ← hlower]
  by_cases hlarge : |shift.a * sweep.s.get (k + 1) (k + 1) -
      shift.re * sweep.t.get (k + 1) (k + 1)| + |-shift.im * sweep.t.get (k + 1) (k + 1)| ≤
        |shift.a * sweep.s.get (k + 1) k|
  · have hstart : start = _ := if_pos hlarge
    have hx : (⟨start.1.1, start.2.1⟩ : ℂ) =
        -(sweep.entry shift (k + 1) (k + 1) * 1) / sweep.entry shift (k + 1) k := by
      rw [hentry_lower, hentry]
      apply Complex.ext <;> simp [hstart, hlower, Complex.div_ofReal_re, Complex.div_ofReal_im]
    have hy : (⟨start.1.2, start.2.2⟩ : ℂ) = 1 := by
      apply Complex.ext <;> simp [hstart]
    rw [hx, hy]
    exact NullVectorTwo.of_lower hdet (right_ne_zero_of_mul hproduct) one_ne_zero
  · have hstart : start = _ := if_neg hlarge
    have hx : (⟨start.1.1, start.2.1⟩ : ℂ) = 1 := by
      apply Complex.ext <;> simp [hstart]
    have hy : (⟨start.1.2, start.2.2⟩ : ℂ) =
        -(sweep.entry shift k k * 1) / sweep.entry shift k (k + 1) := by
      rw [hentry_upper, hentry]
      apply Complex.ext <;> simp [hstart, hupper, Complex.div_ofReal_re, Complex.div_ofReal_im]
    rw [hx, hy]
    exact NullVectorTwo.of_upper hdet (left_ne_zero_of_mul hproduct) one_ne_zero

/-- A pair starts from a null vector of its block. -/
theorem startPair_ascent (hbound : 0 ≤ bound) :
    Ascent (sweep.entry shift) (shift.im = 0) bound [] k (sweep.startPair shift k).x 0 := by
  have hspec := pairNullVector_spec hstands hdiagonal hpair
  set null := sweep.pairNullVector shift k with hnull
  set part : ℝ × ℝ → Vec (k + 2) ℝ := fun x => Vec.ofFn fun i =>
    if i = k then x.1 else if i = k + 1 then x.2 else 0 with hpart
  set block : LeadingVector (k + 2) ℝ :=
    { re := part null.1, im := part null.2, scale := 1, perturbed := false } with hblock
  have hstart : (sweep.startPair shift k).x = (List.range 2).foldl
      (fun y r => sweep.subtractColumn shift k y (k + r)) block := rfl
  have hentry (i : Nat) := entry_foldl_subtract block
    (sweep.entry_subtractColumn shift (Nat.le_add_right k 2)) 2 i
  simp only [← hstart, Finset.sum_range_succ, Finset.sum_range_zero, zero_add, Nat.add_zero]
    at hentry
  have hx : block.entry k = ⟨null.1.1, null.2.1⟩ := by
    apply Complex.ext <;> simp [LeadingVector.entry, hblock, hpart]
  have hy : block.entry (k + 1) = ⟨null.1.2, null.2.2⟩ := by
    apply Complex.ext <;> simp [LeadingVector.entry, hblock, hpart]
  have hstart_x : (sweep.startPair shift k).x.entry k = ⟨null.1.1, null.2.1⟩ := by
    rw [hentry, if_neg (lt_irrefl k), hx]
  have hstart_y : (sweep.startPair shift k).x.entry (k + 1) = ⟨null.1.2, null.2.2⟩ := by
    rw [hentry, if_neg (by omega), hy]
  refine Ascent.start_pair hbound ?_ (fun i hi => ?_) (im_ne_zero_of_pair hstands)
  · rw [hstart_x, hstart_y]
    exact hspec
  · have habove : block.entry i = 0 := by
      have hrows : i < k + 2 := by omega
      have hi₁ : i ≠ k + 1 := by omega
      apply Complex.ext <;> simp [LeadingVector.entry, hblock, hpart, hrows, hi.ne, hi₁]
    rw [hstart_x, hstart_y, hentry, if_pos hi, habove, hx, hy, zero_sub]

end Starts

section Vectors

variable {front back : List (Block ℝ)} {b : Block ℝ}

/-- The coefficients for the eigenvalue of a block. -/
noncomputable def shiftOf : Block ℝ → PencilShift ℝ
  | .real k => sweep.shiftOfRealAt k
  | .pair _ re im => sweep.shiftOfPair re im

/-- A shifted pencil as a complex matrix. -/
noncomputable def shifted (shift : PencilShift ℝ) : Matrix (Fin n) (Fin n) ℂ :=
  (shift.a : ℂ) • sweep.s.toMatrix.map Complex.ofReal -
    shift.b • sweep.t.toMatrix.map Complex.ofReal

/-- The entries of a sweep make up the shifted pencil. -/
theorem of_entry : (Matrix.of fun i j : Fin n => sweep.entry shift i j) = sweep.shifted shift := by
  ext i j
  simp [entry, shifted]

/-- Twice the floor that the equations for a shift use. -/
noncomputable def perturbationBound (shift : PencilShift ℝ) : ℝ :=
  two * max (sweep.pivotFloor shift) ShiftedEquation.leastFloor

/-- The bound for perturbations is twice the floor for pivots. -/
theorem perturbationBound_eq (shift : PencilShift ℝ) : sweep.perturbationBound shift =
    2 * max (max (epsilon * |shift.a| * sweep.normS) (epsilon * magnitude shift.b * sweep.normT))
      (2 * minPositive) := by
  have hleast : (minPositive : ℝ) ≤ 2 * minPositive := by linarith [minPositive_pos]
  rw [perturbationBound, pivotFloor, maxNum_real, maxNum_real, ShiftedEquation.leastFloor, two_real,
    max_assoc, max_eq_right hleast]
  rfl

/-- The bound for perturbations is not negative. -/
theorem perturbationBound_nonneg (shift : PencilShift ℝ) : 0 ≤ sweep.perturbationBound shift := by
  rw [perturbationBound, two_real]
  exact mul_nonneg two_pos.le (ShiftedEquation.leastFloor_pos.le.trans (le_max_right _ _))

variable {sweep}

/-- A sweep from a null vector of a block finds a null vector of the shifted pencil. -/
theorem exists_climb_nearNullVector (h : sweep.s.PencilClassified sweep.t (front ++ b :: back))
    (hrows : b.stop = rows) (hlarge : ∀ c ∈ front, c.size = 2 → ∀ i < c.size, ∀ j < c.size,
      magnitude (sweep.entry shift (c.start + i) (c.start + j)) ≤ ShiftedEquation.largest)
    {start : Rising rows ℝ} (hstart : Ascent (sweep.entry shift) (shift.im = 0)
      (sweep.perturbationBound shift) [] b.start start.x 0) :
    ∃ e, NearNullVector (sweep.shifted shift) front rows (sweep.perturbationBound shift)
      (shift.im = 0) (sweep.climb shift start front.reverse).perturbed e
      ((sweep.climb shift start front.reverse).inRows n) := by
  have hcuts : ∀ c ∈ front ++ b :: back,
      CutAt (sweep.entry shift) c.start ∧ CutAt (sweep.entry shift) c.stop := by
    intro c hc
    obtain ⟨hfirst_s, hlast_s⟩ := h.cuts_s.isCut_block h.tiles hc
    obtain ⟨hfirst_t, hlast_t⟩ := h.cuts_t.isCut_block h.tiles hc
    exact ⟨cutAt_entry hfirst_s hfirst_t, cutAt_entry hlast_s hlast_t⟩
  have hrise : ∀ c ∈ front, ∀ st : Rising rows ℝ, (shift.im = 0 → st.x.IsReal) →
      ∃ factor e, Raised (sweep.entry shift) (shift.im = 0) (sweep.perturbationBound shift) c st.x
        (sweep.step shift (sweep.pivotFloor shift) st c).x factor e := by
    intro c hc st hx
    rw [perturbationBound, two_real]
    have hstop : c.stop ≤ b.start := h.tiles.stop_le_start hc
    exact sweep.exists_step_raised (hstop.trans (hrows ▸ Nat.le_add_right _ _))
      (h.diagonal c (List.mem_append_left _ hc)) (hlarge c hc) hx
  rw [← of_entry]
  exact exists_nearNullVector Rising.x hrows h.tiles hcuts hrise hstart

/-- The coefficients used for a pair stand for its eigenvalue. -/
theorem Normed.standsFor_shiftOfPair (hnormed : sweep.Normed) {k : Nat} {re im : ℝ}
    (hpair : pencilPairAt sweep.s sweep.t k = some (re, im)) :
    (sweep.shiftOfPair re im).StandsFor sweep.s sweep.t (.pair k re im) := by
  obtain ⟨a, ha, hshift, -⟩ := hnormed.exists_shiftOfPair_eq re im
  have hfound : pencilPairAt sweep.s sweep.t k ≠ none := hpair.trans_ne (Option.some_ne_none _)
  obtain ⟨him, -⟩ := characteristic_of_complexEigenvalue?
    ((pencilPairAt_eq_complexEigenvalue? hfound).symm.trans hpair)
  rw [hshift]
  exact ⟨him, ha, rfl, rfl⟩

/-- The coefficients used for a block stand for its eigenvalue. -/
theorem Normed.standsFor_shiftOf (hnormed : sweep.Normed) {blocks : List (Block ℝ)}
    (h : sweep.s.PencilClassified sweep.t blocks) (hn : n < 2 ^ 64) (hb : b ∈ blocks)
    (hdegenerate : b.isPair = false → sweep.degenerate b.start = false) :
    (sweep.shiftOf b).StandsFor sweep.s sweep.t b := by
  cases b with
  | real k =>
    have hpos : 0 < n := (Nat.succ_pos k).trans_le (h.tiles.stop_le hb)
    obtain ⟨factor, hfactor, hshift⟩ :=
      hnormed.exists_shiftOfReal_eq hpos hn (sweep.s.get k k) (sweep.t.get k k)
    have hne : sweep.t.get k k ≠ 0 ∨ sweep.s.get k k ≠ 0 := by
      by_contra hzero
      rw [not_or, not_not, not_not] at hzero
      have hunusable := hdegenerate rfl
      simp [degenerate, start, hzero.1, hzero.2, minPositive_pos.le] at hunusable
    change PencilShift.StandsFor (sweep.shiftOfReal _ _) _ _ _
    rw [hshift]
    refine ⟨rfl, ?_, ?_⟩
    · exact hne.imp (mul_ne_zero hfactor.ne') (mul_ne_zero hfactor.ne')
    · dsimp only
      ring
  | pair k re im => exact hnormed.standsFor_shiftOfPair (h.pairs _ hb)

/-- The vector of a block is a null vector of the shifted pencil. -/
theorem Normed.exists_vector_nearNullVector (hnormed : sweep.Normed) (front : List (Block ℝ))
    (b : Block ℝ) (back : List (Block ℝ))
    (h : sweep.s.PencilClassified sweep.t (front ++ b :: back)) (hn : n < 2 ^ 64)
    (hdegenerate : b.isPair = false → sweep.degenerate b.start = false)
    (hlarge : b.isPair = false → ∀ c ∈ front, c.size = 2 → ∀ i < c.size, ∀ j < c.size,
      magnitude (sweep.entry (sweep.shiftOf b) (c.start + i) (c.start + j)) ≤
        ShiftedEquation.largest) :
    ∃ e, NearNullVector (sweep.shifted (sweep.shiftOf b)) front b.stop
      (sweep.perturbationBound (sweep.shiftOf b)) (b.isPair = false)
      (sweep.vector b front.reverse).perturbed e ((sweep.vector b front.reverse).inRows n) := by
  have hb : b ∈ front ++ b :: back := by simp
  have hstands := hnormed.standsFor_shiftOf h hn hb hdegenerate
  have hbound := sweep.perturbationBound_nonneg (sweep.shiftOf b)
  cases b with
  | real k =>
    have hvector : sweep.vector (.real k) front.reverse = sweep.climb (sweep.shiftOf (.real k))
        (sweep.startReal (sweep.shiftOf (.real k)) k) front.reverse :=
      if_neg (Bool.not_eq_true _ ▸ hdegenerate rfl)
    obtain ⟨e, he⟩ := exists_climb_nearNullVector h (b := .real k) rfl (hlarge rfl)
      (startReal_ascent hbound hstands)
    rw [hvector]
    exact ⟨e, { he with real := fun _ => he.real hstands.1 }⟩
  | pair k re im =>
    obtain ⟨e, he⟩ := exists_climb_nearNullVector h (b := .pair k re im) rfl
      (fun c _ _ i _ j _ => hnormed.magnitude_entry_shiftOfPair_le re im _ _)
      (startPair_ascent hstands (h.diagonal _ hb rfl) (h.pairs _ hb) hbound)
    exact ⟨e, { he with real := fun hreal => Bool.noConfusion hreal }⟩

end Vectors

end PencilSweep

/-- For every selected block of a pencil that does not fail and is not degenerate, the coefficients
used stand for its eigenvalue, finite or not, and the returned column or pair of columns has length
one and is, up to this normalization and expanded by the right factor if there is one, a null vector
of the shifted pencil with perturbations of the blocks above that are bounded by twice the floor for
pivots, and zero if no pivot was perturbed. For a real eigenvalue this asks that the coefficients of
the blocks of order two above do not exceed the largest number that a solution is scaled for: beyond
it the scale of a solution can exceed one, and the rest of the vector does not follow. The order is
one that a machine word holds. -/
theorem PencilForm.eigenvectors_shiftedNullVector (norm : Normalization) (form : PencilForm n ℝ)
    (selected : List Bool) (blocks : List (Block ℝ)) (count : Nat) (hn : n < 2 ^ 64)
    (hblocks : pencilBlocks form.s form.t = .ok blocks)
    (hselected : checkSelection blocks selected 2 = .ok count) :
    ∃ r, form.eigenvectors norm selected = .ok r ∧
      ∀ front b back, blocks = front ++ b :: back → flagAt selected b.start = true →
        b.start ∉ r.failed →
        let sweep := PencilSweep.ofPencil form.s form.t blocks
        let shift := sweep.shiftOf b
        let column :=
          r.vectorAt (totalSize (front.filter fun c => flagAt selected c.start)) b.isPair
        (b.isPair = false → sweep.degenerate b.start = false ∧
          ∀ c ∈ front, c.size = 2 → ∀ i < c.size, ∀ j < c.size,
            magnitude (shift.a * form.s.get (c.start + i) (c.start + j) -
              shift.b * form.t.get (c.start + i) (c.start + j)) ≤ ShiftedEquation.largest) →
        shift.StandsFor form.s form.t b ∧
        ∃ e x, NearNullVector ((shift.a : ℂ) • form.s.toMatrix.map Complex.ofReal -
              shift.b • form.t.toMatrix.map Complex.ofReal) front b.stop
            (2 * max (max (epsilon * |shift.a| * form.s.columnNorm)
              (epsilon * magnitude shift.b * form.t.columnNorm)) (2 * minPositive))
            (b.isPair = false) (sweep.vector b front.reverse).perturbed e x ∧
          (∀ i, column i = expanded form.z x i / norm.length (expanded form.z x)) ∧
          norm.length column = 1 := by
  refine ⟨_, eigenvectors_eq_ok hblocks hselected, ?_⟩
  intro front b back hsplit hflag hfailed sweep shift column husable
  subst hsplit
  have hclassified := classified_of_pencilBlocks hblocks
  have hnormed := PencilSweep.normed_ofPencil form.s form.t (front ++ b :: back)
  have hb : b ∈ front ++ b :: back := by simp
  have hstop : b.stop ≤ n := hclassified.tiles.stop_le hb
  obtain ⟨e, he⟩ := hnormed.exists_vector_nearNullVector front b back hclassified hn
    (fun hreal => (husable hreal).1) fun hreal => (husable hreal).2
  rw [PencilSweep.perturbationBound_eq] at he
  obtain ⟨hcolumn, hlength⟩ := he.column_eq hstop hflag hfailed
  exact ⟨hnormed.standsFor_shiftOf hclassified hn hb fun hreal => (husable hreal).1, e, _, he,
    hcolumn, hlength⟩

section Example

/-- A pencil with an infinite eigenvalue in its second row. -/
noncomputable def infiniteBelow : PencilForm 2 ℝ :=
  { s := Mat.ofRows2 1 1 0 1, t := Mat.ofRows2 1 1 0 0, q := none, z := none }

/-- The largest column sum of a matrix of order two. -/
theorem columnNorm_ofRows2 (a b c d : ℝ) :
    (Mat.ofRows2 a b c d).columnNorm = max (|a| + |c|) (|b| + |d|) := by
  have hfirst : 0 ≤ |a| + |c| := add_nonneg (abs_nonneg _) (abs_nonneg _)
  simp [Mat.columnNorm, maxTo, Mat.columnSumAbove, sumTo, Mat.ofRows2, hfirst]

/-- The coefficients for the infinite eigenvalue. -/
theorem shiftOf_infiniteBelow :
    (PencilSweep.ofPencil infiniteBelow.s infiniteBelow.t [.real 0, .real 1]).shiftOf (.real 1) =
      ⟨0, 1, 0⟩ := by
  have hmin : (minPositive : ℝ) ≤ 1 / 4 := minPositive_le
  have hsmall : ¬ (1 : ℝ) < minPositive * 2 / epsilon := by
    rw [not_lt, div_le_iff₀ epsilon_pos]
    nlinarith [minPositive_le_epsilon_sq, epsilon_le, epsilon_pos]
  have hleast : ¬ (minPositive : ℝ) ≤ 0 := not_le.mpr minPositive_pos
  have hnormS : infiniteBelow.s.columnNorm = 2 := by
    rw [infiniteBelow, columnNorm_ofRows2]
    norm_num
  have hnormT : infiniteBelow.t.columnNorm = 1 := by
    rw [infiniteBelow, columnNorm_ofRows2]
    norm_num
  have hmaxS : max (2 : ℝ) minPositive = 2 := max_eq_left (by linarith)
  have hmaxT : max (1 : ℝ) minPositive = 1 := max_eq_left (by linarith)
  have htemp : max (1 / 2 : ℝ) minPositive = 1 / 2 := max_eq_left (by linarith)
  have hs : infiniteBelow.s.get 1 1 = 1 := by simp [infiniteBelow, Mat.ofRows2]
  have ht : infiniteBelow.t.get 1 1 = 0 := by simp [infiniteBelow, Mat.ofRows2]
  simp only [PencilSweep.shiftOf, PencilSweep.shiftOfRealAt, PencilSweep.ofPencil, hnormS, hnormT,
    hs, ht, PencilSweep.shiftOfReal, maxNum_real, hmaxS, hmaxT, abs_real]
  norm_num [htemp, hsmall, hleast]

/-- The infinite eigenvalue of the example is not degenerate. -/
theorem degenerate_infiniteBelow :
    (PencilSweep.ofPencil infiniteBelow.s infiniteBelow.t [.real 0, .real 1]).degenerate 1 =
      false := by
  have hone : ¬ (1 : ℝ) ≤ minPositive := by linarith [minPositive_le]
  simp [PencilSweep.degenerate, PencilSweep.ofPencil, infiniteBelow, Mat.ofRows2, hone]

/-- The vector of the infinite eigenvalue is found without rescaling. -/
theorem scale_vector_infiniteBelow :
    ((PencilSweep.ofPencil infiniteBelow.s infiniteBelow.t [.real 0, .real 1]).vector (.real 1)
      [.real 0]).scale = 1 := by
  set sweep := PencilSweep.ofPencil infiniteBelow.s infiniteBelow.t [.real 0, .real 1] with hsweep
  have hdegenerate : ¬ sweep.degenerate 1 = true := by
    rw [hsweep, degenerate_infiniteBelow]
    decide
  have hvector : sweep.vector (.real 1) [.real 0] = (sweep.step (sweep.shiftOf (.real 1))
      (sweep.pivotFloor (sweep.shiftOf (.real 1)))
      (sweep.startReal (sweep.shiftOf (.real 1)) 1) (.real 0)).x := if_neg hdegenerate
  have hshift : sweep.shiftOf (.real 1) = ⟨0, 1, 0⟩ := shiftOf_infiniteBelow
  rw [hvector]
  set shift := sweep.shiftOf (.real 1)
  set eqn := sweep.equation shift (sweep.pivotFloor shift) 0 1
  -- The right-hand side of the row above is one, which is divided by any pivot without scaling.
  have hright : ((sweep.startReal shift 1).x.rowsOf 0 1).get 0 0 = 1 := by
    simp [LeadingVector.rowsOf, PencilSweep.startReal, hshift, hsweep, PencilSweep.ofPencil,
      infiniteBelow, Mat.ofRows2]
  have hscale : (eqn.solve ((sweep.startReal shift 1).x.rowsOf 0 1)).scale = 1 := by
    have him : eqn.shiftIm = 0 := congrArg PencilShift.im hshift
    simp [ShiftedEquation.solve, him, ShiftedEquation.solveRealOne, hright,
      ShiftedEquation.pivotScale]
  simp only [PencilSweep.step, start, size, hscale, lt_irrefl, if_false, eqn]
  rfl

/-- The eigenvector to the infinite eigenvalue of a pencil. -/
theorem PencilForm.eigenvectors_shiftedNullVector_infinite :
    ∃ r, infiniteBelow.eigenvectors .maxAbs [false, true] = .ok r ∧ 1 ∉ r.failed ∧
      (⟨0, 1, 0⟩ : PencilShift ℝ).StandsFor infiniteBelow.s infiniteBelow.t (.real 1) ∧ ∃ e x,
        NearNullVector (((0 : ℝ) : ℂ) • infiniteBelow.s.toMatrix.map Complex.ofReal -
            (⟨1, 0⟩ : ℂ) • infiniteBelow.t.toMatrix.map Complex.ofReal) [.real 0] 2
          (2 * max (max (epsilon * |0| * infiniteBelow.s.columnNorm)
            (epsilon * magnitude ⟨1, 0⟩ * infiniteBelow.t.columnNorm)) (2 * minPositive))
          (false = false)
          ((PencilSweep.ofPencil infiniteBelow.s infiniteBelow.t [.real 0, .real 1]).vector
            (.real 1) [.real 0]).perturbed e x ∧
        (∀ i, r.vectorAt 0 false i = x i / Normalization.maxAbs.length x) ∧
        Normalization.maxAbs.length (r.vectorAt 0 false) = 1 := by
  have hblocks : pencilBlocks infiniteBelow.s infiniteBelow.t = .ok [.real 0, .real 1] :=
    pencilBlocks_triangular_two 1 1 1 1 1 0
  obtain ⟨count, hselected⟩ := exists_checkSelection_two false true
  obtain ⟨r, hr, hvectors⟩ := PencilForm.eigenvectors_shiftedNullVector .maxAbs infiniteBelow
    [false, true] _ count (by norm_num) hblocks hselected
  set sweep := PencilSweep.ofPencil infiniteBelow.s infiniteBelow.t [.real 0, .real 1] with hsweep
  have hshift : sweep.shiftOf (.real 1) = ⟨0, 1, 0⟩ := shiftOf_infiniteBelow
  have hdegenerate : sweep.degenerate 1 = false := degenerate_infiniteBelow
  have hsizes : ∀ c ∈ ([.real 0] : List (Block ℝ)), ¬c.size = 2 := by decide
  have hvector : ∃ v : Eigenvector 2 ℝ,
      (sweep.vector (.real 1) [.real 0]).eigenvector? .maxAbs none false = some v := by
    have hnormed : sweep.Normed := PencilSweep.normed_ofPencil _ _ _
    obtain ⟨e, he⟩ := hnormed.exists_vector_nearNullVector [.real 0] (.real 1) []
      (classified_of_pencilBlocks hblocks) (by norm_num) (fun _ => hdegenerate)
      fun _ c hc htwo => absurd htwo (hsizes c hc)
    have hscale : (sweep.vector (.real 1) [.real 0]).scale = 1 := scale_vector_infiniteBelow
    refine LeadingVector.exists_eigenvector? le_rfl (he.isReal le_rfl) ?_ he.ne_zero
    linarith [minPositive_le]
  have hfailed : (Block.real 1 : Block ℝ).start ∉ r.failed := by
    obtain ⟨v, hv⟩ := hvector
    rw [PencilForm.eigenvectors_eq_ok hblocks hselected, Except.ok.injEq] at hr
    exact hr ▸ not_mem_failed_two hv
  obtain ⟨hstands, e, x, hnull, hcolumn, hlength⟩ :=
    hvectors [.real 0] (.real 1) [] rfl rfl hfailed fun _ =>
      ⟨hdegenerate, fun c hc htwo => absurd htwo (hsizes c hc)⟩
  rw [hshift] at hstands hnull
  exact ⟨r, hr, hfailed, hstands, e, x, hnull, hcolumn, hlength⟩

/-- A pencil of binary64 numbers with a large eigenvalue behind a conjugate pair. The coefficients
of the pair, shifted by that eigenvalue, exceed the largest number that a solution is scaled for. -/
def largeBehindPair : PencilForm 4 Float :=
  { s := Mat.ofFn fun i j =>
      if i = 0 ∧ j = 1 then 1 else if i = 1 ∧ j = 0 then -1
      else if i = 2 ∧ j = 2 then Binary64.powerOfTwo 1000 else if i = 3 ∧ j = 3 then 1 else 0
    t := Mat.ofFn fun i j =>
      if i = 0 ∧ j = 2 then 0.875
      else if i = j then
        if i < 2 then 0.75 else if i = 2 then Binary64.powerOfTwo (-1022) else 1
      else 0
    q := none, z := none }

/-- The bound on the coefficients of a pair cannot be left out. The column of the large eigenvalue
is returned as computed without a perturbation, but it is far from a null vector: its second entry
is zero, and in the first row of the pencil the first matrix has no other entry, so the second
matrix would have to map it to zero there. -/
theorem PencilForm.eigenvectors_largeBehindPair :
    let blocks := (pencilBlocks largeBehindPair.s largeBehindPair.t).toOption.getD []
    let sweep := PencilSweep.ofPencil largeBehindPair.s largeBehindPair.t blocks
    let result := (largeBehindPair.eigenvectors .maxAbs [false, false, true, false]).toOption
    blocks.map Block.start = [0, 2, 3] ∧ sweep.degenerate 2 = false ∧
      (sweep.vector (.real 2) (blocks.take 1)).perturbed = false ∧
      (result.map fun r => (r.failed, r.columns.map fun x =>
        x.get 0 == -1 && x.get 1 == 0 && decide (0.75 * x.get 0 + 0.875 * x.get 2 < -0.2))) =
          some ([], [true]) := by
  decide +kernel

end Example

end SchurForm
