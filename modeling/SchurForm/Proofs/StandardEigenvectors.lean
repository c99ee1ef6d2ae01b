import SchurForm.Proofs.EigenvectorColumns
import SchurForm.Proofs.PlaneNormalForms

/-!
# Eigenvectors of a standard form

The vector computed for a diagonal block is, up to normalization, an exact null vector of the form
shifted by the eigenvalue of the block, after the diagonal blocks above it have been perturbed by no
more than the floor for pivots allows. All rescaling on the way multiplies the whole vector by one
positive factor.
-/

namespace SchurForm

open Scalar Block Matrix

variable {n rows : Nat}

/-- The eigenvalue of a block of a standard form, for a pair the one with positive imaginary
part. -/
noncomputable def Block.eigenvalue (s : Mat n n ℝ) (b : Block ℝ) : ℂ :=
  ⟨(b.eigenvalueAt s b.start).1, (b.eigenvalueAt s b.start).2⟩

/-- An entry of a matrix shifted by a number. -/
noncomputable def shiftedEntry (s : Mat n n ℝ) (w : ℂ) (i c : Nat) : ℂ :=
  s.get i c - if i = c then w else 0

section Entries

variable (s : Mat n n ℝ) (w : ℂ)

/-- A shift leaves the entries beside the diagonal alone. -/
theorem shiftedEntry_of_ne {i c : Nat} (h : i ≠ c) : shiftedEntry s w i c = s.get i c := by
  rw [shiftedEntry, if_neg h, sub_zero]

/-- A shift is subtracted from the entries on the diagonal. -/
theorem shiftedEntry_self (i : Nat) : shiftedEntry s w i i = s.get i i - w := by
  rw [shiftedEntry, if_pos rfl]

variable {s}

/-- A shift keeps the cuts of a matrix. -/
theorem cutAt_shiftedEntry {t : Nat} (h : s.IsCut t) : CutAt (shiftedEntry s w) t := by
  intro i c hi hc
  rw [shiftedEntry_of_ne s w (by omega), h i c hi hc, Complex.ofReal_zero]

end Entries

namespace StandardSweep

variable (sweep : StandardSweep n ℝ) {shiftRe shiftIm floor : ℝ}

/-- The coefficients of an equation are shifted entries. -/
theorem coefficient_equation {j size i c : Nat} (hi : i < size) (hc : c < size) :
    (sweep.equation shiftRe shiftIm floor j size).coefficient i c =
      shiftedEntry sweep.s ⟨shiftRe, shiftIm⟩ (j + i) (j + c) := by
  by_cases h : i = c
  · subst h
    rw [shiftedEntry_self]
    apply Complex.ext <;>
      simp [ShiftedEquation.coefficient, ShiftedEquation.coefficientRe,
        ShiftedEquation.coefficientIm, ShiftedEquation.d, equation, Mat.block, hi]
  · have hne : j + i ≠ j + c := by omega
    rw [shiftedEntry_of_ne _ _ hne]
    apply Complex.ext <;>
      simp [ShiftedEquation.coefficient, ShiftedEquation.coefficientRe,
        ShiftedEquation.coefficientIm, equation, Mat.block, hi, hc, h]

/-- Subtracting a column takes effect in the rows above the block. -/
theorem entry_subtractColumn (s : Mat n n ℝ) {j : Nat} (hj : j ≤ rows) (x : LeadingVector rows ℝ)
    (c i : Nat) : (x.subtractColumn s j c).entry i =
      if i < j then x.entry i - s.get i c * x.entry c else x.entry i := by
  split
  · rename_i hij
    have hi : i < rows := hij.trans_le hj
    apply Complex.ext <;> simp [LeadingVector.entry, LeadingVector.subtractColumn, hi, hij] <;> ring
  · rename_i hij
    by_cases hi : i < rows
    · apply Complex.ext <;> simp [LeadingVector.entry, LeadingVector.subtractColumn, hi, hij]
    · have hi := Nat.le_of_not_lt hi
      rw [LeadingVector.entry_of_le _ hi, LeadingVector.entry_of_le _ hi]

/-- A step multiplies the solution of its block by one positive number and everything else by that
number and the scale of the solution, and subtracts the contribution of the block from the rows
above. -/
theorem exists_step_eq {b : Block ℝ} {x : LeadingVector rows ℝ} {solution : ShiftedSolution ℝ}
    (hrows : b.stop ≤ rows) (hsolution : solution =
      (sweep.equation shiftRe shiftIm floor b.start b.size).solve (x.rowsOf b.start b.size)) :
    ∃ (shrink : ℝ) (solved : LeadingVector rows ℝ), 0 < shrink ∧
      (∀ r < b.size, solved.entry (b.start + r) = shrink * solution.x.complexRow r) ∧
      (∀ i, i < b.start ∨ b.stop ≤ i →
        solved.entry i = (solution.scale * shrink : ℝ) * x.entry i) ∧
      (∀ i, (sweep.step shiftRe shiftIm floor x b).entry i =
        if i < b.start then solved.entry i - ∑ r ∈ Finset.range b.size,
          shiftedEntry sweep.s ⟨shiftRe, shiftIm⟩ i (b.start + r) * solved.entry (b.start + r)
        else solved.entry i) ∧
      (sweep.step shiftRe shiftIm floor x b).perturbed = (x.perturbed || solution.perturbed) := by
  subst hsolution
  set solution :=
    (sweep.equation shiftRe shiftIm floor b.start b.size).solve (x.rowsOf b.start b.size)
  -- Both ways of keeping the next contribution small multiply everything by one positive number.
  set shrinks := decide (1 < solution.norm) &&
    decide (largestEntry n / solution.norm < sweep.contribution b.start b.size) with hshrinks
  obtain ⟨shrink, hshrink, hvalues, hscale⟩ : ∃ shrink : ℝ, 0 < shrink ∧
      (∀ r < 2, (if shrinks then solution.x.map fun v => v / solution.norm
        else solution.x).complexRow r = shrink * solution.x.complexRow r) ∧
      (if shrinks then solution.scale / solution.norm else solution.scale) =
        solution.scale * shrink := by
    cases hcase : shrinks with
    | true =>
      have hnorm : 1 < solution.norm := by
        rw [hshrinks, Bool.and_eq_true, decide_eq_true_eq] at hcase
        exact hcase.1
      exact ⟨solution.norm⁻¹, inv_pos.mpr (one_pos.trans hnorm),
        fun r hr => complexRow_map_div _ _ hr, div_eq_mul_inv _ _⟩
    | false => exact ⟨1, one_pos, by simp, by simp⟩
  set values := if shrinks then solution.x.map fun v => v / solution.norm else solution.x
  set scale := if shrinks then solution.scale / solution.norm else solution.scale
  set scaled : LeadingVector rows ℝ :=
    if scale != 1 then { x.times scale with scale := x.scale * scale } else x with hscaled
  set solved : LeadingVector rows ℝ := { scaled.setRows b.start b.size values with
    perturbed := x.perturbed || solution.perturbed }
  have hstep : sweep.step shiftRe shiftIm floor x b = (List.range b.size).foldl
      (fun y r => y.subtractColumn sweep.s b.start (b.start + r)) solved := rfl
  have hrescaled (i : Nat) : scaled.entry i = scale * x.entry i := by
    rw [hscaled]
    split
    · exact x.entry_times scale i
    · have hone : scale = 1 := by simpa using ‹¬ (scale != 1) = true›
      rw [hone, Complex.ofReal_one, one_mul]
  refine ⟨shrink, solved, hshrink, fun r hr => ?_, fun i hi => ?_, fun i => ?_, ?_⟩
  · have hrow : b.start + r < rows := (Nat.add_lt_add_left hr _).trans_le hrows
    rw [← hvalues r (hr.trans_le (by rcases b.size_cases with hb | hb <;> omega))]
    exact scaled.entry_setRows_inside values hr hrow
  · rw [← hscale, ← hrescaled]
    exact scaled.entry_setRows_outside values hi
  · rw [hstep, entry_foldl_subtract (m := fun i c => sweep.s.get i c) solved
      (entry_subtractColumn sweep.s ((Nat.le_add_right _ _).trans hrows)) b.size i]
    split
    · exact congrArg _ (Finset.sum_congr rfl fun r _ => by
        rw [shiftedEntry_of_ne _ _ (by omega)])
    · rfl
  · rw [hstep]
    exact perturbed_foldl_subtract solved
      (fun y r => y.subtractColumn sweep.s b.start (b.start + r)) (fun _ _ => rfl) _

/-- A step of the sweep solves for one block. -/
theorem exists_step_raised {b : Block ℝ} {x : LeadingVector rows ℝ} (hrows : b.stop ≤ rows)
    (hreal : shiftIm = 0 → x.IsReal) :
    ∃ factor e, Raised (shiftedEntry sweep.s ⟨shiftRe, shiftIm⟩) (shiftIm = 0)
      (2 * max floor ShiftedEquation.leastFloor) b x
      (sweep.step shiftRe shiftIm floor x b) factor e := by
  set eqn := sweep.equation shiftRe shiftIm floor b.start b.size with heqn
  obtain ⟨e, hsolved⟩ := ShiftedEquation.exists_solvedNear (b := x.rowsOf b.start b.size)
    b.size_cases eqn fun hshift => (hreal hshift).rowsOf b.start b.size
  obtain ⟨shrink, solved, hshrink, hinside, houtside, hupdate, hperturbed⟩ :=
    sweep.exists_step_eq hrows rfl
  have hraised := Raised.of_solvedNear hsolved hshrink
    (fun i hi c hc => sweep.coefficient_equation hi hc)
    (fun hshift => ⟨hreal hshift, fun i c => by
      have hshift : shiftIm = 0 := hshift
      simp [shiftedEntry, apply_ite, hshift]⟩)
    hinside houtside hupdate hperturbed
  rw [ShiftedEquation.effectiveFloor, maxNum_real] at hraised
  exact ⟨_, e, hraised⟩

end StandardSweep

section Starts

variable {s : Mat n n ℝ} {k : Nat} {bound : ℝ}

/-- A real eigenvalue starts from a unit entry in its row. -/
theorem startReal_ascent (hbound : 0 ≤ bound) :
    Ascent (shiftedEntry s (s.get k k)) ((0 : ℝ) = 0) bound [] k (startReal s k) 0 := by
  have hone : (startReal s k).entry k = 1 := by
    apply Complex.ext <;> simp [LeadingVector.entry, startReal, Vec.zero]
  refine Ascent.start (b := .real k) rfl hbound ⟨0, one_pos, ?_⟩ (fun i hi => ?_) (fun r hr => ?_)
    fun _ i => by simp [startReal, Vec.zero]
  · exact hone.symm ▸ one_ne_zero
  · have hi : i < k := hi
    have hrows : i < k + 1 := Nat.lt_succ_of_lt hi
    simp only [size, start, Finset.sum_range_one, Nat.add_zero, hone, mul_one,
      shiftedEntry_of_ne s _ hi.ne]
    apply Complex.ext <;> simp [LeadingVector.entry, startReal, Vec.zero, hrows, hi.ne]
  · obtain rfl : r = 0 := Nat.lt_one_iff.mp hr
    simp [size, start, shiftedEntry_self]

/-- The eigenvalue of a block of order two is a root of its characteristic polynomial. -/
theorem characteristic_of_complexEigenvalue? {a b c d re im : ℝ}
    (h : complexEigenvalue? a b c d = some (re, im)) :
    0 < im ∧ ((a : ℂ) - ⟨re, im⟩) * (d - ⟨re, im⟩) = b * c := by
  rw [complexEigenvalue?_eq, conjugatePair?_eq, Option.ite_none_right_eq_some, Option.some.injEq,
    Prod.mk.injEq] at h
  obtain ⟨hneg, hre, him⟩ := h
  have hpos : 0 < a * d - b * c - ((a + d) / 2) ^ 2 := by linarith
  have him_sq : im ^ 2 = a * d - b * c - ((a + d) / 2) ^ 2 := him ▸ Real.sq_sqrt hpos.le
  refine ⟨him ▸ Real.sqrt_pos.mpr hpos, ?_⟩
  apply Complex.ext
  · simp
    linear_combination ((a + d) / 2 - re) * hre - him_sq
  · simp
    linear_combination -2 * im * hre

/-- A block with a conjugate pair is not triangular. -/
theorem offDiagonal_ne_zero_of_complexEigenvalue? {a b c d re im : ℝ}
    (h : complexEigenvalue? a b c d = some (re, im)) : (b : ℂ) * c ≠ 0 := by
  obtain ⟨him, hdet⟩ := characteristic_of_complexEigenvalue? h
  have hdiagonal (t : ℝ) : (t : ℂ) - ⟨re, im⟩ ≠ 0 := by
    intro hzero
    have him_zero : (0 : ℝ) - im = 0 := congrArg Complex.im hzero
    exact him.ne' (by linarith)
  exact hdet ▸ mul_ne_zero (hdiagonal a) (hdiagonal d)

/-- The starting vector of a pair is a null vector of its block. -/
theorem pairNullVector_spec {a b c d re im : ℝ} (h : complexEigenvalue? a b c d = some (re, im)) :
    let start := pairNullVector a b c d re im
    NullVectorTwo (a - ⟨re, im⟩) b c (d - ⟨re, im⟩) ⟨start.1.1, start.2.1⟩
      ⟨start.1.2, start.2.2⟩ := by
  obtain ⟨-, hdet⟩ := characteristic_of_complexEigenvalue? h
  have hproduct := offDiagonal_ne_zero_of_complexEigenvalue? h
  intro start
  by_cases hlarge : |c| ≤ |b|
  · have hx : (⟨start.1.1, start.2.1⟩ : ℂ) = 1 := by
      apply Complex.ext <;> simp [start, pairNullVector, hlarge]
    have hy : (⟨start.1.2, start.2.2⟩ : ℂ) = -((a - ⟨re, im⟩) * 1) / b := by
      apply Complex.ext <;> simp [start, pairNullVector, hlarge]
    rw [hx, hy]
    exact NullVectorTwo.of_upper hdet (left_ne_zero_of_mul hproduct) one_ne_zero
  · have hx : (⟨start.1.1, start.2.1⟩ : ℂ) = -((d - ⟨re, im⟩) * Complex.I) / c := by
      apply Complex.ext <;> simp [start, pairNullVector, hlarge]
    have hy : (⟨start.1.2, start.2.2⟩ : ℂ) = Complex.I := by
      apply Complex.ext <;> simp [start, pairNullVector, hlarge]
    rw [hx, hy]
    exact NullVectorTwo.of_lower hdet (right_ne_zero_of_mul hproduct) Complex.I_ne_zero

/-- A pair starts from a null vector of its block. -/
theorem startPair_ascent {re im : ℝ} (hbound : 0 ≤ bound) (hpair : pairAt s k = some (re, im)) :
    Ascent (shiftedEntry s ⟨re, im⟩) (im = 0) bound [] k (startPair s k re im) 0 := by
  rw [pairAt] at hpair
  obtain ⟨him, -⟩ := characteristic_of_complexEigenvalue? hpair
  have hspec := pairNullVector_spec hpair
  set null := pairNullVector (s.get k k) (s.get k (k + 1)) (s.get (k + 1) k)
    (s.get (k + 1) (k + 1)) re im with hnull
  have hx : (startPair s k re im).entry k = ⟨null.1.1, null.2.1⟩ := by
    apply Complex.ext <;> simp [LeadingVector.entry, startPair, hnull]
  have hy : (startPair s k re im).entry (k + 1) = ⟨null.1.2, null.2.2⟩ := by
    apply Complex.ext <;> simp [LeadingVector.entry, startPair, hnull]
  have hoff : k ≠ k + 1 := by omega
  refine Ascent.start_pair hbound ?_ (fun i hi => ?_) him.ne'
  · rw [hx, hy, shiftedEntry_self, shiftedEntry_self, shiftedEntry_of_ne s _ hoff,
      shiftedEntry_of_ne s _ hoff.symm]
    exact hspec
  · have hrows : i < k + 2 := by omega
    have hi₁ : i ≠ k + 1 := by omega
    rw [hx, hy, shiftedEntry_of_ne s _ hi.ne, shiftedEntry_of_ne s _ hi₁]
    apply Complex.ext <;> simp [LeadingVector.entry, startPair, ← hnull, hrows, hi.ne, hi₁] <;> ring

end Starts

section Vectors

variable {s : Mat n n ℝ} {blocks front back : List (Block ℝ)} {b : Block ℝ}

/-- A block starts and stops at cuts of the matrix. -/
theorem Mat.CutBy.isCut_block {a : Mat n n ℝ} (hcuts : a.CutBy blocks) (htiles : Tiles 0 blocks n)
    (hb : b ∈ blocks) : a.IsCut b.start ∧ a.IsCut b.stop := by
  obtain ⟨row, hplace⟩ := exists_placed 0 hb
  obtain rfl : b.start = row := htiles.start_eq_of_mem_placed hplace
  have hrows : totalSize blocks = n := by simpa using htiles.last_eq.symm
  exact ⟨hcuts _ hplace, hcuts.isCut_behind hrows hplace⟩

/-- The floor of a nonempty form exceeds the least floor. -/
theorem leastFloor_le_smallestPivot (hn : 0 < n) :
    (ShiftedEquation.leastFloor : ℝ) ≤ smallestPivot n := by
  have hratio : (2 : ℝ) ≤ n / epsilon := by
    rw [le_div_iff₀ epsilon_pos]
    have hone : (1 : ℝ) ≤ n := by exact_mod_cast hn
    linarith [epsilon_le]
  rw [ShiftedEquation.leastFloor, two_real, smallestPivot, mul_comm 2]
  exact mul_le_mul_of_nonneg_left hratio minPositive_pos.le

/-- The shifted entries make up the matrix minus a multiple of the identity. -/
theorem of_shiftedEntry (w : ℂ) : (Matrix.of fun i j : Fin n => shiftedEntry s w i j) =
    s.toMatrix.map Complex.ofReal - w • 1 := by
  ext i j
  simp [shiftedEntry, Matrix.one_apply, Fin.ext_iff]

/-- A sweep from a null vector of a block finds a null vector of the shifted form. -/
theorem StandardSweep.exists_climb_nearNullVector (sweep : StandardSweep n ℝ)
    (h : sweep.s.Classified (front ++ b :: back)) (hrows : b.stop = rows) {w : ℂ}
    {start : LeadingVector rows ℝ}
    (hstart : Ascent (shiftedEntry sweep.s w) (w.im = 0)
      (2 * max (epsilon * magnitude w) (n * minPositive / epsilon)) [] b.start start 0) :
    ∃ e, NearNullVector (sweep.s.toMatrix.map Complex.ofReal - w • 1) front rows
      (2 * max (epsilon * magnitude w) (n * minPositive / epsilon)) (w.im = 0)
      (sweep.climb w.re w.im start front.reverse).perturbed e
      ((sweep.climb w.re w.im start front.reverse).inRows n) := by
  have hb : b ∈ front ++ b :: back := by simp
  have hn : 0 < n := ((Nat.zero_le _).trans_lt (Nat.lt_add_of_pos_right b.size_pos)).trans_le
    (h.tiles.stop_le hb)
  have hfloor : max (maxNum (epsilon * (|w.re| + |w.im|)) (smallestPivot n))
      ShiftedEquation.leastFloor = max (epsilon * magnitude w) (n * minPositive / epsilon) := by
    rw [maxNum_real, max_assoc, max_eq_left (leastFloor_le_smallestPivot hn), smallestPivot,
      magnitude]
    congr 1
    ring
  have hcuts : ∀ c ∈ front ++ b :: back,
      CutAt (shiftedEntry sweep.s w) c.start ∧ CutAt (shiftedEntry sweep.s w) c.stop := by
    intro c hc
    obtain ⟨hfirst, hlast⟩ := h.cuts.isCut_block h.tiles hc
    exact ⟨cutAt_shiftedEntry w hfirst, cutAt_shiftedEntry w hlast⟩
  have hrise : ∀ c ∈ front, ∀ x : LeadingVector rows ℝ, (w.im = 0 → x.IsReal) →
      ∃ factor e, Raised (shiftedEntry sweep.s w) (w.im = 0)
        (2 * max (epsilon * magnitude w) (n * minPositive / epsilon)) c x
        (sweep.step w.re w.im (maxNum (epsilon * (|w.re| + |w.im|)) (smallestPivot n)) x c)
        factor e := by
    intro c hc x hx
    rw [← hfloor]
    have hstop : c.stop ≤ b.start := h.tiles.stop_le_start hc
    exact sweep.exists_step_raised (hstop.trans (hrows ▸ Nat.le_add_right _ _)) hx
  rw [← of_shiftedEntry]
  exact exists_nearNullVector id hrows h.tiles hcuts hrise hstart

/-- The vector of a block is a null vector of the form shifted by the eigenvalue of the block. -/
theorem StandardSweep.exists_vector_nearNullVector (sweep : StandardSweep n ℝ)
    (front : List (Block ℝ)) (b : Block ℝ) (back : List (Block ℝ))
    (h : sweep.s.Classified (front ++ b :: back)) :
    ∃ e, NearNullVector (sweep.s.toMatrix.map Complex.ofReal - b.eigenvalue sweep.s • 1) front
      b.stop (2 * max (epsilon * magnitude (b.eigenvalue sweep.s)) (n * minPositive / epsilon))
      (b.isPair = false) (sweep.vector b front.reverse).perturbed e
      ((sweep.vector b front.reverse).inRows n) := by
  have hbound : 0 ≤ 2 * max (epsilon * magnitude (b.eigenvalue sweep.s))
      (n * minPositive / epsilon) := by
    have hfirst := mul_nonneg epsilon_pos.le (magnitude_nonneg (b.eigenvalue sweep.s))
    exact mul_nonneg two_pos.le (hfirst.trans (le_max_left _ _))
  cases b with
  | real k =>
    have hw : (Block.real k).eigenvalue sweep.s = (sweep.s.get k k : ℂ) := rfl
    rw [hw] at hbound ⊢
    obtain ⟨e, he⟩ := sweep.exists_climb_nearNullVector h (b := .real k) rfl
      (w := (sweep.s.get k k : ℂ)) (startReal_ascent hbound)
    exact ⟨e, { he with real := fun _ => he.real rfl }⟩
  | pair k re im =>
    have hpair : pairAt sweep.s k = some (re, im) := h.pairs (.pair k re im) (by simp)
    have hw : (Block.pair k re im).eigenvalue sweep.s = ⟨re, im⟩ := by
      simp [Block.eigenvalue, eigenvalueAt, start]
    rw [hw] at hbound ⊢
    obtain ⟨e, he⟩ := sweep.exists_climb_nearNullVector h (b := .pair k re im) rfl
      (w := ⟨re, im⟩) (startPair_ascent hbound hpair)
    exact ⟨e, { he with real := fun hreal => Bool.noConfusion hreal }⟩

end Vectors

/-- For every selected block of a standard form that does not fail, the returned column or pair of
columns has length one and is, up to this normalization, an eigenvector to the eigenvalue of the
block, expanded by the factor if there is one: a null vector of the shifted form with perturbations
of the blocks above that are bounded by twice the floor for pivots, and zero if no pivot was
perturbed. -/
theorem StandardForm.eigenvectors_nearNullVector (norm : Normalization) (form : StandardForm n ℝ)
    (selected : List Bool) (blocks : List (Block ℝ)) (count : Nat)
    (hblocks : diagonalBlocks form.s = .ok blocks)
    (hselected : checkSelection blocks selected 2 = .ok count) :
    ∃ r, form.eigenvectors norm selected = .ok r ∧
      ∀ front b back, blocks = front ++ b :: back → flagAt selected b.start = true →
        b.start ∉ r.failed →
        let sweep : StandardSweep n ℝ := ⟨form.s, sumsAboveBlocks form.s blocks⟩
        let w := b.eigenvalue form.s
        let column :=
          r.vectorAt (totalSize (front.filter fun c => flagAt selected c.start)) b.isPair
        (b.isPair = true → 0 < w.im) ∧
        ∃ e x, NearNullVector (form.s.toMatrix.map Complex.ofReal - w • 1) front b.stop
            (2 * max (epsilon * magnitude w) (n * minPositive / epsilon)) (b.isPair = false)
            (sweep.vector b front.reverse).perturbed e x ∧
          (∀ i, column i = expanded form.q x i / norm.length (expanded form.q x)) ∧
          norm.length column = 1 := by
  refine ⟨_, eigenvectors_eq_ok hblocks hselected, ?_⟩
  intro front b back hsplit hflag hfailed sweep w column
  subst hsplit
  have hclassified := classified_of_diagonalBlocks hblocks
  have hb : b ∈ front ++ b :: back := by simp
  have hstop : b.stop ≤ n := hclassified.tiles.stop_le hb
  obtain ⟨e, he⟩ := sweep.exists_vector_nearNullVector front b back hclassified
  obtain ⟨hcolumn, hlength⟩ := he.column_eq hstop hflag hfailed
  refine ⟨fun hpair => ?_, e, _, he, hcolumn, hlength⟩
  cases b with
  | real k => cases hpair
  | pair k re im =>
    have hfound : pairAt form.s k = some (re, im) := hclassified.pairs _ hb
    obtain ⟨him, -⟩ := characteristic_of_complexEigenvalue? hfound
    simpa [w, Block.eigenvalue, eigenvalueAt, start] using him

section Example

/-- The second eigenvalue of `[1 3; 0 2]` is found without rescaling. -/
theorem scale_vector_two (sums : Vec 2 ℝ) (hsums : sums.get 0 = 0) :
    ((⟨Mat.ofRows2 1 3 0 2, sums⟩ : StandardSweep 2 ℝ).vector (.real 1) [.real 0]).scale = 1 := by
  set sweep : StandardSweep 2 ℝ := ⟨Mat.ofRows2 1 3 0 2, sums⟩ with hsweep
  set floor : ℝ := maxNum (epsilon * (|2| + |0|)) (smallestPivot 2) with hfloordef
  change (sweep.step 2 0 floor (startReal (Mat.ofRows2 1 3 0 2) 1) (.real 0)).scale = 1
  have hpivot : (smallestPivot 2 : ℝ) ≤ 2 * epsilon := by
    rw [smallestPivot, mul_div_assoc', div_le_iff₀ epsilon_pos]
    push_cast
    nlinarith [minPositive_le_epsilon_sq]
  have hfloor : max floor ShiftedEquation.leastFloor ≤ 1 := by
    have hleast := (leastFloor_le_smallestPivot (n := 2) two_pos).trans hpivot
    rw [hfloordef, maxNum_real, abs_two, abs_zero, add_zero]
    have := epsilon_le
    exact max_le (max_le (by linarith) (by linarith)) (by linarith)
  have hentry : 0 ≤ (largestEntry 2 : ℝ) := by
    have hone : (0 : ℝ) ≤ 1 - epsilon := by linarith [epsilon_le]
    exact div_nonneg hone (ShiftedEquation.leastFloor_pos.le.trans
      (leastFloor_le_smallestPivot two_pos))
  -- The equation for the row above is `-x = -3`.
  have hsolve : (sweep.equation 2 0 floor 0 1).solve
      ((startReal (Mat.ofRows2 1 3 0 2) 1).rowsOf 0 1) = ⟨Mat.ofRows2 3 0 0 0, 1, 3, false⟩ := by
    have hc : (sweep.equation 2 0 floor 0 1).coefficientRe.get 0 0 = -1 := by
      simp [ShiftedEquation.coefficientRe, StandardSweep.equation, ShiftedEquation.d, Mat.block,
        hsweep, Mat.ofRows2]
      norm_num
    have hb : ((startReal (Mat.ofRows2 (1 : ℝ) 3 0 2) 1).rowsOf 0 1).get 0 0 = -3 := by
      simp [LeadingVector.rowsOf, startReal, Mat.ofRows2]
    have hlarge : ¬ 1 < (sweep.equation 2 0 floor 0 1).effectiveFloor := by
      simpa [ShiftedEquation.effectiveFloor, StandardSweep.equation] using hfloor
    have hreal : (sweep.equation 2 0 floor 0 1).shiftIm = 0 := rfl
    simp [ShiftedEquation.solve, ShiftedEquation.solveRealOne, hc, hb, hlarge, hreal,
      ShiftedEquation.pivotScale]
  have hcontribution : sweep.contribution 0 1 = 0 := by
    simp [StandardSweep.contribution, maxTo, hsweep, hsums]
  have hkept : ¬ largestEntry 2 / 3 < (0 : ℝ) := not_lt.mpr (by positivity)
  simp only [StandardSweep.step, start, size, hsolve]
  simp [hcontribution, hkept]
  rfl

/-- The eigenvector to the second eigenvalue of `[1 3; 0 2]`. -/
theorem StandardForm.eigenvectors_nearNullVector_two :
    ∃ r, StandardForm.eigenvectors .maxAbs ⟨Mat.ofRows2 1 3 0 2, none⟩ [false, true] = .ok r ∧
      1 ∉ r.failed ∧ ∃ e x,
        NearNullVector ((Mat.ofRows2 1 3 0 2).toMatrix.map Complex.ofReal - (2 : ℂ) • 1) [.real 0] 2
          (2 * max (epsilon * magnitude 2) ((2 : Nat) * minPositive / epsilon)) (false = false)
          ((⟨Mat.ofRows2 1 3 0 2, sumsAboveBlocks (Mat.ofRows2 1 3 0 2) [.real 0, .real 1]⟩ :
            StandardSweep 2 ℝ).vector (.real 1) [.real 0]).perturbed e x ∧
        (∀ i, r.vectorAt 0 false i = x i / Normalization.maxAbs.length x) ∧
        Normalization.maxAbs.length (r.vectorAt 0 false) = 1 := by
  have hblocks := diagonalBlocks_triangular_two 1 3 2
  obtain ⟨count, hselected⟩ := exists_checkSelection_two false true
  obtain ⟨r, hr, hvectors⟩ := StandardForm.eigenvectors_nearNullVector .maxAbs
    ⟨Mat.ofRows2 1 3 0 2, none⟩ [false, true] _ count hblocks hselected
  set sweep : StandardSweep 2 ℝ :=
    ⟨Mat.ofRows2 1 3 0 2, sumsAboveBlocks (Mat.ofRows2 1 3 0 2) [.real 0, .real 1]⟩
  have hvector : ∃ v : Eigenvector 2 ℝ,
      (sweep.vector (.real 1) [.real 0]).eigenvector? .maxAbs none false = some v := by
    obtain ⟨e, he⟩ := sweep.exists_vector_nearNullVector [.real 0] (.real 1) []
      (classified_of_diagonalBlocks hblocks)
    have hsums : sweep.sums.get 0 = 0 := by
      simp [sweep, sumsAboveBlocks, blockAt, covers, stop, size, start, Mat.columnSumAbove, sumTo,
        List.find?]
    have hscale := scale_vector_two sweep.sums hsums
    refine LeadingVector.exists_eigenvector? le_rfl (he.isReal le_rfl) ?_ he.ne_zero
    linarith [minPositive_le]
  have hfailed : (Block.real 1 : Block ℝ).start ∉ r.failed := by
    obtain ⟨v, hv⟩ := hvector
    rw [StandardForm.eigenvectors_eq_ok hblocks hselected, Except.ok.injEq] at hr
    exact hr ▸ not_mem_failed_two hv
  obtain ⟨-, e, x, hnull, hcolumn, hlength⟩ := hvectors [.real 0] (.real 1) [] rfl rfl hfailed
  refine ⟨r, hr, hfailed, e, x, ?_, hcolumn, hlength⟩
  have hw : (Block.real 1 : Block ℝ).eigenvalue (Mat.ofRows2 (1 : ℝ) 3 0 2) = 2 := by
    apply Complex.ext <;> simp [Block.eigenvalue, eigenvalueAt, Mat.ofRows2]
  rw [hw] at hnull
  exact hnull

end Example

end SchurForm
