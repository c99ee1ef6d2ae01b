import Mathlib.LinearAlgebra.Matrix.Trace
import SchurForm.Proofs.BlockExchange
import SchurForm.Proofs.PlaneNormalForms

/-!
# What diagonal blocks have in common

A diagonal block keeps its eigenvalues when it is moved through a form, because it stays similar to
what it was; a pair of blocks of a pencil stays equivalent. Both relations are between blocks at any
two places of any two matrices. A block of order one then has the same entry, or the pair of entries
is multiplied by one number; in a block of order two the recognized eigenvalue is the same.
-/

namespace SchurForm

open Scalar Matrix

variable {k l m n size : Nat}

namespace Mat

/-- The diagonal blocks of the given order in row `i` of one and row `j` of another matrix are
similar. -/
def SimilarAt (size : Nat) (a : Mat m m ℝ) (i : Nat) (b : Mat n n ℝ) (j : Nat) : Prop :=
  ∃ h : Matrix (Fin size) (Fin size) ℝ, h.det ≠ 0 ∧
    (a.block i i : Mat size size ℝ).toMatrix * h = h * (b.block j j : Mat size size ℝ).toMatrix

/-- The diagonal block pairs of the given order in row `i` of one and row `j` of another pencil are
equivalent. -/
def EquivalentAt (size : Nat) (s t : Mat m m ℝ) (i : Nat) (s' t' : Mat n n ℝ) (j : Nat) : Prop :=
  ∃ g h : Matrix (Fin size) (Fin size) ℝ, g.det ≠ 0 ∧ h.det ≠ 0 ∧
    (s.block i i : Mat size size ℝ).toMatrix * h = g * (s'.block j j : Mat size size ℝ).toMatrix ∧
    (t.block i i : Mat size size ℝ).toMatrix * h = g * (t'.block j j : Mat size size ℝ).toMatrix

/-- The entry of a diagonal block of order one. -/
theorem get_block_one (a : Mat n n ℝ) (i : Nat) :
    (a.block i i : Mat 1 1 ℝ).get 0 0 = a.get i i := by
  rw [get_block _ _ _ one_pos one_pos, Nat.add_zero]

/-- Equal blocks have equal entries. -/
theorem get_of_block_eq {a : Mat m m ℝ} {b : Mat n n ℝ} {i j r c : Nat}
    (h : (a.block i i : Mat size size ℝ) = b.block j j) (hr : r < size) (hc : c < size) :
    a.get (i + r) (i + c) = b.get (j + r) (j + c) := by
  rw [← get_block a i i hr hc, h, get_block b j j hr hc]

section Similar

variable {a : Mat k k ℝ} {b : Mat l l ℝ} {c : Mat m m ℝ} {i j r : Nat}

/-- Equal blocks are similar. -/
theorem SimilarAt.of_eq (h : (a.block i i : Mat size size ℝ) = b.block j j) :
    SimilarAt size a i b j :=
  ⟨1, by simp, by rw [h, Matrix.mul_one, Matrix.one_mul]⟩

/-- Similarity of windows is transitive. -/
theorem SimilarAt.trans (hab : SimilarAt size a i b j) (hbc : SimilarAt size b j c r) :
    SimilarAt size a i c r := by
  obtain ⟨g, hg, hab⟩ := hab
  obtain ⟨h, hh, hbc⟩ := hbc
  refine ⟨g * h, by rw [Matrix.det_mul]; exact mul_ne_zero hg hh, ?_⟩
  rw [← Matrix.mul_assoc, hab, Matrix.mul_assoc, hbc, Matrix.mul_assoc]

/-- Similar blocks of order one are equal. -/
theorem SimilarAt.get_eq (h : SimilarAt 1 a i b j) : a.get i i = b.get j j := by
  obtain ⟨h, hdet, heq⟩ := h
  rw [Matrix.det_fin_one] at hdet
  have hentry := congrFun (congrFun heq 0) 0
  simp only [Matrix.mul_apply, Fin.sum_univ_one, toMatrix_apply, Fin.val_zero,
    get_block_one] at hentry
  exact mul_right_cancel₀ hdet (hentry.trans (mul_comm _ _))

end Similar

section Equivalent

variable {s t : Mat k k ℝ} {s' t' : Mat l l ℝ} {s'' t'' : Mat m m ℝ} {i j r : Nat}

/-- Equal block pairs are equivalent. -/
theorem EquivalentAt.of_eq (hs : (s.block i i : Mat size size ℝ) = s'.block j j)
    (ht : (t.block i i : Mat size size ℝ) = t'.block j j) : EquivalentAt size s t i s' t' j :=
  ⟨1, 1, by simp, by simp, by rw [hs, Matrix.mul_one, Matrix.one_mul],
    by rw [ht, Matrix.mul_one, Matrix.one_mul]⟩

/-- Equivalence of pairs of windows is transitive. -/
theorem EquivalentAt.trans (h : EquivalentAt size s t i s' t' j)
    (h' : EquivalentAt size s' t' j s'' t'' r) : EquivalentAt size s t i s'' t'' r := by
  obtain ⟨g, h, hg, hh, hs, ht⟩ := h
  obtain ⟨g', h', hg', hh', hs', ht'⟩ := h'
  refine ⟨g * g', h * h', by rw [Matrix.det_mul]; exact mul_ne_zero hg hg',
    by rw [Matrix.det_mul]; exact mul_ne_zero hh hh', ?_, ?_⟩
  · rw [← Matrix.mul_assoc, hs, Matrix.mul_assoc, hs', Matrix.mul_assoc]
  · rw [← Matrix.mul_assoc, ht, Matrix.mul_assoc, ht', Matrix.mul_assoc]

/-- The entries of equivalent block pairs of order one are multiplied by one number. -/
theorem EquivalentAt.exists_scale (h : EquivalentAt 1 s t i s' t' j) :
    ∃ c : ℝ, c ≠ 0 ∧ s.get i i = c * s'.get j j ∧ t.get i i = c * t'.get j j := by
  obtain ⟨g, h, hg, hh, hs, ht⟩ := h
  rw [Matrix.det_fin_one] at hg hh
  have hentry {a : Mat k k ℝ} {b : Mat l l ℝ} (heq : (a.block i i : Mat 1 1 ℝ).toMatrix * h =
      g * (b.block j j : Mat 1 1 ℝ).toMatrix) : a.get i i = g 0 0 / h 0 0 * b.get j j := by
    have hentry := congrFun (congrFun heq 0) 0
    simp only [Matrix.mul_apply, Fin.sum_univ_one, toMatrix_apply, Fin.val_zero,
      get_block_one] at hentry
    rw [div_mul_eq_mul_div, ← hentry, mul_div_cancel_right₀ _ hh]
  exact ⟨g 0 0 / h 0 0, div_ne_zero hg hh, hentry hs, hentry ht⟩

end Equivalent

/-- The determinant of a diagonal block of order two. -/
theorem det_block_two (a : Mat n n ℝ) (i : Nat) : (a.block i i : Mat 2 2 ℝ).toMatrix.det =
    a.get i i * a.get (i + 1) (i + 1) - a.get i (i + 1) * a.get (i + 1) i := by
  simp [Matrix.det_fin_two, get_block]

/-- The trace of a diagonal block of order two. -/
theorem trace_block_two (a : Mat n n ℝ) (i : Nat) :
    (a.block i i : Mat 2 2 ℝ).toMatrix.trace = a.get i i + a.get (i + 1) (i + 1) := by
  simp [Matrix.trace_fin_two, get_block]

/-- The eigenvalue of a block of order two is a function of its trace and determinant. -/
theorem pairAt_eq (a : Mat n n ℝ) (i : Nat) : pairAt a i =
    conjugatePair? (a.block i i : Mat 2 2 ℝ).toMatrix.trace
      (a.block i i : Mat 2 2 ℝ).toMatrix.det := by
  rw [det_block_two, trace_block_two, pairAt, complexEigenvalue?_eq]

/-- Similar blocks are conjugates of each other. -/
theorem SimilarAt.exists_conj {a : Mat m m ℝ} {b : Mat n n ℝ} {i j : Nat}
    (h : SimilarAt size a i b j) : ∃ h : Matrix (Fin size) (Fin size) ℝ, IsUnit h.det ∧
      (a.block i i : Mat size size ℝ).toMatrix =
        h * (b.block j j : Mat size size ℝ).toMatrix * h⁻¹ := by
  obtain ⟨h, hdet, heq⟩ := h
  have hunit : IsUnit h.det := isUnit_iff_ne_zero.mpr hdet
  exact ⟨h, hunit, by rw [← heq, Matrix.mul_nonsing_inv_cancel_right _ _ hunit]⟩

/-- Similar blocks of order two have the same eigenvalue. -/
theorem SimilarAt.pairAt_eq {a : Mat m m ℝ} {b : Mat n n ℝ} {i j : Nat}
    (h : SimilarAt 2 a i b j) : pairAt a i = pairAt b j := by
  obtain ⟨h, hunit, hconj⟩ := h.exists_conj
  rw [Mat.pairAt_eq, Mat.pairAt_eq, hconj, Matrix.det_mul, Matrix.det_mul, Matrix.trace_mul_comm,
    ← Matrix.mul_assoc, Matrix.nonsing_inv_mul _ hunit, Matrix.one_mul,
    mul_right_comm, ← Matrix.det_mul, Matrix.mul_nonsing_inv _ hunit, Matrix.det_one, one_mul]

/-- The diagonal block of order two in row `i` is a diagonal matrix. -/
def DiagonalAt (t : Mat n n ℝ) (i : Nat) : Prop :=
  t.get i (i + 1) = 0 ∧ t.get (i + 1) i = 0

/-- The eigenvalue of a pencil block of order two over a diagonal block is a function of the
determinants of both matrices and of their sum. -/
theorem pencilPairAt_eq (s : Mat n n ℝ) {t : Mat n n ℝ} {i : Nat} (ht : t.DiagonalAt i) :
    let b := (s.block i i : Mat 2 2 ℝ).toMatrix
    let d := (t.block i i : Mat 2 2 ℝ).toMatrix
    pencilPairAt s t i =
      if d.det = 0 then none
      else conjugatePair? (((b + d).det - b.det - d.det) / d.det) (b.det / d.det) := by
  intro b d
  have hd : d.det = t.get i i * t.get (i + 1) (i + 1) := by
    rw [det_block_two, ht.1, zero_mul, sub_zero]
  have hmixed : (b + d).det - b.det - d.det =
      s.get i i * t.get (i + 1) (i + 1) + s.get (i + 1) (i + 1) * t.get i i := by
    have hsum : (b + d).det = (s.get i i + t.get i i) * (s.get (i + 1) (i + 1) +
        t.get (i + 1) (i + 1)) - (s.get i (i + 1) + t.get i (i + 1)) *
          (s.get (i + 1) i + t.get (i + 1) i) := by
      simp [b, d, Matrix.det_fin_two, get_block]
    rw [hsum, hd, det_block_two, ht.1, ht.2]
    ring
  rw [hmixed, hd, det_block_two, pencilPairAt, pencilComplexEigenvalue?_eq]

/-- Equivalent pencil blocks of order two over diagonal blocks have the same eigenvalue. -/
theorem EquivalentAt.pencilPairAt_eq {s t : Mat m m ℝ} {s' t' : Mat n n ℝ} {i j : Nat}
    (h : EquivalentAt 2 s t i s' t' j) (ht : t.DiagonalAt i) (ht' : t'.DiagonalAt j) :
    pencilPairAt s t i = pencilPairAt s' t' j := by
  obtain ⟨g, h, hg, hh, hs, ht₂⟩ := h
  rw [Mat.pencilPairAt_eq s ht, Mat.pencilPairAt_eq s' ht']
  set b := (s.block i i : Mat 2 2 ℝ).toMatrix
  set d := (t.block i i : Mat 2 2 ℝ).toMatrix
  set b' := (s'.block j j : Mat 2 2 ℝ).toMatrix
  set d' := (t'.block j j : Mat 2 2 ℝ).toMatrix
  -- All three determinants are multiplied by the same number.
  have hscale {x y : Matrix (Fin 2) (Fin 2) ℝ} (heq : x * h = g * y) :
      x.det = g.det / h.det * y.det := by
    have hdet := congrArg Matrix.det heq
    rw [Matrix.det_mul, Matrix.det_mul] at hdet
    rw [div_mul_eq_mul_div, ← hdet, mul_div_cancel_right₀ _ hh]
  have hfactor : g.det / h.det ≠ 0 := div_ne_zero hg hh
  have hsum : (b + d) * h = g * (b' + d') := by rw [Matrix.add_mul, Matrix.mul_add, hs, ht₂]
  rw [hscale hs, hscale ht₂, hscale hsum, ← mul_sub, ← mul_sub, mul_div_mul_left _ _ hfactor,
    mul_div_mul_left _ _ hfactor]
  simp only [mul_eq_zero, hfactor, false_or]

section Moving

variable {j : Nat} (a : Mat n n ℝ)

/-- A patch transformation keeps the diagonal blocks outside the patch. -/
theorem block_transformPatch_outside {i : Nat} (h : i + size ≤ j ∨ j + m ≤ i)
    (left right patch : Mat m m ℝ) :
    ((a.transformPatch j left right patch).block i i : Mat size size ℝ) = a.block i i := by
  apply ext_get
  intro r hr c hc
  rw [get_block _ _ _ hr hc, get_block _ _ _ hr hc, transformPatch, get_ofFn]
  split
  · rw [if_neg (show ¬(j ≤ i + r ∧ i + r < j + m) by omega),
      if_neg (show ¬(i + r < j ∧ j ≤ i + c ∧ i + c < j + m) by omega)]
  · rename_i hout
    rcases not_and_or.mp hout with hout | hout
    · exact (a.get_of_rows_le (Nat.le_of_not_lt hout) _).symm
    · exact (a.get_of_cols_le _ (Nat.le_of_not_lt hout)).symm

/-- A patch transformation puts in the diagonal blocks of the new patch. -/
theorem block_transformPatch_inside (hj : j + m ≤ n) {i : Nat} (h : i + size ≤ m)
    (left right patch : Mat m m ℝ) :
    ((a.transformPatch j left right patch).block (j + i) (j + i) : Mat size size ℝ) =
      patch.block i i := by
  apply ext_get
  intro r hr c hc
  rw [get_block _ _ _ hr hc, get_block _ _ _ hr hc, transformPatch, get_ofFn,
    if_pos ⟨by omega, by omega⟩, if_pos ⟨by omega, by omega⟩, if_pos ⟨by omega, by omega⟩]
  congr 1 <;> omega

/-- Embedded factors keep the diagonal blocks outside their patch. -/
theorem block_transformed_embed_outside (hj : j + m ≤ n) {i : Nat}
    (h : i + size ≤ j ∨ j + m ≤ i) (hi : i + size ≤ n) (left right : Mat m m ℝ) :
    ((transformed (embed n j left) a (embed n j right)).block i i : Mat size size ℝ) =
      a.block i i := by
  apply ext_get
  intro r hr c hc
  rw [get_block _ _ _ hr hc, get_block _ _ _ hr hc,
    get_transformed_embed hj left right a (by omega) (by omega), if_neg (by omega),
    if_neg (by omega)]

/-- Embedded factors transform the diagonal block of their patch. -/
theorem block_transformed_embed (hj : j + m ≤ n) (left right : Mat m m ℝ) :
    ((transformed (embed n j left) a (embed n j right)).block j j : Mat m m ℝ) =
      transformed left (a.block j j) right := by
  apply ext_get
  intro r hr c hc
  rw [get_block _ _ _ hr hc, get_transformed_embed hj left right a (by omega) (by omega),
    if_pos (by omega), transformed, get_mul]
  apply Finset.sum_congr rfl
  intro x hx
  rw [get_mul, Nat.add_sub_cancel_left, Nat.add_sub_cancel_left, if_pos (by omega)]
  congr 1
  apply Finset.sum_congr rfl
  intro y hy
  rw [get_transpose, get_block _ _ _ (Finset.mem_range.mp hy) (Finset.mem_range.mp hx)]

/-- Embedded factors keep the cuts that do not run through their patch. -/
theorem IsCut.transformed_embed {a : Mat n n ℝ} {t : Nat} (h : a.IsCut t) (hj : j + m ≤ n)
    (ht : t ≤ j ∨ j + m ≤ t) (left right : Mat m m ℝ) :
    (transformed (embed n j left) a (embed n j right)).IsCut t := by
  intro r c hr hc
  by_cases hrn : r < n
  · by_cases hcn : c < n
    · rw [get_transformed_embed hj left right a hrn hcn]
      by_cases hcol : j ≤ c ∧ c < j + m
      · rw [if_pos hcol]
        apply Finset.sum_eq_zero
        intro x hx
        have hx := Finset.mem_range.mp hx
        rw [if_neg (by omega), h r _ hr (by omega), zero_mul]
      · rw [if_neg hcol]
        split
        · apply Finset.sum_eq_zero
          intro x _
          rw [h _ c (by omega) hc, mul_zero]
        · exact h r c hr hc
    · exact get_of_cols_le _ r (Nat.le_of_not_lt hcn)
  · exact get_of_rows_le _ (Nat.le_of_not_lt hrn) c

end Moving

/-- An orthogonal matrix is invertible, and so is its transpose. -/
theorem IsOrthogonal.det_transpose_ne_zero {u : Mat n n ℝ} (hu : u.IsOrthogonal) :
    u.toMatrixᵀ.det ≠ 0 := by
  have hone := congrArg Matrix.det (isOrthogonal_iff.mp hu)
  rw [Matrix.det_mul, Matrix.det_one] at hone
  exact left_ne_zero_of_mul_eq_one hone

/-- A block that is turned from both sides by one orthogonal factor stays similar. -/
theorem SimilarAt.of_transformed {a : Mat m m ℝ} {b : Mat n n ℝ} {i j : Nat} {u : Mat size size ℝ}
    (hu : u.IsOrthogonal) (h : (a.block i i : Mat size size ℝ) = transformed u (b.block j j) u) :
    SimilarAt size a i b j := by
  refine ⟨u.toMatrixᵀ, hu.det_transpose_ne_zero, ?_⟩
  rw [h, toMatrix_transformed, Matrix.mul_assoc, hu.mul_transpose, Matrix.mul_one]

/-- A block pair that is turned from both sides by two orthogonal factors stays equivalent. -/
theorem EquivalentAt.of_transformed {s t : Mat m m ℝ} {s' t' : Mat n n ℝ} {i j : Nat}
    {u v : Mat size size ℝ} (hu : u.IsOrthogonal) (hv : v.IsOrthogonal)
    (hs : (s.block i i : Mat size size ℝ) = transformed u (s'.block j j) v)
    (ht : (t.block i i : Mat size size ℝ) = transformed u (t'.block j j) v) :
    EquivalentAt size s t i s' t' j := by
  refine ⟨u.toMatrixᵀ, v.toMatrixᵀ, hu.det_transpose_ne_zero, hv.det_transpose_ne_zero, ?_, ?_⟩
  · rw [hs, toMatrix_transformed, Matrix.mul_assoc, hv.mul_transpose, Matrix.mul_one]
  · rw [ht, toMatrix_transformed, Matrix.mul_assoc, hv.mul_transpose, Matrix.mul_one]

end Mat

end SchurForm
