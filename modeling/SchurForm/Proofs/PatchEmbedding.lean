import SchurForm.GivensRotation
import SchurForm.Proofs.MatrixAlgebra
import SchurForm.Reordering.Transform

/-!
# Patch transformations as products

A factor of a patch is a factor of the whole matrix that is the identity outside the patch. Updating
the strips around a patch and replacing the patch itself is then multiplication by the embedded
factors, up to what the new patch departs from the transformed old one. This needs the matrix to be
block triangular at both ends of the patch, because the rows to the left and the columns below are
not touched: the two ends are cuts of the matrix.
-/

namespace SchurForm

open Matrix
open scoped Matrix.Norms.Frobenius

variable {m n : Nat}

namespace Mat

/-- The factor of a patch that starts in row `j`, as a factor of a matrix of order `n`. -/
def embed (n j : Nat) (u : Mat m m ℝ) : Mat n n ℝ :=
  ofFn fun r c =>
    if (j ≤ r ∧ r < j + m) ∧ (j ≤ c ∧ c < j + m) then u.get (r - j) (c - j)
    else if r = c then 1 else 0

/-- A patch that starts in row `j` of a matrix of order `n` that is zero elsewhere. -/
def placeAt (n j : Nat) (e : Mat m m ℝ) : Mat n n ℝ :=
  ofFn fun r c =>
    if (j ≤ r ∧ r < j + m) ∧ (j ≤ c ∧ c < j + m) then e.get (r - j) (c - j) else 0

/-- The rows from `t` on are zero in the columns before `t`. -/
def IsCut (a : Mat n n ℝ) (t : Nat) : Prop :=
  ∀ r c, t ≤ r → c < t → a.get r c = 0

/-- A sum over all rows of what is zero outside the patch runs over the rows of the patch. -/
theorem sum_range_of_zero_outside {j : Nat} (hj : j + m ≤ n) {f : Nat → ℝ}
    (hzero : ∀ r < n, ¬(j ≤ r ∧ r < j + m) → f r = 0) :
    ∑ r ∈ Finset.range n, f r = ∑ r ∈ Finset.range m, f (j + r) := by
  have hsub : Finset.Ico j (j + m) ⊆ Finset.range n := fun r hr => by
    simp only [Finset.mem_Ico] at hr
    exact Finset.mem_range.mpr (by omega)
  rw [← Finset.sum_subset hsub fun r hr hout => ?_, Finset.sum_Ico_eq_sum_range]
  · simp only [Nat.add_sub_cancel_left]
  · exact hzero r (Finset.mem_range.mp hr) (by rwa [Finset.mem_Ico] at hout)

/-- A sum against a column of an embedded factor runs over the rows of the patch, or picks the one
row of a column outside the patch. -/
theorem sum_get_embed_mul {j : Nat} (hj : j + m ≤ n) (u : Mat m m ℝ) (f : Nat → ℝ) {c : Nat}
    (hc : c < n) :
    ∑ r ∈ Finset.range n, (embed n j u).get r c * f r =
      if j ≤ c ∧ c < j + m then ∑ r ∈ Finset.range m, u.get r (c - j) * f (j + r) else f c := by
  split
  · rename_i hpatch
    rw [sum_range_of_zero_outside hj fun r hr hout => ?_]
    · apply Finset.sum_congr rfl
      intro r hr
      have hr := Finset.mem_range.mp hr
      rw [embed, get_ofFn, if_pos ⟨by omega, hc⟩, if_pos ⟨by omega, hpatch⟩,
        Nat.add_sub_cancel_left]
    · rw [embed, get_ofFn, if_pos ⟨hr, hc⟩, if_neg (by tauto), if_neg (by rintro rfl; tauto),
        zero_mul]
  · rename_i hpatch
    rw [Finset.sum_eq_single c (fun r hr hne => ?_) fun hout => ?_]
    · rw [embed, get_ofFn, if_pos ⟨hc, hc⟩, if_neg (by tauto), if_pos rfl, one_mul]
    · have hr := Finset.mem_range.mp hr
      rw [embed, get_ofFn, if_pos ⟨hr, hc⟩, if_neg (by tauto), if_neg hne, zero_mul]
    · exact absurd (Finset.mem_range.mpr hc) hout

/-- Rows of a matrix multiplied from the left by a transposed embedded factor. -/
theorem get_embed_transpose_mul {j : Nat} (hj : j + m ≤ n) (u : Mat m m ℝ) (a : Mat n n ℝ)
    {r : Nat} (hr : r < n) (c : Nat) :
    ((embed n j u).transpose.mul a).get r c =
      if j ≤ r ∧ r < j + m then ∑ k ∈ Finset.range m, u.get k (r - j) * a.get (j + k) c
      else a.get r c := by
  rw [get_mul]
  simp only [get_transpose]
  exact sum_get_embed_mul hj u (fun k => a.get k c) hr

/-- Columns of a matrix multiplied from the right by an embedded factor. -/
theorem get_mul_embed {j : Nat} (hj : j + m ≤ n) (u : Mat m m ℝ) (a : Mat n n ℝ) (r : Nat)
    {c : Nat} (hc : c < n) :
    (a.mul (embed n j u)).get r c =
      if j ≤ c ∧ c < j + m then ∑ k ∈ Finset.range m, a.get r (j + k) * u.get k (c - j)
      else a.get r c := by
  rw [get_mul]
  simp only [mul_comm (a.get r _)]
  exact sum_get_embed_mul hj u (a.get r) hc

/-- An orthogonal factor of a patch is an orthogonal factor of the matrix. -/
theorem IsOrthogonal.embed {j : Nat} (hj : j + m ≤ n) {u : Mat m m ℝ} (hu : u.IsOrthogonal) :
    (embed n j u).IsOrthogonal := by
  apply ext_get
  intro r hr c hc
  rw [get_embed_transpose_mul hj u _ hr, get_identity hr]
  split
  · rename_i hpatch
    have hentry := congrArg (fun a : Mat m m ℝ => a.get (r - j) (c - j)) hu
    simp only [get_mul, get_transpose, get_identity (show r - j < m by omega)] at hentry
    by_cases hcols : j ≤ c ∧ c < j + m
    · rw [show (if r = c then (1 : ℝ) else 0) = if r - j = c - j then 1 else 0 by
        congr 1; exact propext (by omega), ← hentry]
      apply Finset.sum_congr rfl
      intro k hk
      have hk := Finset.mem_range.mp hk
      rw [Mat.embed, get_ofFn, if_pos ⟨by omega, hc⟩, if_pos ⟨by omega, hcols⟩,
        Nat.add_sub_cancel_left]
    · rw [if_neg (by rintro rfl; exact hcols hpatch)]
      apply Finset.sum_eq_zero
      intro k hk
      have hk := Finset.mem_range.mp hk
      rw [Mat.embed, get_ofFn, if_pos ⟨by omega, hc⟩, if_neg (by tauto),
        if_neg (by rintro rfl; exact hcols (by omega)), mul_zero]
  · rename_i hpatch
    rw [Mat.embed, get_ofFn, if_pos ⟨hr, hc⟩, if_neg (by tauto)]

/-- Changing columns is multiplication by the embedded factor. -/
theorem transformColumns_eq_mul {j : Nat} (hj : j + m ≤ n) (a : Mat n n ℝ) (u : Mat m m ℝ) :
    a.transformColumns j u = a.mul (embed n j u) := by
  apply ext_get
  intro r hr c hc
  rw [get_mul_embed hj u a r hc, transformColumns, get_ofFn, if_pos ⟨hr, hc⟩]
  simp only [Scalar.sumTo_real]

/-- Two-sided products with embedded factors, position by position. -/
theorem get_transformed_embed {j : Nat} (hj : j + m ≤ n) (left right : Mat m m ℝ) (a : Mat n n ℝ)
    {r c : Nat} (hr : r < n) (hc : c < n) :
    (transformed (embed n j left) a (embed n j right)).get r c =
      if j ≤ c ∧ c < j + m then
        ∑ l ∈ Finset.range m,
          (if j ≤ r ∧ r < j + m then
            ∑ k ∈ Finset.range m, left.get k (r - j) * a.get (j + k) (j + l)
            else a.get r (j + l)) * right.get l (c - j)
      else if j ≤ r ∧ r < j + m then ∑ k ∈ Finset.range m, left.get k (r - j) * a.get (j + k) c
      else a.get r c := by
  rw [transformed, get_mul_embed hj right _ r hc]
  simp only [get_embed_transpose_mul hj left a hr]

/-- The strips and the patch together are transformed by the embedded factors, except for what the
new patch departs from the transformed old one. -/
theorem toMatrix_transformPatch {j : Nat} (hj : j + m ≤ n) {a : Mat n n ℝ} (hfirst : a.IsCut j)
    (hlast : a.IsCut (j + m)) (left right patch : Mat m m ℝ) :
    (a.transformPatch j left right patch).toMatrix =
      (transformed (embed n j left) a (embed n j right)).toMatrix +
        (placeAt n j (patch.sub (transformed left (a.block j j) right))).toMatrix := by
  ext ⟨r, hr⟩ ⟨c, hc⟩
  simp only [Matrix.add_apply, toMatrix_apply, get_transformed_embed hj left right a hr hc,
    transformPatch, placeAt, get_ofFn, hr, hc, and_self, if_true, Scalar.sumTo_real]
  by_cases hrow : j ≤ r ∧ r < j + m <;> by_cases hcol : j ≤ c ∧ c < j + m
  · simp only [hrow, hcol, and_self, if_true, get_sub]
    have hblock : (transformed left (a.block j j : Mat m m ℝ) right).get (r - j) (c - j) =
        ∑ l ∈ Finset.range m, (∑ k ∈ Finset.range m, left.get k (r - j) * a.get (j + k) (j + l)) *
          right.get l (c - j) := by
      rw [transformed, get_mul]
      apply Finset.sum_congr rfl
      intro l hl
      rw [get_mul]
      congr 1
      apply Finset.sum_congr rfl
      intro k hk
      rw [get_transpose, block, get_ofFn,
        if_pos ⟨Finset.mem_range.mp hk, Finset.mem_range.mp hl⟩]
    rw [hblock]
    ring
  · simp only [hrow, hcol, and_true, and_false, if_true, if_false, add_zero]
    split
    · rfl
    · symm
      rw [hfirst r c hrow.1 (by omega)]
      apply Finset.sum_eq_zero
      intro k _
      rw [hfirst (j + k) c (by omega) (by omega), mul_zero]
  · simp only [hrow, hcol, and_true, if_true, if_false, add_zero]
    split
    · rfl
    · symm
      rw [hlast r c (by omega) (by omega)]
      apply Finset.sum_eq_zero
      intro k hk
      have hk := Finset.mem_range.mp hk
      rw [hlast r (j + k) (by omega) (by omega), zero_mul]
  · simp only [hrow, hcol, and_false, if_false, add_zero]

/-- A patch alone is as large as the matrix that holds nothing else. -/
theorem norm_placeAt {j : Nat} (hj : j + m ≤ n) (e : Mat m m ℝ) :
    ‖(placeAt n j e).toMatrix‖ = e.frobenius := by
  have hrow (r : Nat) (hr : r < m) : ∑ c ∈ Finset.range n, (placeAt n j e).get (j + r) c ^ 2 =
      ∑ c ∈ Finset.range m, e.get r c ^ 2 := by
    rw [sum_range_of_zero_outside hj fun c hc hout => ?_]
    · apply Finset.sum_congr rfl
      intro c hc
      have hc := Finset.mem_range.mp hc
      rw [placeAt, get_ofFn, if_pos ⟨by omega, by omega⟩, if_pos ⟨by omega, by omega⟩,
        Nat.add_sub_cancel_left, Nat.add_sub_cancel_left]
    · rw [placeAt, get_ofFn, if_pos ⟨by omega, hc⟩, if_neg (by tauto), zero_pow two_ne_zero]
  rw [← frobenius_eq_norm, frobenius, frobenius, sum_range_of_zero_outside hj fun r hr hout => ?_]
  · rw [Finset.sum_congr rfl fun r hr => hrow r (Finset.mem_range.mp hr)]
  · apply Finset.sum_eq_zero
    intro c hc
    rw [placeAt, get_ofFn, if_pos ⟨hr, Finset.mem_range.mp hc⟩, if_neg (by tauto),
      zero_pow two_ne_zero]

/-- Transforming a patch keeps the cuts that do not run through it. -/
theorem IsCut.transformPatch {j t : Nat} {a : Mat n n ℝ} (h : a.IsCut t) (ht : t ≤ j ∨ j + m ≤ t)
    (left right patch : Mat m m ℝ) : (a.transformPatch j left right patch).IsCut t := by
  intro r c hr hc
  rw [Mat.transformPatch, get_ofFn]
  split
  · have hzero := h r c hr hc
    rcases ht with ht | ht
    · rw [if_neg (show ¬(r < j ∧ j ≤ c ∧ c < j + m) by omega), hzero,
        if_neg (show ¬(j ≤ c ∧ c < j + m) by omega), if_neg (show ¬j + m ≤ c by omega), ite_self]
    · rw [if_neg (show ¬(j ≤ r ∧ r < j + m) by omega),
        if_neg (show ¬(r < j ∧ j ≤ c ∧ c < j + m) by omega), hzero]
  · rfl

/-- A patch that is block triangular makes a new cut between the cuts at its ends. -/
theorem IsCut.transformPatch_inside {j q : Nat} {a : Mat n n ℝ} (hfirst : a.IsCut j)
    (hlast : a.IsCut (j + m)) (hq : q ≤ m) (left right : Mat m m ℝ) {patch : Mat m m ℝ}
    (hpatch : patch.IsCut q) : (a.transformPatch j left right patch).IsCut (j + q) := by
  intro r c hr hc
  rw [Mat.transformPatch, get_ofFn]
  split
  · by_cases hrow : r < j + m
    · rw [if_pos ⟨by omega, hrow⟩]
      split
      · exact hpatch _ _ (by omega) (by omega)
      · rw [if_neg (by omega), hfirst r c (by omega) (by omega)]
    · rw [if_neg (by omega), if_neg (by omega), hlast r c (by omega) (by omega)]
  · rfl

end Mat

end SchurForm
