import SchurForm.Proofs.MatrixAlgebra
import SchurForm.Reflection

/-!
# Orthonormal completions are triangular factorizations

A reflection is symmetric and orthogonal once its factor fits the length of its vector. Completing
the columns of a matrix multiplies the reflections into one orthogonal matrix; its transpose takes
the columns to upper triangular form. Columns that need no reflection are skipped, so nothing is
asked of the rank. Every column is a combination of as many leading columns of the factor, and
columns that are independent span the same space as these.
-/

namespace SchurForm

open Scalar

variable {k m : Nat}

namespace Reflection

/-- The reflection as a matrix. -/
def toMat (h : Reflection m ℝ) : Mat m m ℝ :=
  Mat.ofFn fun i j => (if i = j then 1 else 0) - h.factor * h.w.get i * h.w.get j

/-- A reflection at a vector that vanishes above row `col`. -/
structure Fits (h : Reflection m ℝ) (col : Nat) : Prop where
  above : ∀ r < col, h.w.get r = 0
  length : h.factor * ∑ r ∈ Finset.range m, h.w.get r ^ 2 = 2

/-- Sums from row `col` on see the whole of a vector that vanishes above. -/
theorem sum_Ico_of_above {w : Vec m ℝ} {col : Nat} (habove : ∀ r < col, w.get r = 0)
    (hcol : col ≤ m) (f : Nat → ℝ) :
    ∑ r ∈ Finset.Ico col m, w.get r * f r = ∑ r ∈ Finset.range m, w.get r * f r := by
  rw [Finset.range_eq_Ico, ← Finset.sum_Ico_consecutive _ (Nat.zero_le col) hcol,
    Finset.sum_eq_zero (s := Finset.Ico 0 col) fun r hr => ?_, zero_add]
  rw [habove r (Finset.mem_Ico.mp hr).2, zero_mul]

/-- The entries of a matrix multiplied by a reflection from the left. -/
theorem get_toMat_mul (h : Reflection m ℝ) (a : Mat m k ℝ) {i : Nat} (hi : i < m) (j : Nat) :
    (h.toMat.mul a).get i j =
      a.get i j - h.factor * (∑ r ∈ Finset.range m, h.w.get r * a.get r j) * h.w.get i := by
  have hterm (r : Nat) (hr : r ∈ Finset.range m) : h.toMat.get i r * a.get r j =
      (if i = r then a.get r j else 0) - h.factor * h.w.get i * (h.w.get r * a.get r j) := by
    rw [toMat, Mat.get_ofFn, if_pos ⟨hi, Finset.mem_range.mp hr⟩]
    split <;> ring
  rw [Mat.get_mul, Finset.sum_congr rfl hterm, Finset.sum_sub_distrib, ← Finset.mul_sum,
    Finset.sum_ite_eq, if_pos (Finset.mem_range.mpr hi)]
  ring

/-- The entries of a matrix multiplied by a reflection from the right. -/
theorem get_mul_toMat (h : Reflection m ℝ) (u : Mat m m ℝ) (i : Nat) {j : Nat} (hj : j < m) :
    (u.mul h.toMat).get i j =
      u.get i j - h.factor * (∑ r ∈ Finset.range m, h.w.get r * u.get i r) * h.w.get j := by
  have hterm (r : Nat) (hr : r ∈ Finset.range m) : u.get i r * h.toMat.get r j =
      (if r = j then u.get i r else 0) - h.factor * h.w.get j * (h.w.get r * u.get i r) := by
    rw [toMat, Mat.get_ofFn, if_pos ⟨Finset.mem_range.mp hr, hj⟩]
    split <;> ring
  rw [Mat.get_mul, Finset.sum_congr rfl hterm, Finset.sum_sub_distrib, ← Finset.mul_sum,
    Finset.sum_ite_eq', if_pos (Finset.mem_range.mpr hj)]
  ring

/-- A reflection is symmetric. -/
theorem toMat_transpose (h : Reflection m ℝ) : h.toMat.transpose = h.toMat := by
  apply Mat.ext_get
  intro i hi j hj
  simp only [Mat.get_transpose, toMat, Mat.get_ofFn, hi, hj, and_self, if_true, eq_comm (a := j)]
  ring

/-- A reflection with a fitting factor is orthogonal. -/
theorem Fits.isOrthogonal {h : Reflection m ℝ} {col : Nat} (hfits : h.Fits col) :
    h.toMat.IsOrthogonal := by
  apply Mat.ext_get
  intro i hi j hj
  rw [toMat_transpose, get_toMat_mul h _ hi, Mat.get_identity hi]
  have hdot : ∑ r ∈ Finset.range m, h.w.get r * h.toMat.get r j = -h.w.get j := by
    have hterm (r : Nat) (hr : r ∈ Finset.range m) : h.w.get r * h.toMat.get r j =
        (if r = j then h.w.get r else 0) - h.factor * h.w.get j * h.w.get r ^ 2 := by
      rw [toMat, Mat.get_ofFn, if_pos ⟨Finset.mem_range.mp hr, hj⟩]
      split <;> ring
    rw [Finset.sum_congr rfl hterm, Finset.sum_sub_distrib, ← Finset.mul_sum, Finset.sum_ite_eq',
      if_pos (Finset.mem_range.mpr hj)]
    linear_combination (-h.w.get j) * hfits.length
  rw [hdot, toMat, Mat.get_ofFn, if_pos ⟨hi, hj⟩]
  ring

/-- Reflecting the rows of the accumulated factor is multiplication from the right. -/
theorem Fits.reflectRows_eq {h : Reflection m ℝ} {col : Nat} (hfits : h.Fits col) (hcol : col ≤ m)
    (u : Mat m m ℝ) : h.reflectRows col u = u.mul h.toMat := by
  apply Mat.ext_get
  intro i hi j hj
  rw [get_mul_toMat h u i hj, reflectRows, Mat.get_ofFn, if_pos ⟨hi, hj⟩, Vec.get_ofFn, if_pos hi,
    sumRange_real]
  split
  · rw [← sum_Ico_of_above hfits.above hcol fun r => u.get i r]
    simp only [mul_comm (h.w.get _)]
  · rename_i hleft
    rw [hfits.above j (Nat.lt_of_not_le hleft), mul_zero, sub_zero]

/-- Reflecting the columns from `col` on is multiplication from the left, if the earlier columns are
zero where the reflection acts. -/
theorem Fits.reflectColumns_eq {h : Reflection m ℝ} {col : Nat} (hfits : h.Fits col)
    (hcol : col ≤ m) {a : Mat m k ℝ} (hzero : ∀ j < col, ∀ r, col ≤ r → a.get r j = 0) :
    h.reflectColumns col a = h.toMat.mul a := by
  apply Mat.ext_get
  intro i hi j hj
  rw [get_toMat_mul h a hi, reflectColumns, Mat.get_ofFn, if_pos ⟨hi, hj⟩, Vec.get_ofFn, if_pos hj,
    sumRange_real, ← sum_Ico_of_above hfits.above hcol fun r => a.get r j]
  split
  · rfl
  · rename_i hout
    by_cases hrow : col ≤ i
    · have hcolumn : j < col := by omega
      rw [Finset.sum_eq_zero fun r hr => ?_, mul_zero, zero_mul, sub_zero]
      rw [hzero j hcolumn r (Finset.mem_Ico.mp hr).1, mul_zero]
    · rw [hfits.above i (by omega), mul_zero, sub_zero]

/-- The vector of a reflection: a column from the diagonal on, with its first entry moved away from
zero by the length of the column. -/
noncomputable def columnVector (a : Mat m k ℝ) (col : Nat) : Vec m ℝ :=
  let norm := √(∑ r ∈ Finset.Ico col m, a.get r col * a.get r col)
  let alpha := if 0 ≤ a.get col col then -norm else norm
  Vec.ofFn fun r =>
    if r < col then 0 else if r = col then a.get col col - alpha else a.get r col

/-- A reflection is found unless the column or the vector vanishes. -/
theorem ofColumn?_eq (a : Mat m k ℝ) (col : Nat) :
    ofColumn? a col =
      if √(∑ r ∈ Finset.Ico col m, a.get r col * a.get r col) = 0 then none
      else if ∑ r ∈ Finset.Ico col m, (columnVector a col).get r * (columnVector a col).get r = 0
      then none
      else some ⟨columnVector a col,
        2 / ∑ r ∈ Finset.Ico col m, (columnVector a col).get r * (columnVector a col).get r⟩ := by
  simp only [ofColumn?, beq_real, sqrt_real, sumRange_real, decide_eq_true_eq, two_real]
  rfl

/-- The part of a column that is reflected has zeros above its pivot. -/
theorem get_columnVector_above (a : Mat m k ℝ) {col r : Nat} (hr : r < col) :
    (columnVector a col).get r = 0 := by
  rw [columnVector, Vec.get_ofFn, if_pos hr, ite_self]

/-- Below its pivot it agrees with the column. -/
theorem get_columnVector_below (a : Mat m k ℝ) {col r : Nat} (hr : col < r) :
    (columnVector a col).get r = a.get r col := by
  rw [columnVector, Vec.get_ofFn]
  split
  · rw [if_neg (by omega), if_neg (by omega)]
  · exact (a.get_of_rows_le (by omega) col).symm

/-- The vector of a reflection makes twice the product with the column as with itself. -/
theorem sum_columnVector_sq (a : Mat m k ℝ) {col : Nat} (hcol : col < m) :
    ∑ r ∈ Finset.Ico col m, (columnVector a col).get r * (columnVector a col).get r =
      2 * ∑ r ∈ Finset.Ico col m, (columnVector a col).get r * a.get r col := by
  obtain ⟨alpha, hsquare, hdiagonal⟩ : ∃ alpha : ℝ,
      alpha ^ 2 = ∑ r ∈ Finset.Ico col m, a.get r col * a.get r col ∧
        (columnVector a col).get col = a.get col col - alpha := by
    refine ⟨_, ?_, by rw [columnVector, Vec.get_ofFn, if_pos hcol, if_neg (lt_irrefl col),
      if_pos rfl]⟩
    have hsq := Real.sq_sqrt (Finset.sum_nonneg fun r (_ : r ∈ Finset.Ico col m) =>
      mul_self_nonneg (a.get r col))
    split
    · rw [neg_sq, hsq]
    · exact hsq
  have htail : ∑ r ∈ Finset.Ico (col + 1) m,
        (columnVector a col).get r * (columnVector a col).get r =
      ∑ r ∈ Finset.Ico (col + 1) m, a.get r col * a.get r col := by
    apply Finset.sum_congr rfl
    intro r hr
    rw [get_columnVector_below a (Finset.mem_Ico.mp hr).1]
  have htail' : ∑ r ∈ Finset.Ico (col + 1) m, (columnVector a col).get r * a.get r col =
      ∑ r ∈ Finset.Ico (col + 1) m, a.get r col * a.get r col := by
    apply Finset.sum_congr rfl
    intro r hr
    rw [get_columnVector_below a (Finset.mem_Ico.mp hr).1]
  rw [Finset.sum_eq_sum_Ico_succ_bot hcol] at hsquare
  rw [Finset.sum_eq_sum_Ico_succ_bot hcol, Finset.sum_eq_sum_Ico_succ_bot hcol, htail, htail',
    hdiagonal]
  linear_combination hsquare

/-- A column without a reflection is already zero below the diagonal. -/
theorem ofColumn?_eq_none {a : Mat m k ℝ} {col : Nat} (h : ofColumn? a col = none) :
    ∀ r, col < r → a.get r col = 0 := by
  intro r hr
  by_cases hm : r < m
  · have hmem : r ∈ Finset.Ico col m := Finset.mem_Ico.mpr ⟨hr.le, hm⟩
    have hvanish {f : Nat → ℝ} (hsum : ∑ r ∈ Finset.Ico col m, f r * f r = 0) : f r = 0 :=
      mul_self_eq_zero.mp
        ((Finset.sum_eq_zero_iff_of_nonneg fun r _ => mul_self_nonneg (f r)).mp hsum r hmem)
    rw [ofColumn?_eq] at h
    split at h
    · rename_i hnorm
      exact hvanish (le_antisymm (Real.sqrt_eq_zero'.mp hnorm)
        (Finset.sum_nonneg fun r _ => mul_self_nonneg (a.get r col)))
    · split at h
      · rename_i hlength
        rw [← get_columnVector_below a hr]
        exact hvanish hlength
      · exact absurd h (Option.some_ne_none _)
  · exact a.get_of_rows_le (Nat.le_of_not_lt hm) col

/-- A reflection fits, and maps its own column to zero below the diagonal. -/
theorem ofColumn?_eq_some {a : Mat m k ℝ} {col : Nat} (hcol : col < m) {h : Reflection m ℝ}
    (hsome : ofColumn? a col = some h) :
    h.Fits col ∧ ∀ r, col < r → (h.toMat.mul a).get r col = 0 := by
  rw [ofColumn?_eq] at hsome
  split at hsome
  · exact absurd hsome.symm (Option.some_ne_none _)
  split at hsome
  · exact absurd hsome.symm (Option.some_ne_none _)
  rename_i hlength
  obtain rfl := Option.some.inj hsome
  have habove : ∀ r < col, (columnVector a col).get r = 0 :=
    fun r hr => get_columnVector_above a hr
  constructor
  · refine ⟨habove, ?_⟩
    simp only [sq]
    rw [← sum_Ico_of_above habove hcol.le, div_mul_cancel₀ _ hlength]
  · intro r hr
    by_cases hm : r < m
    · rw [get_toMat_mul _ _ hm, ← sum_Ico_of_above habove hcol.le, get_columnVector_below a hr]
      rw [sum_columnVector_sq a hcol] at hlength ⊢
      rw [div_mul_eq_mul_div, div_self hlength, one_mul, sub_self]
    · exact Mat.get_of_rows_le _ (Nat.le_of_not_lt hm) col

end Reflection

/-- What holds after the first columns have been treated: the factor is orthogonal, its transpose
takes the original columns to the present ones, and the treated columns are upper triangular. -/
structure Completion.Invariant (v : Mat m k ℝ) (col : Nat) (st : Completion m k ℝ) : Prop where
  orthogonal : st.u.IsOrthogonal
  factors : st.u.transpose.mul v = st.a
  triangular : ∀ j < col, ∀ r, j < r → st.a.get r j = 0

/-- Treating one column keeps the invariant. -/
theorem Completion.Invariant.step {v : Mat m k ℝ} {col : Nat} {st : Completion m k ℝ}
    (hinv : st.Invariant v col) (hcol : col < m) : (st.step col).Invariant v (col + 1) := by
  rw [Completion.step]
  split
  · rename_i hnone
    refine ⟨hinv.orthogonal, hinv.factors, fun j hj r hr => ?_⟩
    rcases Nat.lt_succ_iff_lt_or_eq.mp hj with hj | rfl
    · exact hinv.triangular j hj r hr
    · exact Reflection.ofColumn?_eq_none hnone r hr
  · rename_i h hsome
    obtain ⟨hfits, hcolumn⟩ := Reflection.ofColumn?_eq_some hcol hsome
    have hzero : ∀ j < col, ∀ r, col ≤ r → st.a.get r j = 0 :=
      fun j hj r hr => hinv.triangular j hj r (hj.trans_le hr)
    rw [hfits.reflectColumns_eq hcol.le hzero, hfits.reflectRows_eq hcol.le]
    refine ⟨hinv.orthogonal.mul hfits.isOrthogonal, ?_, fun j hj r hr => ?_⟩
    · apply Mat.toMatrix_injective
      have hsymm := congrArg Mat.toMatrix h.toMat_transpose
      rw [Mat.toMatrix_transpose] at hsymm
      simp only [Mat.toMatrix_mul, Mat.toMatrix_transpose, Matrix.transpose_mul, hsymm,
        ← hinv.factors, Matrix.mul_assoc]
    · rcases Nat.lt_succ_iff_lt_or_eq.mp hj with hj | rfl
      · rw [← hfits.reflectColumns_eq hcol.le hzero, Reflection.reflectColumns, Mat.get_ofFn]
        split
        · rw [if_neg (by omega)]
          exact hinv.triangular j hj r hr
        · rfl
      · exact hcolumn r hr

/-- A completion is orthogonal, and its transpose takes the completed columns to upper triangular
form. -/
theorem completeBasis_triangular (v : Mat m k ℝ) :
    (completeBasis v).IsOrthogonal ∧
      ∀ i j, j < i → ((completeBasis v).transpose.mul v).get i j = 0 := by
  have hrun (count : Nat) (hcount : count ≤ m) :
      (((List.range count).foldl Completion.step ⟨v, Mat.identity⟩).Invariant v count) := by
    induction count with
    | zero =>
      refine ⟨Mat.isOrthogonal_identity, ?_, fun j hj => absurd hj j.not_lt_zero⟩
      apply Mat.toMatrix_injective
      simp
    | succ count ih =>
      rw [List.range_succ, List.foldl_append]
      exact (ih (by omega)).step (by omega)
  have hinv := hrun (min k m) (Nat.min_le_right k m)
  refine ⟨hinv.orthogonal, fun i j hij => ?_⟩
  rw [completeBasis, hinv.factors]
  by_cases hj : j < min k m
  · exact hinv.triangular j hj i hij
  · rcases Nat.lt_or_ge j k with hk | hk
    · exact Mat.get_of_rows_le _ (by omega) j
    · exact Mat.get_of_cols_le _ i hk

namespace Mat

/-- The span of the leading columns of a matrix. -/
def leadingSpan {l : Nat} (count : Nat) (a : Mat m l ℝ) : Submodule ℝ (Fin m → ℝ) :=
  Submodule.span ℝ (Set.range fun (j : Fin count) (i : Fin m) => a.get i j)

/-- Columns that the transpose of an orthogonal matrix takes to upper triangular form are
combinations of its leading columns. -/
theorem IsOrthogonal.leadingSpan_le {u : Mat m m ℝ} (hu : u.IsOrthogonal) {v : Mat m k ℝ}
    (htriangular : ∀ i j, j < i → (u.transpose.mul v).get i j = 0) (count : Nat) :
    v.leadingSpan count ≤ u.leadingSpan count := by
  have hproduct : u.mul (u.transpose.mul v) = v := by
    apply toMatrix_injective
    rw [toMatrix_mul, toMatrix_mul, toMatrix_transpose, ← Matrix.mul_assoc, hu.mul_transpose,
      Matrix.one_mul]
  rw [leadingSpan, Submodule.span_le]
  rintro _ ⟨j, rfl⟩
  have hcolumn : (fun i : Fin m => v.get i j) = ∑ r ∈ Finset.range m,
      (u.transpose.mul v).get r j • fun i : Fin m => u.get i r := by
    funext i
    conv_lhs => rw [← hproduct, get_mul]
    simp [mul_comm]
  change (fun i : Fin m => v.get i j) ∈ _
  rw [hcolumn]
  refine Submodule.sum_mem _ fun r _ => ?_
  rcases Nat.lt_or_ge j r with hbelow | habove
  · rw [htriangular r j hbelow, zero_smul]
    exact Submodule.zero_mem _
  · exact Submodule.smul_mem _ _ (Submodule.subset_span ⟨⟨r, habove.trans_lt j.isLt⟩, rfl⟩)

/-- If these columns are independent, they span the same space. -/
theorem IsOrthogonal.leadingSpan_eq {u : Mat m m ℝ} (hu : u.IsOrthogonal) {v : Mat m k ℝ}
    (htriangular : ∀ i j, j < i → (u.transpose.mul v).get i j = 0) {count : Nat}
    (hindependent : LinearIndependent ℝ fun (j : Fin count) (i : Fin m) => v.get i j) :
    v.leadingSpan count = u.leadingSpan count := by
  refine Submodule.eq_of_le_of_finrank_le (hu.leadingSpan_le htriangular count) ?_
  calc Module.finrank ℝ (u.leadingSpan count) ≤ Fintype.card (Fin count) :=
        finrank_range_le_card _
    _ = Module.finrank ℝ (v.leadingSpan count) := (finrank_span_eq_card hindependent).symm

end Mat

/-- The completion of any matrix, whatever its shape and its rank, is orthogonal, and its transpose
takes the columns to upper triangular form. The leading columns of the matrix lie in the span of
equally many leading columns of the completion, and span the same space if they are independent; in
particular this holds of all columns of a matrix of full column rank. -/
theorem completeBasis_spans (v : Mat m k ℝ) :
    (completeBasis v).IsOrthogonal ∧
      (∀ i j, j < i → ((completeBasis v).transpose.mul v).get i j = 0) ∧
      ∀ count, v.leadingSpan count ≤ (completeBasis v).leadingSpan count ∧
        (LinearIndependent ℝ (fun (j : Fin count) (i : Fin m) => v.get i j) →
          v.leadingSpan count = (completeBasis v).leadingSpan count) := by
  obtain ⟨horthogonal, htriangular⟩ := completeBasis_triangular v
  exact ⟨horthogonal, htriangular, fun count => ⟨horthogonal.leadingSpan_le htriangular count,
    horthogonal.leadingSpan_eq htriangular⟩⟩

/-- A matrix of three columns whose third one is zero: the first two are independent. -/
theorem completeBasis_spans_plane :
    let v : Mat 3 3 ℝ := Mat.ofFn fun i j => if j = 2 then 0 else if i ≤ j then 1 else 2
    LinearIndependent ℝ (fun (j : Fin 2) (i : Fin 3) => v.get i j) ∧
      v.leadingSpan 2 = (completeBasis v).leadingSpan 2 := by
  intro v
  have hindependent : LinearIndependent ℝ (fun (j : Fin 2) (i : Fin 3) => v.get i j) := by
    refine Fintype.linearIndependent_iff.mpr fun g hzero => ?_
    have hfirst : g 0 + g 1 = 0 := by simpa [v, Fin.sum_univ_two] using congrFun hzero 0
    have hsecond : g 0 * 2 + g 1 = 0 := by simpa [v, Fin.sum_univ_two] using congrFun hzero 1
    intro j
    fin_cases j <;> simp <;> linarith
  exact ⟨hindependent, ((completeBasis_spans v).2.2 2).2 hindependent⟩

end SchurForm
