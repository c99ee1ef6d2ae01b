import SchurForm.Proofs.BackSubstitution
import SchurForm.Proofs.MatrixAlgebra
import SchurForm.Proofs.PackedColumns

/-!
# From back-substitution to eigenvector columns

A vector that back-substitution has carried up to the first row is a null vector of the whole
matrix, up to perturbations of the blocks that it has passed. Expanding it by a factor and dividing
by its length, and packing the columns of all selected blocks, happen in the same way for standard
forms and for pencils.
-/

namespace SchurForm

open Scalar Block Matrix

variable {n rows : Nat}

/-- A null vector of a matrix that is near `m`: the matrix `e` is added to it, whose entries are
bounded and stand inside the blocks `above`. The vector ends in front of `rows`; it and `e` are real
in the case `real`, and `e` is zero unless a pivot was perturbed. -/
structure NearNullVector (m : Matrix (Fin n) (Fin n) ℂ) (above : List (Block ℝ)) (rows : Nat)
    (bound : ℝ) (real : Prop) (perturbed : Bool) (e : Matrix (Fin n) (Fin n) ℂ) (x : Fin n → ℂ) :
    Prop where
  ne_zero : x ≠ 0
  below : ∀ i : Fin n, rows ≤ i → x i = 0
  real : real → (∀ i, (x i).im = 0) ∧ ∀ i j, (e i j).im = 0
  support : ∀ i j : Fin n, e i j ≠ 0 → ∃ b ∈ above, b.covers i = true ∧ b.covers j = true
  bounded : ∀ i j, magnitude (e i j) ≤ bound
  unperturbed : perturbed = false → e = 0
  solves : (m + e) *ᵥ x = 0

/-- The components of a back-substituted vector in all rows. -/
noncomputable def LeadingVector.inRows (x : LeadingVector rows ℝ) (n : Nat) : Fin n → ℂ :=
  fun i => x.entry i

/-- A vector that has reached the first row is a null vector of the whole matrix. -/
theorem Ascent.nearNullVector {m : Nat → Nat → ℂ} {real : Prop} {bound : ℝ}
    {above : List (Block ℝ)} {x : LeadingVector rows ℝ} {e : Nat → Nat → ℂ}
    (h : Ascent m real bound above 0 x e) (hrows : rows ≤ n) (hcut : CutAt m rows)
    (habove : ∀ b ∈ above, b.stop ≤ rows) :
    NearNullVector (Matrix.of fun i j : Fin n => m i j) above rows bound real x.perturbed
      (Matrix.of fun i j : Fin n => e i j) (x.inRows n) where
  ne_zero := by
    obtain ⟨i, -, hne⟩ := h.nonzero
    have hi : i < rows := by
      by_contra hi
      exact hne (x.entry_of_le (Nat.le_of_not_lt hi))
    intro hzero
    exact hne (congrFun hzero ⟨i, hi.trans_le hrows⟩)
  below i hi := x.entry_of_le hi
  real hreal := ⟨fun i => (h.real hreal).1 i, fun i j => (h.real hreal).2 i j⟩
  support i j hne := h.support i j hne
  bounded i j := h.bounded i j
  unperturbed hx := by
    ext i j
    exact h.unperturbed hx i j
  solves := by
    funext i
    have hsum : ((Matrix.of fun i j : Fin n => m i j) + Matrix.of fun i j : Fin n => e i j)
        *ᵥ x.inRows n = fun i : Fin n => ∑ c ∈ Finset.range n, (m i c + e i c) * x.entry c := by
      funext i
      rw [Finset.sum_range]
      rfl
    have htail : ∑ c ∈ Finset.range n, (m i c + e i c) * x.entry c =
        ∑ c ∈ Finset.Ico 0 rows, (m i c + e i c) * x.entry c := by
      rw [← Finset.sum_range_add_sum_Ico _ hrows, Finset.range_eq_Ico, add_eq_left]
      exact Finset.sum_eq_zero fun c hc => by
        rw [x.entry_of_le (Finset.mem_Ico.mp hc).1, mul_zero]
    rw [hsum]
    dsimp only
    rw [htail]
    rcases lt_or_ge i.val rows with hi | hi
    · exact h.solved i (Nat.zero_le _) hi
    · refine Finset.sum_eq_zero fun c hc => ?_
      have he : e i c = 0 := by
        by_contra hne
        obtain ⟨b, hb, hcovers, -⟩ := h.support i c hne
        have hstop := habove b hb
        rw [covers_iff] at hcovers
        omega
      rw [hcut i c hi (Finset.mem_Ico.mp hc).2, he, add_zero, zero_mul]

/-- A sweep from a null vector of a diagonal block through all blocks above it finds a null vector
of the whole matrix. -/
theorem exists_nearNullVector {σ : Type} (vector : σ → LeadingVector rows ℝ)
    {step : σ → Block ℝ → σ} {m : Nat → Nat → ℂ} {real : Prop} {bound : ℝ}
    {front back : List (Block ℝ)} {b : Block ℝ} {start : σ} (hrows : b.stop = rows)
    (htiles : Tiles 0 (front ++ b :: back) n)
    (hcuts : ∀ c ∈ front ++ b :: back, CutAt m c.start ∧ CutAt m c.stop)
    (hstep : ∀ c ∈ front, ∀ st, (real → (vector st).IsReal) →
      ∃ factor e, Raised m real bound c (vector st) (vector (step st c)) factor e)
    (hstart : Ascent m real bound [] b.start (vector start) 0) :
    ∃ e, NearNullVector (Matrix.of fun i j : Fin n => m i j) front rows bound real
      (vector (front.reverse.foldl step start)).perturbed e
      ((vector (front.reverse.foldl step start)).inRows n) := by
  obtain ⟨hfront, hfirst, -⟩ := htiles.append
  have hb : b ∈ front ++ b :: back := by simp
  have hmem : ∀ c ∈ front, c ∈ front ++ b :: back := fun c hc => List.mem_append_left _ hc
  have hstop : b.stop ≤ n := htiles.stop_le hb
  have hstart_le : b.start ≤ b.stop := Nat.le_add_right _ _
  have habove : ∀ c ∈ front, c.stop ≤ rows := fun c hc =>
    (htiles.stop_le_start hc).trans (hrows ▸ hstart_le)
  subst hrows
  rw [← hfirst, ← List.reverse_reverse front] at hfront
  obtain ⟨e, h⟩ := Ascent.run (fun c hc => hstep c (List.mem_reverse.mp hc)) hfront hstart_le
    (hcuts b hb).1 (fun c hc => (hcuts c (hmem c (List.mem_reverse.mp hc))).1) hstart
  rw [List.reverse_reverse, List.append_nil] at h
  exact ⟨_, h.nearNullVector hstop (hcuts b hb).2 habove⟩

section Length

/-- The length by which an eigenvector is divided. -/
noncomputable def Normalization.length : Normalization → (Fin n → ℂ) → ℝ
  | .maxAbs, x => ⨆ i, magnitude (x i)
  | .euclidean, x => √(∑ i, Complex.normSq (x i))

/-- The largest of zero and some non-negative values is their supremum. -/
theorem maxTo_eq_iSup {f : Nat → ℝ} (hf : ∀ i, 0 ≤ f i) : maxTo n f = ⨆ i : Fin n, f i := by
  apply le_antisymm
  · refine (maxTo_le_iff (Real.iSup_nonneg fun i : Fin n => hf i)).mpr fun i hi => ?_
    exact le_ciSup (f := fun i : Fin n => f i) (Finite.bddAbove_range _) ⟨i, hi⟩
  · exact Real.iSup_le (fun i => le_maxTo f i.isLt) (maxTo_nonneg n f)

/-- The two parts of a vector as one complex vector. -/
noncomputable def complexVector (re im : Vec n ℝ) : Fin n → ℂ :=
  fun i => ⟨re.get i, im.get i⟩

variable (norm : Normalization) (re im : Vec n ℝ)

/-- The size that a pair of columns is divided by is the length of the complex vector. -/
theorem Normalization.sizeOf_eq_length : norm.sizeOf re im = norm.length (complexVector re im) := by
  cases norm with
  | maxAbs => exact maxTo_eq_iSup fun i => add_nonneg (abs_nonneg _) (abs_nonneg _)
  | euclidean =>
    simp only [sizeOf, length, complexVector, Vec.dot, sumTo_real, sqrt_real, Finset.sum_range,
      Complex.normSq_mk, Finset.sum_add_distrib]

/-- The size that a real column is divided by is the length of the vector. -/
theorem Normalization.sizeOfReal_eq_length :
    norm.sizeOfReal re = norm.length (complexVector re Vec.zero) := by
  rw [← sizeOf_eq_length]
  cases norm <;> simp [sizeOf, sizeOfReal, Vec.supNorm, Vec.zero, Vec.dot, sumTo_real]

variable {norm}

/-- Lengths are not negative. -/
theorem Normalization.length_nonneg (x : Fin n → ℂ) : 0 ≤ norm.length x := by
  cases norm with
  | maxAbs => exact Real.iSup_nonneg fun i => magnitude_nonneg _
  | euclidean => exact Real.sqrt_nonneg _

/-- Only the zero vector has length zero. -/
theorem Normalization.length_ne_zero {x : Fin n → ℂ} (h : x ≠ 0) : norm.length x ≠ 0 := by
  obtain ⟨i, hi⟩ := Function.ne_iff.mp h
  refine ne_of_gt ?_
  cases norm with
  | maxAbs =>
    exact (magnitude_pos hi).trans_le
      (le_ciSup (f := fun i => magnitude (x i)) (Finite.bddAbove_range _) i)
  | euclidean =>
    refine Real.sqrt_pos.mpr (Finset.sum_pos' (fun j _ => Complex.normSq_nonneg _) ?_)
    exact ⟨i, Finset.mem_univ i, Complex.normSq_pos.mpr hi⟩

/-- A vector divided by its length has length one. -/
theorem Normalization.length_div {x : Fin n → ℂ} (h : norm.length x ≠ 0) :
    norm.length (fun i => x i / norm.length x) = 1 := by
  have hpos : 0 < norm.length x := lt_of_le_of_ne (length_nonneg x) h.symm
  set size := norm.length x with hsize
  cases norm with
  | maxAbs =>
    have hdiv (i : Fin n) : magnitude (x i / size) = size⁻¹ * magnitude (x i) := by
      rw [div_eq_inv_mul, ← Complex.ofReal_inv, magnitude_ofReal_mul (inv_nonneg.mpr hpos.le)]
    rw [length] at hsize ⊢
    simp only [hdiv]
    rw [← Real.mul_iSup_of_nonneg (inv_nonneg.mpr hpos.le), ← hsize, inv_mul_cancel₀ h]
  | euclidean =>
    have hdiv : ∑ i, Complex.normSq (x i / size) = (∑ i, Complex.normSq (x i)) / size ^ 2 := by
      rw [Finset.sum_div]
      exact Finset.sum_congr rfl fun i _ => by
        rw [Complex.normSq_div, Complex.normSq_ofReal, sq]
    rw [length] at hsize ⊢
    rw [hdiv, Real.sqrt_div' _ (sq_nonneg _), ← hsize, Real.sqrt_sq hpos.le, div_self h]

end Length

/-- A vector multiplied by the factor of a form, if it has one. -/
noncomputable def expanded (factor : Option (Mat n n ℝ)) (x : Fin n → ℂ) : Fin n → ℂ :=
  match factor with
  | some q => q.toMatrix.map Complex.ofReal *ᵥ x
  | none => x

/-- An eigenvector as one complex vector. -/
noncomputable def Eigenvector.toComplex : Eigenvector n ℝ → Fin n → ℂ
  | .real x => complexVector x Vec.zero
  | .complex re im => complexVector re im

section Expansion

variable {factor : Option (Mat n n ℝ)} {norm : Normalization} {x : LeadingVector rows ℝ}

/-- The leading columns of a factor times the leading entries are all columns times all entries. -/
theorem get_inAllRows_some (q : Mat n n ℝ) (x : Vec rows ℝ) (hrows : rows ≤ n) (i : Fin n) :
    (inAllRows (some q) x : Vec n ℝ).get i = (q.toMatrix *ᵥ fun k => x.get k) i := by
  have hall : (q.toMatrix *ᵥ fun k => x.get k) i = ∑ k ∈ Finset.range n, q.get i k * x.get k := by
    rw [Finset.sum_range]
    rfl
  have hleading : (inAllRows (some q) x : Vec n ℝ).get i =
      ∑ k ∈ Finset.range rows, q.get i k * x.get k := by
    simp [inAllRows, sumTo_real]
  rw [hall, hleading, ← Finset.sum_range_add_sum_Ico _ hrows, left_eq_add]
  exact Finset.sum_eq_zero fun k hk => by
    rw [x.get_of_le (Finset.mem_Ico.mp hk).1, mul_zero]

/-- Both parts are expanded alike. -/
theorem complexVector_inAllRows (hrows : rows ≤ n) :
    complexVector (inAllRows factor x.re) (inAllRows factor x.im) =
      expanded factor (x.inRows n) := by
  cases factor with
  | none => funext i; apply Complex.ext <;> simp [complexVector, inAllRows, expanded,
      LeadingVector.inRows, LeadingVector.entry]
  | some q =>
    funext i
    rw [complexVector, get_inAllRows_some q x.re hrows, get_inAllRows_some q x.im hrows]
    apply Complex.ext <;>
      simp [expanded, LeadingVector.inRows, LeadingVector.entry, mulVec, dotProduct]

/-- The size of a vector that is worth something is not zero. -/
theorem ne_zero_of_usableSize {size : ℝ} (h : usableSize size = true) : size ≠ 0 := by
  simpa [usableSize] using (Bool.and_eq_true_iff.mp h).1

/-- Dividing both parts of a complex vector divides the vector. -/
theorem complexVector_div (re im : Vec n ℝ) (size : ℝ) :
    complexVector (re.map fun v => v / size) (im.map fun v => v / size) =
      fun i => complexVector re im i / size := by
  funext i
  apply Complex.ext <;> simp [complexVector]

/-- The imaginary part of a real vector stays zero. -/
theorem inAllRows_im (hreal : x.IsReal) : (inAllRows factor x.im : Vec n ℝ) = Vec.zero := by
  apply Vec.ext_get
  intro i hi
  cases factor <;> simp [inAllRows, Vec.zero, sumTo_real, hreal _]

/-- A null vector that is real comes from a real vector. -/
theorem NearNullVector.isReal {m e : Matrix (Fin n) (Fin n) ℂ} {above : List (Block ℝ)} {last : Nat}
    {bound : ℝ} {real : Prop} {perturbed : Bool}
    (h : NearNullVector m above last bound real perturbed e (x.inRows n)) (hrows : rows ≤ n)
    (hreal : real) : x.IsReal := by
  intro i
  by_cases hi : i < n
  · exact (h.real hreal).1 ⟨i, hi⟩
  · exact x.im.get_of_le (hrows.trans (Nat.le_of_not_lt hi))

/-- A vector that is worth something is expanded and divided by its length. -/
theorem LeadingVector.eigenvector?_eq_some {isPair : Bool} {v : Eigenvector n ℝ} (hrows : rows ≤ n)
    (hreal : isPair = false → x.IsReal) (h : x.eigenvector? norm factor isPair = some v) :
    norm.length (expanded factor (x.inRows n)) ≠ 0 ∧
      v.toComplex = fun i => expanded factor (x.inRows n) i /
        norm.length (expanded factor (x.inRows n)) := by
  rw [← complexVector_inAllRows hrows]
  simp only [eigenvector?, Option.ite_none_left_eq_some] at h
  obtain ⟨-, h⟩ := h
  cases isPair with
  | true =>
    simp only [if_true, Eigenvector.ofComplex?, Option.ite_none_right_eq_some, Option.some.injEq]
      at h
    obtain ⟨husable, rfl⟩ := h
    rw [← norm.sizeOf_eq_length]
    exact ⟨ne_zero_of_usableSize husable, complexVector_div _ _ _⟩
  | false =>
    simp only [Bool.false_eq_true, if_false, Eigenvector.ofReal?, Option.ite_none_right_eq_some,
      Option.some.injEq] at h
    obtain ⟨husable, rfl⟩ := h
    rw [inAllRows_im (hreal rfl), ← norm.sizeOfReal_eq_length]
    refine ⟨ne_zero_of_usableSize husable, ?_⟩
    rw [← complexVector_div, Eigenvector.toComplex]
    congr 1
    apply Vec.ext_get
    intro i hi
    simp [Vec.zero]

/-- Without a factor a vector is worth something unless its scale has vanished. -/
theorem LeadingVector.exists_eigenvector? {isPair : Bool} (hrows : rows ≤ n)
    (hreal : isPair = false → x.IsReal) (hscale : minPositive ≤ x.scale) (hne : x.inRows n ≠ 0) :
    ∃ v : Eigenvector n ℝ, x.eigenvector? norm none isPair = some v := by
  have hfinite {m : Nat} (v : Vec m ℝ) : v.allFinite = true := List.all_eq_true.mpr fun _ _ => rfl
  have hkept : x.isLost = false := by
    rw [isLost, hfinite, hfinite, decide_eq_false (not_lt.mpr hscale)]
    rfl
  have hlength : norm.length (complexVector (inAllRows none x.re) (inAllRows none x.im) :
      Fin n → ℂ) ≠ 0 := by
    rw [complexVector_inAllRows hrows]
    exact Normalization.length_ne_zero hne
  have husable {size : ℝ} (hsize : size ≠ 0) : usableSize size = true := by
    rw [usableSize, beq_real, decide_eq_false hsize]
    rfl
  cases isPair with
  | true =>
    rw [← norm.sizeOf_eq_length] at hlength
    simp [eigenvector?, hkept, Eigenvector.ofComplex?, husable hlength]
  | false =>
    rw [inAllRows_im (hreal rfl), ← norm.sizeOfReal_eq_length] at hlength
    simp [eigenvector?, hkept, Eigenvector.ofReal?, husable hlength]

end Expansion

section Packing

variable {find : Block ℝ → List (Block ℝ) → Option (Eigenvector n ℝ)}
  {blocks front back : List (Block ℝ)} {b : Block ℝ} {selected : List Bool}

/-- The column in position `k` as a complex vector, for a pair with the next column as its imaginary
part. -/
noncomputable def Eigenvectors.vectorAt (r : Eigenvectors n ℝ) (k : Nat) (isPair : Bool) :
    Fin n → ℂ :=
  fun i => ⟨r.matrix.get i k, if isPair then r.matrix.get i (k + 1) else 0⟩

/-- A column of the batch is a column of its matrix. -/
theorem Eigenvectors.get_matrix {r : Eigenvectors n ℝ} {j : Nat} {column : Vec n ℝ}
    (h : r.columns[j]? = some column) (i : Fin n) : r.matrix.get i j = column.get i := by
  obtain ⟨hbound, -⟩ := List.getElem?_eq_some_iff.mp h
  rw [matrix, Mat.get_ofFn, if_pos ⟨i.isLt, hbound⟩, h]
  rfl

/-- The columns of a selected block that has not failed stand behind the columns of the selected
blocks above it and hold its vector. -/
theorem exists_vectorAt (hflag : flagAt selected b.start = true)
    (hsize : ∀ b above v, find b above = some v → v.columns.length = b.size)
    (hfailed : b.start ∉
      (packColumns find (selectedWithAbove (front ++ b :: back) selected)).failed) :
    ∃ v, find b front.reverse = some v ∧
      (packColumns find (selectedWithAbove (front ++ b :: back) selected)).vectorAt
        (totalSize (front.filter fun c => flagAt selected c.start)) b.isPair = v.toComplex := by
  obtain ⟨before, after, hchosen, hbefore⟩ := exists_selectedWithAbove front back hflag
  rw [hchosen] at hfailed ⊢
  obtain ⟨v, hv⟩ : ∃ v, find b front.reverse = some v := by
    refine Option.ne_none_iff_exists'.mp fun hnone => hfailed (mem_failed.mpr ?_)
    exact ⟨(b, front.reverse), by simp, hnone, rfl⟩
  refine ⟨v, hv, ?_⟩
  have hoffset := length_packColumns hsize before
  rw [hbefore] at hoffset
  have hcolumns : (packColumns find (before ++ (b, front.reverse) :: after)).columns =
      (packColumns find before).columns ++ (v.columns ++ (packColumns find after).columns) := by
    rw [packColumns_append]
    simp [packColumns, hv]
  rw [← hoffset]
  have hlength := hsize _ _ v hv
  set r := packColumns find (before ++ (b, front.reverse) :: after)
  have hget (i : Fin n) (k : Nat) (hk : k < v.columns.length) :
      r.matrix.get i ((packColumns find before).columns.length + k) = v.columns[k].get i := by
    refine Eigenvectors.get_matrix ?_ i
    rw [hcolumns, List.getElem?_append_right (Nat.le_add_right _ _), Nat.add_sub_cancel_left,
      List.getElem?_append_left hk, List.getElem?_eq_getElem hk]
  funext i
  cases v with
  | real x =>
    obtain ⟨k, rfl⟩ : ∃ k, b = .real k := by
      cases b with
      | real k => exact ⟨k, rfl⟩
      | pair k re im => cases hlength
    have hre := hget i 0 one_pos
    apply Complex.ext
    · exact hre
    · simp [Eigenvectors.vectorAt, isPair, Eigenvector.toComplex, complexVector, Vec.zero]
  | complex re im =>
    obtain ⟨k, wr, wi, rfl⟩ : ∃ k wr wi, b = .pair k wr wi := by
      cases b with
      | real k => cases hlength
      | pair k wr wi => exact ⟨k, wr, wi, rfl⟩
    apply Complex.ext
    · exact hget i 0 two_pos
    · exact hget i 1 one_lt_two

/-- The columns of a selected block that has not failed are its null vector, expanded and divided by
its length. -/
theorem NearNullVector.column_eq {vector : (b : Block ℝ) → List (Block ℝ) → LeadingVector b.stop ℝ}
    {norm : Normalization} {factor : Option (Mat n n ℝ)} {m e : Matrix (Fin n) (Fin n) ℂ}
    {bound : ℝ} {perturbed : Bool} (h : NearNullVector m front b.stop bound (b.isPair = false)
      perturbed e ((vector b front.reverse).inRows n))
    (hstop : b.stop ≤ n) (hflag : flagAt selected b.start = true) :
    let r := packColumns (fun b above => (vector b above).eigenvector? norm factor b.isPair)
      (selectedWithAbove (front ++ b :: back) selected)
    let column := r.vectorAt (totalSize (front.filter fun c => flagAt selected c.start)) b.isPair
    let x := expanded factor ((vector b front.reverse).inRows n)
    b.start ∉ r.failed → (∀ i, column i = x i / norm.length x) ∧ norm.length column = 1 := by
  intro r column x hfailed
  obtain ⟨v, hfind, hvector⟩ := exists_vectorAt hflag
    (fun _ _ _ => LeadingVector.length_columns_eq_size) hfailed
  obtain ⟨hlength, hcomplex⟩ := LeadingVector.eigenvector?_eq_some hstop (h.isReal hstop) hfind
  have hcolumn : column = fun i => x i / norm.length x := hvector.trans hcomplex
  rw [hcolumn]
  exact ⟨fun _ => rfl, Normalization.length_div hlength⟩

/-- The second of two blocks of order one has not failed if it has a vector. -/
theorem not_mem_failed_two {v : Eigenvector n ℝ} (h : find (.real 1) [.real 0] = some v) :
    1 ∉ (packColumns find (selectedWithAbove [.real 0, .real 1] [false, true])).failed := by
  rw [mem_failed]
  rintro ⟨entry, hmem, hnone, -⟩
  have hchosen : selectedWithAbove ([.real 0, .real 1] : List (Block ℝ)) [false, true] =
      [(.real 1, [.real 0])] := rfl
  obtain rfl := List.mem_singleton.mp (hchosen ▸ hmem)
  exact Option.some_ne_none v (h.symm.trans hnone)

end Packing

end SchurForm
