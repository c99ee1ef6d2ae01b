import Mathlib.LinearAlgebra.Matrix.Block
import SchurForm.Proofs.CharacteristicProduct

/-!
# What recognition accepts

A square matrix is recognized exactly if it is a real Schur form: nothing stands below the diagonal
but single entries right under it, and the block of order two over each of them has a negative
discriminant. A pencil is recognized exactly if it is a generalized real Schur form, where the
second matrix is triangular and has a diagonal non-singular block under every pair, and the
discriminant is that of the quotient of the two blocks.

Entries outside a matrix are zero, so the conditions are stated for all positions. Recognition walks
down the diagonal and looks one row ahead; a non-zero entry under the diagonal therefore stands in
the one block that begins in its column.
-/

namespace SchurForm

open Scalar Block Matrix

variable {k l m n : Nat}

section OrderTwo

/-- A quarter of the discriminant of the characteristic polynomial of a matrix of order two. -/
noncomputable def quarterDiscriminant (a : Matrix (Fin 2) (Fin 2) ℝ) : ℝ :=
  ((a 0 0 - a 1 1) / two) ^ 2 + a 0 1 * a 1 0

/-- A quarter of the discriminant in terms of trace and determinant. -/
theorem quarterDiscriminant_eq (a : Matrix (Fin 2) (Fin 2) ℝ) :
    quarterDiscriminant a = (a.trace / 2) ^ 2 - a.det := by
  rw [quarterDiscriminant, two_real, Matrix.trace_fin_two, Matrix.det_fin_two]
  ring

/-- A matrix of order two has a conjugate pair exactly if its discriminant is negative. -/
theorem conjugatePair?_ne_none_iff (a : Matrix (Fin 2) (Fin 2) ℝ) :
    conjugatePair? a.trace a.det ≠ none ↔ quarterDiscriminant a < 0 := by
  rw [quarterDiscriminant_eq, conjugatePair?_eq]
  split
  · exact iff_of_true (Option.some_ne_none _) (by linarith)
  · exact iff_of_false (by simp) (by linarith)

/-- The conjugate pair of a matrix of order two lies off the real axis and makes `A - x I`
singular. -/
theorem det_sub_conjugatePair? {a : Matrix (Fin 2) (Fin 2) ℝ} {re im : ℝ}
    (h : conjugatePair? a.trace a.det = some (re, im)) :
    0 < im ∧ (a.map Complex.ofReal - (⟨re, im⟩ : ℂ) • 1).det = 0 := by
  have hfactors := conjugatePair?_factors h ⟨re, im⟩
  rw [sub_self, zero_mul] at hfactors
  refine ⟨?_, ?_⟩
  · rw [conjugatePair?_eq, Option.ite_none_right_eq_some, Option.some.injEq, Prod.mk.injEq] at h
    obtain ⟨hneg, -, rfl⟩ := h
    exact Real.sqrt_pos.mpr (by nlinarith)
  · rw [Matrix.trace_fin_two, Matrix.det_fin_two] at hfactors
    rw [Matrix.det_fin_two, hfactors]
    simp
    ring

end OrderTwo

namespace Mat

/-- The diagonal block of order two in row `k`. -/
def pairBlock (a : Mat m n ℝ) (k : Nat) : Matrix (Fin 2) (Fin 2) ℝ :=
  (a.block k k : Mat 2 2 ℝ).toMatrix

/-- An entry of a block of order two on the diagonal. -/
theorem pairBlock_apply (a : Mat m n ℝ) (k : Nat) (i j : Fin 2) :
    a.pairBlock k i j = a.get (k + i) (k + j) :=
  get_block a k k i.isLt j.isLt

/-- Nothing stands below the diagonal but single entries right under it. -/
structure IsQuasiTriangular (s : Mat m n ℝ) : Prop where
  below : ∀ i j, j + 2 ≤ i → s.get i j = 0
  apart : ∀ k, s.get (k + 1) k = 0 ∨ s.get (k + 2) (k + 1) = 0

/-- A real Schur form: the block over every entry under the diagonal has a negative discriminant. -/
structure IsSchurForm (s : Mat m n ℝ) : Prop extends s.IsQuasiTriangular where
  complex : ∀ k, s.get (k + 1) k ≠ 0 → quarterDiscriminant (s.pairBlock k) < 0

/-- The block pair of order two in row `k`, over a diagonal non-singular block, has a conjugate pair
of eigenvalues. -/
structure IsPairOver (s : Mat m n ℝ) (t : Mat k l ℝ) (row : Nat) : Prop where
  upper : t.get row (row + 1) = 0
  first : t.get row row ≠ 0
  second : t.get (row + 1) (row + 1) ≠ 0
  complex : quarterDiscriminant ((t.pairBlock row)⁻¹ * s.pairBlock row) < 0

/-- A generalized real Schur form. -/
structure IsPencilSchurForm (s : Mat m n ℝ) (t : Mat k l ℝ) : Prop extends
    s.IsQuasiTriangular where
  triangular : ∀ i j, j < i → t.get i j = 0
  complex : ∀ row, s.get (row + 1) row ≠ 0 → s.IsPairOver t row

section Pairs

variable {s t : Mat n n ℝ} {row : Nat}

/-- A block of order two has an eigenvalue off the real axis exactly if its discriminant is
negative. -/
theorem pairAt_ne_none_iff : pairAt s row ≠ none ↔ quarterDiscriminant (s.pairBlock row) < 0 := by
  rw [pairAt_eq]
  exact conjugatePair?_ne_none_iff _

/-- The eigenvalue of a block pair is that of the quotient of its blocks. -/
theorem pencilPairAt_eq_quotient (ht : t.DiagonalAt row) (h0 : t.get row row ≠ 0)
    (h1 : t.get (row + 1) (row + 1) ≠ 0) :
    let a := (t.pairBlock row)⁻¹ * s.pairBlock row
    t.pairBlock row * a = s.pairBlock row ∧
      pencilPairAt s t row = conjugatePair? a.trace a.det := by
  intro a
  have hunit : IsUnit (t.pairBlock row).det := by
    refine isUnit_iff_ne_zero.mpr ?_
    rw [pairBlock, det_block_two, ht.1, zero_mul, sub_zero]
    exact mul_ne_zero h0 h1
  have hproduct : t.pairBlock row * a = s.pairBlock row :=
    Matrix.mul_nonsing_inv_cancel_left _ _ hunit
  have hrow (j : Fin 2) : a 0 j = s.get row (row + j) / t.get row row ∧
      a 1 j = s.get (row + 1) (row + j) / t.get (row + 1) (row + 1) := by
    have hfirst := congrFun (congrFun hproduct 0) j
    have hsecond := congrFun (congrFun hproduct 1) j
    simp only [Matrix.mul_apply, Fin.sum_univ_two, pairBlock_apply, Fin.val_zero, Fin.val_one,
      ht.1, ht.2, zero_mul, add_zero, zero_add] at hfirst hsecond
    rw [eq_div_iff h0, eq_div_iff h1, mul_comm, hfirst, mul_comm, hsecond]
    exact ⟨rfl, rfl⟩
  refine ⟨hproduct, ?_⟩
  rw [Matrix.trace_fin_two, Matrix.det_fin_two, (hrow 0).1, (hrow 0).2, (hrow 1).1, (hrow 1).2,
    ← complexEigenvalue?_eq]
  simp [pencilPairAt, pencilComplexEigenvalue?, h0, h1]

/-- A block pair over a diagonal block has an eigenvalue off the real axis exactly if the diagonal
block is not singular and the quotient has a negative discriminant. -/
theorem pencilPairAt_ne_none_iff (ht : t.DiagonalAt row) :
    pencilPairAt s t row ≠ none ↔ s.IsPairOver t row := by
  constructor
  · intro h
    obtain ⟨h0, h1⟩ := diagonal_ne_zero_of_pencilPairAt h
    refine ⟨ht.1, h0, h1, ?_⟩
    rw [(pencilPairAt_eq_quotient ht h0 h1).2] at h
    exact (conjugatePair?_ne_none_iff _).mp h
  · rintro ⟨-, h0, h1, hcomplex⟩
    rw [(pencilPairAt_eq_quotient ht h0 h1).2]
    exact (conjugatePair?_ne_none_iff _).mpr hcomplex

/-- The eigenvalue of a block of order two makes `A - x I` singular. -/
theorem det_sub_pairAt {re im : ℝ} (h : pairAt s row = some (re, im)) :
    0 < im ∧ ((s.pairBlock row).map Complex.ofReal - (⟨re, im⟩ : ℂ) • 1).det = 0 :=
  det_sub_conjugatePair? ((pairAt_eq s row).symm.trans h)

/-- The eigenvalue of a block pair makes `A - x B` singular. -/
theorem det_sub_pencilPairAt (ht : t.DiagonalAt row) {re im : ℝ}
    (h : pencilPairAt s t row = some (re, im)) :
    0 < im ∧ ((s.pairBlock row).map Complex.ofReal -
      (⟨re, im⟩ : ℂ) • (t.pairBlock row).map Complex.ofReal).det = 0 := by
  obtain ⟨h0, h1⟩ := diagonal_ne_zero_of_pencilPairAt (h ▸ Option.some_ne_none _)
  obtain ⟨hproduct, hquotient⟩ := pencilPairAt_eq_quotient (s := s) ht h0 h1
  obtain ⟨him, hroot⟩ := det_sub_conjugatePair? (hquotient.symm.trans h)
  refine ⟨him, ?_⟩
  have hfactor (x : ℂ) : (s.pairBlock row).map Complex.ofReal -
      x • (t.pairBlock row).map Complex.ofReal = (t.pairBlock row).map Complex.ofReal *
        (((t.pairBlock row)⁻¹ * s.pairBlock row).map Complex.ofReal - x • 1) := by
    rw [Matrix.mul_sub, Matrix.mul_smul, Matrix.mul_one]
    congr 1
    conv_lhs => rw [← hproduct]
    exact Matrix.map_mul (f := Complex.ofRealHom)
  rw [hfactor, Matrix.det_mul, hroot, mul_zero]

end Pairs

/-- Where the second matrix is triangular and not singular, the quotient of a block pair is the
block of the quotient of the matrices. -/
theorem block_inv_mul {s t : Mat n n ℝ} (ht : ∀ i j, j < i → t.get i j = 0)
    (hdet : t.toMatrix.det ≠ 0) {row : Nat} (hrow : row + 2 ≤ n) (hcut : s.IsCut (row + 2)) :
    let rows : Fin 2 → Fin n := fun i => ⟨row + i, by omega⟩
    (t.toMatrix⁻¹ * s.toMatrix).submatrix rows rows = (t.pairBlock row)⁻¹ * s.pairBlock row := by
  intro rows
  have hunit : IsUnit t.toMatrix.det := isUnit_iff_ne_zero.mpr hdet
  have htriangular : t.toMatrix.BlockTriangular id := fun i j hij => ht i j hij
  have hinverse : t.toMatrix⁻¹.BlockTriangular id := by
    let _ := t.toMatrix.invertibleOfIsUnitDet hunit
    exact Matrix.blockTriangular_inv_of_blockTriangular htriangular
  -- The quotient is cut behind the block, as the first matrix is.
  have hbelow (r : Fin n) (hr : row + 2 ≤ r) (j : Fin 2) :
      (t.toMatrix⁻¹ * s.toMatrix) r (rows j) = 0 := by
    rw [Matrix.mul_apply]
    apply Finset.sum_eq_zero
    intro c _
    by_cases hc : c < r
    · rw [hinverse hc, zero_mul]
    · have hzero : s.get c (row + j) = 0 := hcut _ _ (by omega) (by omega)
      rw [toMatrix_apply, hzero, mul_zero]
  have hblock : t.pairBlock row * (t.toMatrix⁻¹ * s.toMatrix).submatrix rows rows =
      s.pairBlock row := by
    ext i j
    have hproduct := congrFun (congrFun
      (Matrix.mul_nonsing_inv_cancel_left t.toMatrix s.toMatrix hunit) (rows i)) (rows j)
    rw [Matrix.mul_apply, Fintype.sum_eq_add (rows 0) (rows 1) (by simp [rows]) fun r hr => ?_]
      at hproduct
    · rw [Matrix.mul_apply, Fin.sum_univ_two, pairBlock_apply, pairBlock_apply, pairBlock_apply]
      exact hproduct
    · have hne : (r : Nat) ≠ row ∧ (r : Nat) ≠ row + 1 := by simpa [rows, Fin.ext_iff] using hr
      by_cases hr : row + 2 ≤ r
      · rw [hbelow r hr, mul_zero]
      · rw [toMatrix_apply, ht _ _ (show (r : Nat) < row + i by omega), zero_mul]
  have hdetBlock : (t.pairBlock row).det ≠ 0 := by
    have hprod : ∏ i, t.toMatrix i i ≠ 0 := Matrix.det_of_isUpperTriangular htriangular ▸ hdet
    have hdiagonal := fun i => Finset.prod_ne_zero_iff.mp hprod i (Finset.mem_univ i)
    rw [Matrix.det_fin_two, pairBlock_apply, pairBlock_apply, pairBlock_apply, pairBlock_apply,
      ht (row + (1 : Fin 2)) (row + (0 : Fin 2)) (by simp), mul_zero, sub_zero]
    exact mul_ne_zero (hdiagonal (rows 0)) (hdiagonal (rows 1))
  rw [← hblock, Matrix.nonsing_inv_mul_cancel_left _ _ (isUnit_iff_ne_zero.mpr hdetBlock)]

end Mat

section Recognized

variable {s t : Mat n n ℝ} {blocks : List (Block ℝ)}

/-- A block of order two begins in the column of every entry under the diagonal. -/
theorem Mat.CutBy.exists_pair (hcuts : s.CutBy blocks) (htiles : Tiles 0 blocks n) {k : Nat}
    (hk : s.get (k + 1) k ≠ 0) : ∃ b ∈ blocks, b.start = k ∧ b.size = 2 := by
  have hrows : totalSize blocks = n := by simpa using htiles.last_eq.symm
  have hin : k < n := by
    by_contra hout
    exact hk (s.get_of_cols_le _ (Nat.le_of_not_lt hout))
  obtain ⟨place, hplace, hfirst, hlast⟩ :=
    exists_placed_row (Nat.zero_le k) (by rwa [Nat.zero_add, hrows])
  have hinside : k + 1 < place.1 + place.2.size := by
    by_contra hcut
    exact hk (hcuts.isCut_behind hrows hplace _ _ (Nat.le_of_not_lt hcut) hlast)
  have hsize := place.2.size_cases
  refine ⟨place.2, mem_of_mem_placed hplace, ?_, by omega⟩
  rw [htiles.start_eq_of_mem_placed hplace]
  omega

/-- The entries under the diagonal stand apart, because no block has three rows. -/
theorem Mat.CutBy.isQuasiTriangular (hcuts : s.CutBy blocks) (htiles : Tiles 0 blocks n) :
    s.IsQuasiTriangular := by
  have hrows : totalSize blocks = n := by simpa using htiles.last_eq.symm
  refine ⟨fun i j hij => hcuts.quasiTriangular hrows hij, fun k => ?_⟩
  by_cases hk : s.get (k + 1) k = 0
  · exact Or.inl hk
  · obtain ⟨b, hb, hstart, hsize⟩ := hcuts.exists_pair htiles hk
    right
    exact hcuts.isCut_stop htiles hb _ _ (by rw [stop]; omega) (by rw [stop]; omega)

/-- A block is of order two exactly if an entry stands under its first diagonal entry. -/
theorem Mat.CutBy.isPair_iff (hcuts : s.CutBy blocks) (htiles : Tiles 0 blocks n)
    (hpairs : ∀ b ∈ blocks, b.size = 2 → s.get (b.start + 1) b.start ≠ 0) {b : Block ℝ}
    (hb : b ∈ blocks) :
    b.isPair = true ↔ b.start + 1 < n ∧ s.get (b.start + 1) b.start ≠ 0 := by
  have hstop := htiles.stop_le hb
  cases b with
  | real k =>
    refine iff_of_false (by simp [isPair]) ?_
    rintro ⟨-, hne⟩
    exact hne (hcuts.isCut_stop htiles hb _ _ le_rfl (Nat.lt_succ_self k))
  | pair k re im => exact iff_of_true rfl ⟨hstop, hpairs _ hb rfl⟩

/-- A scan succeeds if the entries under the diagonal stand apart and the eigenvalues of the blocks
over them are found. -/
theorem exists_scanBlocks (pair : Nat → Except (FormError ℝ) (ℝ × ℝ))
    (h : ∀ k, s.get (k + 1) k ≠ 0 → s.get (k + 2) (k + 1) = 0 ∧ ∃ value, pair k = .ok value)
    (left k : Nat) : ∃ blocks, scanBlocks s pair left k = .ok blocks := by
  -- The cases of the scan are those of `tiles_of_scanBlocks`.
  fun_induction scanBlocks s pair left k with
  | case1 k => exact ⟨_, rfl⟩
  | case2 k => exact ⟨_, rfl⟩
  | case3 left k hnonzero hnext =>
    obtain ⟨hzero, -⟩ := h k (by simpa using hnonzero)
    simp [hzero] at hnext
  | case4 left k hnonzero _ ih =>
    obtain ⟨-, value, hvalue⟩ := h k (by simpa using hnonzero)
    obtain ⟨rest, hrest⟩ := ih
    exact ⟨_, checked_bind_eq_ok.mpr ⟨_, hvalue, checked_bind_eq_ok.mpr ⟨_, hrest, rfl⟩⟩⟩
  | case5 left k _ ih =>
    obtain ⟨rest, hrest⟩ := ih
    exact ⟨_, checked_bind_eq_ok.mpr ⟨_, hrest, rfl⟩⟩

/-- The entries under the diagonal of a recognized form are those of its blocks of order two. -/
theorem Mat.Classified.subdiagonal_ne_zero (h : s.Classified blocks) {b : Block ℝ}
    (hb : b ∈ blocks) (hsize : b.size = 2) : s.get (b.start + 1) b.start ≠ 0 :=
  subdiagonal_ne_zero_of_complex ((h.pairs b hb).ne_none hsize)

/-- The entries under the diagonal of the first matrix of a recognized pencil are those of its
blocks of order two. -/
theorem Mat.PencilClassified.subdiagonal_ne_zero (h : s.PencilClassified t blocks) {b : Block ℝ}
    (hb : b ∈ blocks) (hsize : b.size = 2) : s.get (b.start + 1) b.start ≠ 0 :=
  subdiagonal_ne_zero_of_pencilPairAt ((h.pairs b hb).ne_none hsize)

/-- Real Schur forms are recognized, and nothing else is. -/
theorem exists_diagonalBlocks_iff :
    (∃ blocks, diagonalBlocks s = .ok blocks) ↔ s.IsSchurForm := by
  constructor
  · rintro ⟨blocks, hblocks⟩
    have h := classified_of_diagonalBlocks hblocks
    refine ⟨h.cuts.isQuasiTriangular h.tiles, fun k hk => ?_⟩
    obtain ⟨b, hb, rfl, hsize⟩ := h.cuts.exists_pair h.tiles hk
    exact Mat.pairAt_ne_none_iff.mp ((h.pairs b hb).ne_none hsize)
  · intro h
    obtain ⟨blocks, hscan⟩ := exists_scanBlocks (s := s) (requirePair s) (fun k hk => by
      obtain ⟨value, hvalue⟩ := Option.ne_none_iff_exists'.mp
        (Mat.pairAt_ne_none_iff.mpr (h.complex k hk))
      exact ⟨(h.apart k).resolve_left hk, value, by simp [requirePair, hvalue]⟩) n 0
    exact ⟨blocks, checked_bind_eq_ok.mpr ⟨(), checkSubdiagonal_of_zero h.below, hscan⟩⟩

/-- Generalized real Schur forms are recognized, and nothing else is. -/
theorem exists_pencilBlocks_iff :
    (∃ blocks, pencilBlocks s t = .ok blocks) ↔ s.IsPencilSchurForm t := by
  constructor
  · rintro ⟨blocks, hblocks⟩
    have h := classified_of_pencilBlocks hblocks
    refine ⟨h.cuts_s.isQuasiTriangular h.tiles, h.triangular.1, fun k hk => ?_⟩
    obtain ⟨b, hb, rfl, hsize⟩ := h.cuts_s.exists_pair h.tiles hk
    exact (Mat.pencilPairAt_ne_none_iff (h.diagonal b hb hsize)).mp ((h.pairs b hb).ne_none hsize)
  · intro h
    obtain ⟨blocks, hscan⟩ := exists_scanBlocks (s := s) (requirePencilPair s t)
      (fun k hk => by
        have hover := h.complex k hk
        have hdiagonal : t.DiagonalAt k := ⟨hover.upper, h.triangular _ _ (Nat.lt_succ_self k)⟩
        obtain ⟨value, hvalue⟩ := Option.ne_none_iff_exists'.mp
          ((Mat.pencilPairAt_ne_none_iff hdiagonal).mpr hover)
        exact ⟨(h.apart k).resolve_left hk, value, by
          simp [requirePencilPair, hover.upper, hvalue]⟩) n 0
    exact ⟨blocks, checked_bind_eq_ok.mpr ⟨(), checkSubdiagonal_of_zero h.below,
      checked_bind_eq_ok.mpr ⟨(), checkTriangular_of_zero h.triangular, hscan⟩⟩⟩

end Recognized

section Tables

variable {α : Type} [Scalar α] {name : String}

/-- A table passes as a square matrix exactly if it is one. -/
theorem Table.square_eq_ok {s : Table α} {n : Nat} {a : Mat n n α} :
    s.square name = .ok ⟨n, a⟩ ↔ s = .ofMat a := by
  constructor
  · intro h
    obtain ⟨rows, cols, mat⟩ := s
    rw [square] at h
    split at h
    · rename_i hdims
      obtain rfl : rows = cols := hdims
      obtain ⟨rfl, ha⟩ := Sigma.mk.inj (Except.ok.inj h)
      obtain rfl : mat = a := (leading_ofMat mat).symm.trans (eq_of_heq ha)
      rfl
    · cases h
  · rintro rfl
    have hleading : (ofMat a).leading (ofMat a).rows (ofMat a).rows = a := leading_ofMat a
    rw [square, hleading]
    exact if_pos rfl

/-- A table passes as a square matrix of a given order exactly if it is one. -/
theorem Table.squareOf_eq_ok {t : Table α} {n : Nat} {a : Mat n n α} :
    t.squareOf name n = .ok a ↔ t = .ofMat a := by
  constructor
  · intro h
    obtain ⟨rows, cols, mat⟩ := t
    rw [squareOf] at h
    split at h
    · rename_i hdims
      obtain rfl : rows = cols := hdims
      split at h
      · rename_i horder
        obtain rfl : rows = n := horder
        rw [← Except.ok.inj h]
        exact congrArg _ (leading_ofMat mat).symm
      · cases h
    · cases h
  · rintro rfl
    rw [squareOf, leading_ofMat]
    exact (if_pos rfl).trans (if_pos rfl)

/-- A table is recognized exactly if it holds a square matrix that is. -/
theorem Table.diagonalBlocks_eq_ok {s : Table α} {blocks : List (Block α)} :
    s.diagonalBlocks = .ok blocks ↔
      ∃ (n : Nat) (a : Mat n n α), s = .ofMat a ∧ SchurForm.diagonalBlocks a = .ok blocks := by
  rw [diagonalBlocks, checked_bind_eq_ok]
  constructor
  · rintro ⟨⟨n, a⟩, hsquare, h⟩
    exact ⟨n, a, square_eq_ok.mp hsquare, h⟩
  · rintro ⟨n, a, hs, h⟩
    exact ⟨⟨n, a⟩, square_eq_ok.mpr hs, h⟩

/-- Two tables are recognized exactly if they hold square matrices of one order that form a
recognized pencil. -/
theorem Table.pencilBlocks_eq_ok {s t : Table α} {blocks : List (Block α)} :
    s.pencilBlocks t = .ok blocks ↔ ∃ (n : Nat) (a b : Mat n n α), s = .ofMat a ∧ t = .ofMat b ∧
      SchurForm.pencilBlocks a b = .ok blocks := by
  rw [pencilBlocks, checked_bind_eq_ok]
  constructor
  · rintro ⟨⟨n, a⟩, hsquare, h⟩
    obtain ⟨b, hsquareOf, h⟩ := checked_bind_eq_ok.mp h
    exact ⟨n, a, b, square_eq_ok.mp hsquare, squareOf_eq_ok.mp hsquareOf, h⟩
  · rintro ⟨n, a, b, hs, ht, h⟩
    exact ⟨⟨n, a⟩, square_eq_ok.mpr hs, checked_bind_eq_ok.mpr ⟨b, squareOf_eq_ok.mpr ht, h⟩⟩

end Tables

/-- Recognition of matrices of any dimensions accepts exactly the square real Schur forms, and
recognition of pairs of matrices exactly the generalized real Schur forms of one order. The blocks
that are found tile the rows. A block is of order two exactly if an entry stands under its first
diagonal entry, and its eigenvalue lies above the real axis and makes `S - x I`, or `S - x T`,
singular in the block. The quotient whose discriminant is tested is the block of `T⁻¹ S` wherever
that matrix exists. -/
theorem recognized_iff_schurForm :
    (∀ s : Table ℝ, (∃ blocks, s.diagonalBlocks = .ok blocks) ↔
      s.rows = s.cols ∧ s.mat.IsSchurForm) ∧
    (∀ s t : Table ℝ, (∃ blocks, s.pencilBlocks t = .ok blocks) ↔
      s.rows = s.cols ∧ t.rows = t.cols ∧ t.rows = s.rows ∧ s.mat.IsPencilSchurForm t.mat) ∧
    (∀ (s : Table ℝ) (blocks : List (Block ℝ)), s.diagonalBlocks = .ok blocks →
      Tiles 0 blocks s.rows ∧
      (∀ b ∈ blocks, b.isPair = true ↔
        b.start + 1 < s.rows ∧ s.mat.get (b.start + 1) b.start ≠ 0) ∧
      ∀ k re im, .pair k re im ∈ blocks → 0 < im ∧
        ((s.mat.pairBlock k).map Complex.ofReal - (⟨re, im⟩ : ℂ) • 1).det = 0) ∧
    (∀ (s t : Table ℝ) (blocks : List (Block ℝ)), s.pencilBlocks t = .ok blocks →
      Tiles 0 blocks s.rows ∧
      (∀ b ∈ blocks, b.isPair = true ↔
        b.start + 1 < s.rows ∧ s.mat.get (b.start + 1) b.start ≠ 0) ∧
      ∀ k re im, .pair k re im ∈ blocks → 0 < im ∧
        ((s.mat.pairBlock k).map Complex.ofReal -
          (⟨re, im⟩ : ℂ) • (t.mat.pairBlock k).map Complex.ofReal).det = 0) ∧
    ∀ (n : Nat) (s t : Mat n n ℝ), s.IsPencilSchurForm t → t.toMatrix.det ≠ 0 →
      ∀ k (hk : k + 2 ≤ n), s.get (k + 1) k ≠ 0 →
        let rows : Fin 2 → Fin n := fun i => ⟨k + i, by omega⟩
        (t.toMatrix⁻¹ * s.toMatrix).submatrix rows rows = (t.pairBlock k)⁻¹ * s.pairBlock k := by
  refine ⟨fun s => ⟨?_, ?_⟩, fun s t => ⟨?_, ?_⟩, fun s blocks h => ?_, fun s t blocks h => ?_,
    fun n s t h hdet k hk hne => ?_⟩
  · rintro ⟨blocks, h⟩
    obtain ⟨n, a, rfl, hblocks⟩ := Table.diagonalBlocks_eq_ok.mp h
    exact ⟨rfl, exists_diagonalBlocks_iff.mp ⟨blocks, hblocks⟩⟩
  · obtain ⟨rows, cols, a⟩ := s
    rintro ⟨hsquare, h⟩
    obtain rfl : rows = cols := hsquare
    obtain ⟨blocks, h⟩ := exists_diagonalBlocks_iff.mpr h
    exact ⟨blocks, Table.diagonalBlocks_eq_ok.mpr ⟨rows, a, rfl, h⟩⟩
  · rintro ⟨blocks, h⟩
    obtain ⟨n, a, b, rfl, rfl, hblocks⟩ := Table.pencilBlocks_eq_ok.mp h
    exact ⟨rfl, rfl, rfl, exists_pencilBlocks_iff.mp ⟨blocks, hblocks⟩⟩
  · obtain ⟨rows, cols, a⟩ := s
    obtain ⟨rows', cols', b⟩ := t
    rintro ⟨hsquare, hsquare', horder, h⟩
    obtain rfl : rows = cols := hsquare
    obtain rfl : rows' = cols' := hsquare'
    obtain rfl : rows' = rows := horder
    obtain ⟨blocks, h⟩ := exists_pencilBlocks_iff.mpr h
    exact ⟨blocks, Table.pencilBlocks_eq_ok.mpr ⟨rows', a, b, rfl, rfl, h⟩⟩
  · obtain ⟨n, a, rfl, hblocks⟩ := Table.diagonalBlocks_eq_ok.mp h
    have hform := classified_of_diagonalBlocks hblocks
    exact ⟨hform.tiles,
      fun b hb => hform.cuts.isPair_iff hform.tiles (fun c => hform.subdiagonal_ne_zero) hb,
      fun k re im hb => Mat.det_sub_pairAt (hform.pairs _ hb)⟩
  · obtain ⟨n, a, b, rfl, rfl, hblocks⟩ := Table.pencilBlocks_eq_ok.mp h
    have hform := classified_of_pencilBlocks hblocks
    exact ⟨hform.tiles,
      fun b hb => hform.cuts_s.isPair_iff hform.tiles (fun c => hform.subdiagonal_ne_zero) hb,
      fun k re im hb => Mat.det_sub_pencilPairAt (hform.diagonal _ hb rfl) (hform.pairs _ hb)⟩
  · refine Mat.block_inv_mul h.triangular hdet hk fun r c hr hc => ?_
    by_cases hrc : c + 2 ≤ r
    · exact h.below r c hrc
    · obtain ⟨rfl, rfl⟩ : r = k + 2 ∧ c = k + 1 := by omega
      exact (h.apart k).resolve_left hne

/-- A real eigenvalue above a block with zero diagonal, whose lower entry is given. -/
def realAbovePair (lower : ℝ) : Mat 3 3 ℝ :=
  Mat.ofFn fun i j => if i = 0 then 1 else if i = 1 ∧ j = 2 then 1 else
    if i = 2 ∧ j = 1 then lower else 0

/-- A triangular matrix with the diagonal entries one, one and minus one. -/
def reflectedBelow : Mat 3 3 ℝ :=
  Mat.ofFn fun i j => if i = 0 then 1 else if i = 1 ∧ j = 1 then 1 else
    if i = 2 ∧ j = 2 then -1 else 0

/-- A quarter turn below a real eigenvalue is a real Schur form. A reflection below a real
eigenvalue is none, but over a diagonal with entries of both signs it holds a pair. -/
theorem recognized_iff_schurForm_turn :
    (Table.ofMat (realAbovePair (-1))).diagonalBlocks = .ok [.real 0, .pair 1 0 1] ∧
    (realAbovePair (-1)).IsSchurForm ∧
    (((realAbovePair (-1)).pairBlock 1).map Complex.ofReal - (⟨0, 1⟩ : ℂ) • 1).det = 0 ∧
    (Table.ofMat (realAbovePair 1)).pencilBlocks (.ofMat reflectedBelow) =
      .ok [.real 0, .pair 1 0 1] ∧
    (realAbovePair 1).IsPencilSchurForm reflectedBelow ∧
    (((realAbovePair 1).pairBlock 1).map Complex.ofReal -
      (⟨0, 1⟩ : ℂ) • (reflectedBelow.pairBlock 1).map Complex.ofReal).det = 0 ∧
    let rows : Fin 2 → Fin 3 := fun i => ⟨1 + i, by omega⟩
    (reflectedBelow.toMatrix⁻¹ * (realAbovePair 1).toMatrix).submatrix rows rows =
      (reflectedBelow.pairBlock 1)⁻¹ * (realAbovePair 1).pairBlock 1 := by
  have hs : (Table.ofMat (realAbovePair (-1))).diagonalBlocks = .ok [.real 0, .pair 1 0 1] := by
    refine Table.diagonalBlocks_eq_ok.mpr ⟨3, _, rfl, ?_⟩
    simp [diagonalBlocks, checkSubdiagonal, firstNonzeroBelow, positionsBelow, scanBlocks,
      realAbovePair, requirePair, pairAt, complexEigenvalue?_quarterTurn, List.range_succ,
      Bind.bind, Except.bind, pure, Except.pure]
  have ht : (Table.ofMat (realAbovePair 1)).pencilBlocks (.ofMat reflectedBelow) =
      .ok [.real 0, .pair 1 0 1] := by
    refine Table.pencilBlocks_eq_ok.mpr ⟨3, _, _, rfl, rfl, ?_⟩
    simp [pencilBlocks, checkSubdiagonal, checkTriangular, firstNonzeroBelow, positionsBelow,
      scanBlocks, realAbovePair, reflectedBelow, requirePencilPair, pencilPairAt,
      pencilComplexEigenvalue?, complexEigenvalue?_quarterTurn, List.range_succ, Bind.bind,
      Except.bind, pure, Except.pure]
  have hdet : reflectedBelow.toMatrix.det ≠ 0 := by
    simp [Matrix.det_fin_three, reflectedBelow]
  obtain ⟨hstandard, hpencil, hblocks, hpencilBlocks, hquotient⟩ := recognized_iff_schurForm
  have hform := ((hstandard _).mp ⟨_, hs⟩).2
  have hpencilForm := ((hpencil _ _).mp ⟨_, ht⟩).2.2.2
  refine ⟨hs, hform, ((hblocks _ _ hs).2.2 1 0 1 (by simp)).2, ht, hpencilForm,
    ((hpencilBlocks _ _ _ ht).2.2 1 0 1 (by simp)).2, ?_⟩
  exact hquotient 3 (realAbovePair 1) reflectedBelow hpencilForm hdet 1 le_rfl
    (by simp [realAbovePair])

end SchurForm
