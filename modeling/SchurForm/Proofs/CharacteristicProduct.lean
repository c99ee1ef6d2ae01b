import Mathlib.LinearAlgebra.Matrix.Charpoly.Basic
import SchurForm.Proofs.RecognizedForm

/-!
# The eigenvalue lists are the whole spectrum

The linear factors of the listed eigenvalues multiply to the characteristic polynomial, for a pencil
up to the signs of the diagonal of its second matrix. A form is cut behind every diagonal block, so
its determinant is the product of the determinants of the blocks and no entry above them matters;
the rows of a block contribute to the list exactly the factors of its own determinant.

Determinants are taken of the values of the characteristic matrix at a complex number, where they
are products of numbers; two polynomials with the same values are equal.
-/

namespace SchurForm

open Scalar Block Polynomial

variable {n : Nat}

section Determinants

variable {R : Type} [CommRing R]

/-- The rows and columns of a table from `k` on, as a matrix of order `m`. -/
def diagonalWindow (f : Nat → Nat → R) (k m : Nat) : Matrix (Fin m) (Fin m) R :=
  Matrix.of fun i j => f (k + i) (k + j)

omit [CommRing R] in
/-- An entry of a window along the diagonal. -/
@[simp] theorem diagonalWindow_apply (f : Nat → Nat → R) (k m : Nat) (i j : Fin m) :
    diagonalWindow f k m i j = f (k + i) (k + j) := rfl

/-- The determinant of a table with a cut is the product of the determinants on both sides. -/
theorem det_diagonalWindow_add {f : Nat → Nat → R} {k p : Nat} (q : Nat)
    (hcut : ∀ r c, k + p ≤ r → c < k + p → f r c = 0) :
    (diagonalWindow f k (p + q)).det =
      (diagonalWindow f k p).det * (diagonalWindow f (k + p) q).det := by
  have hblocks : (diagonalWindow f k (p + q)).submatrix finSumFinEquiv finSumFinEquiv =
      Matrix.fromBlocks (diagonalWindow f k p)
        (Matrix.of fun (i : Fin p) (j : Fin q) => f (k + i) (k + p + j)) 0
        (diagonalWindow f (k + p) q) := by
    ext (i | i) (j | j)
    · rfl
    · simp [Nat.add_assoc]
    · simpa using hcut (k + (p + i)) (k + j) (by omega) (by omega)
    · simp [Nat.add_assoc]
  rw [← Matrix.det_submatrix_equiv_self finSumFinEquiv, hblocks, Matrix.det_fromBlocks_zero₂₁]

/-- The determinant of a table that is cut behind every block of a tiling. -/
theorem det_diagonalWindow_of_tiles {f : Nat → Nat → R} {first last : Nat} {blocks : List (Block ℝ)}
    (h : Tiles first blocks last)
    (hcuts : ∀ b ∈ blocks, ∀ r c, b.stop ≤ r → c < b.stop → f r c = 0) :
    (diagonalWindow f first (totalSize blocks)).det =
      (blocks.map fun b => (diagonalWindow f b.start b.size).det).prod := by
  induction blocks generalizing first with
  | nil => exact Matrix.det_fin_zero
  | cons b rest ih =>
    obtain ⟨rfl, hrest⟩ := h
    rw [totalSize_cons, det_diagonalWindow_add _ (hcuts b List.mem_cons_self), List.map_cons,
      List.prod_cons, ← ih hrest fun c hc => hcuts c (List.mem_cons_of_mem b hc)]
    rfl

/-- A product over the rows of a tiling, block by block. -/
theorem prod_rows_of_tiles {first last : Nat} {blocks : List (Block ℝ)}
    (h : Tiles first blocks last) (g : Nat → R) :
    ∏ i ∈ Finset.range (totalSize blocks), g (first + i) =
      (blocks.map fun b => ∏ i ∈ Finset.range b.size, g (b.start + i)).prod := by
  induction blocks generalizing first with
  | nil => rfl
  | cons b rest ih =>
    obtain ⟨rfl, hrest⟩ := h
    rw [totalSize_cons, Finset.prod_range_add, List.map_cons, List.prod_cons, ← ih hrest]
    simp only [stop, Nat.add_assoc]

/-- If the rows of every block contribute the factors of its determinant, each with a weight, then
all rows contribute those of the whole determinant. -/
theorem prod_rows_eq_det {f : Nat → Nat → R} {g w : Nat → R} {blocks : List (Block ℝ)}
    (h : Tiles 0 blocks n) (hcuts : ∀ b ∈ blocks, ∀ r c, b.stop ≤ r → c < b.stop → f r c = 0)
    (hblocks : ∀ b ∈ blocks, ∏ i ∈ Finset.range b.size, g (b.start + i) =
      (∏ i ∈ Finset.range b.size, w (b.start + i)) *
        (diagonalWindow f b.start b.size).det) :
    ∏ k ∈ Finset.range n, g k =
      (∏ k ∈ Finset.range n, w k) * (diagonalWindow f 0 n).det := by
  obtain rfl : n = totalSize blocks := by simpa using h.last_eq
  have hrows (g : Nat → R) := prod_rows_of_tiles h g
  simp only [Nat.zero_add] at hrows
  rw [hrows, hrows, det_diagonalWindow_of_tiles h hcuts, ← List.prod_map_mul]
  congr 1
  exact List.map_congr_left hblocks

end Determinants

/-- The linear factors of a conjugate pair multiply to the characteristic polynomial of its trace
and determinant. -/
theorem conjugatePair?_factors {trace det re im : ℝ} (h : conjugatePair? trace det = some (re, im))
    (x : ℂ) :
    (x - (⟨re, im⟩ : ℂ)) * (x - (⟨re, -im⟩ : ℂ)) = x ^ 2 - trace * x + det := by
  rw [conjugatePair?_eq, Option.ite_none_right_eq_some, Option.some.injEq, Prod.mk.injEq] at h
  obtain ⟨hneg, rfl, rfl⟩ := h
  have hsq : √(det - (trace / 2) ^ 2) ^ 2 = det - (trace / 2) ^ 2 :=
    Real.sq_sqrt (by nlinarith)
  set root := √(det - (trace / 2) ^ 2)
  apply Complex.ext
  · simp only [Complex.mul_re, Complex.sub_re, Complex.sub_im, Complex.add_re, pow_two,
      Complex.ofReal_re, Complex.ofReal_im]
    linear_combination hsq
  · simp only [Complex.mul_im, Complex.sub_re, Complex.sub_im, Complex.add_im, pow_two,
      Complex.ofReal_re, Complex.ofReal_im]
    ring

/-- The sign of a real number is negative exactly below zero. -/
theorem sign_eq_ite (x : ℝ) : (Scalar.sign x : ℝ) = if x < 0 then -1 else 1 := by
  rw [sign_real]
  split <;> simp_all

section Standard

variable {s : Mat n n ℝ} {b : Block ℝ}

/-- The eigenvalue that an entry of a standard form's list names. -/
def complexValue (entry : ℝ × ℝ) : ℂ :=
  ⟨entry.1, entry.2⟩

/-- The entries of `x I - S`. -/
noncomputable def characteristicEntry (s : Mat n n ℝ) (x : ℂ) (r c : Nat) : ℂ :=
  (if r = c then x else 0) - s.get r c

/-- The linear factors of a block of a standard form. -/
theorem prod_eigenvalueAt (hpair : b.HasPair (pairAt s)) (x : ℂ) :
    ∏ i ∈ Finset.range b.size, (x - complexValue (b.eigenvalueAt s (b.start + i))) =
      (diagonalWindow (characteristicEntry s x) b.start b.size).det := by
  cases b with
  | real k =>
    rw [size, Finset.prod_range_one, Matrix.det_fin_one]
    simp [characteristicEntry, eigenvalueAt, complexValue, start, Complex.ext_iff]
  | pair k re im =>
    have hne : k + 1 ≠ k := Nat.succ_ne_self k
    have hfactors := conjugatePair?_factors ((complexEigenvalue?_eq _ _ _ _).symm.trans hpair) x
    calc ∏ i ∈ Finset.range 2, (x - complexValue ((pair k re im).eigenvalueAt s (k + i)))
        = (x - ⟨re, im⟩) * (x - ⟨re, -im⟩) := by
          simp [Finset.prod_range_succ, eigenvalueAt, complexValue]
      _ = (x - s.get k k) * (x - s.get (k + 1) (k + 1)) -
            s.get k (k + 1) * s.get (k + 1) k := by
          rw [hfactors]
          push_cast
          ring
      _ = (diagonalWindow (characteristicEntry s x) k 2).det := by
          simp [Matrix.det_fin_two, characteristicEntry]

end Standard

section Pencil

variable {s t : Mat n n ℝ} {b : Block ℝ}

/-- The linear factor `beta * x - (real + i * imag)` of an entry of a pencil's list. -/
def pencilFactor (entry : ℝ × ℝ × ℝ) (x : ℂ) : ℂ :=
  entry.2.2 * x - ⟨entry.1, entry.2.1⟩

/-- The entries of `x T - S`. -/
noncomputable def pencilEntry (s t : Mat n n ℝ) (x : ℂ) (r c : Nat) : ℂ :=
  x * t.get r c - s.get r c

/-- The linear factors of a block pair of a pencil carry the signs of the second diagonal. -/
theorem prod_pencilEigenvalueAt (hpair : b.HasPair (pencilPairAt s t))
    (hdiagonal : b.size = 2 → t.DiagonalAt b.start) (x : ℂ) :
    ∏ i ∈ Finset.range b.size, pencilFactor (b.pencilEigenvalueAt s t (b.start + i)) x =
      (∏ i ∈ Finset.range b.size, ((Scalar.sign (t.get (b.start + i) (b.start + i)) : ℝ) : ℂ)) *
        (diagonalWindow (pencilEntry s t x) b.start b.size).det := by
  cases b with
  | real k =>
    calc ∏ i ∈ Finset.range 1, pencilFactor ((real k).pencilEigenvalueAt s t (k + i)) x
        = pencilFactor (Scalar.sign (t.get k k) * s.get k k, 0,
            Scalar.sign (t.get k k) * t.get k k) x := by
          rw [Finset.prod_range_one, pencilEigenvalueAt, sign_eq_ite]
      _ = (∏ i ∈ Finset.range 1, ((Scalar.sign (t.get (k + i) (k + i)) : ℝ) : ℂ)) *
            (diagonalWindow (pencilEntry s t x) k 1).det := by
          simp [pencilFactor, pencilEntry, Complex.ext_iff]
          constructor <;> ring
  | pair k re im =>
    obtain ⟨h0, h1⟩ := diagonal_ne_zero_of_pencilPairAt
      (ne_of_eq_of_ne hpair (Option.some_ne_none _))
    obtain ⟨hupper, hlower⟩ := hdiagonal rfl
    rw [start] at hupper hlower
    have hpair := (pencilComplexEigenvalue?_eq _ _ _ _ _ _).symm.trans hpair
    rw [if_neg (mul_ne_zero h0 h1)] at hpair
    have hfactors := conjugatePair?_factors hpair x
    set t0 := t.get k k
    set t1 := t.get (k + 1) (k + 1)
    have hsign (y : ℝ) : ((|y| : ℝ) : ℂ) = ((Scalar.sign y : ℝ) : ℂ) * y := by
      rw [← Complex.ofReal_mul, mul_comm, mul_sign]
    have hscale (y im : ℝ) : pencilFactor (re * |y|, im * |y|, |y|) x = |y| * (x - ⟨re, im⟩) := by
      simp [pencilFactor, Complex.ext_iff]
      constructor <;> ring
    have h0' : (t0 : ℂ) ≠ 0 := Complex.ofReal_ne_zero.mpr h0
    have h1' : (t1 : ℂ) ≠ 0 := Complex.ofReal_ne_zero.mpr h1
    calc ∏ i ∈ Finset.range 2, pencilFactor ((pair k re im).pencilEigenvalueAt s t (k + i)) x
        = pencilFactor (re * |t0|, im * |t0|, |t0|) x *
            pencilFactor (re * |t1|, -im * |t1|, |t1|) x := by
          simp [Finset.prod_range_succ, pencilEigenvalueAt, t0, t1]
      _ = |t0| * |t1| * ((x - ⟨re, im⟩) * (x - ⟨re, -im⟩)) := by
          rw [hscale, hscale]
          ring
      _ = ((Scalar.sign t0 : ℝ) * (Scalar.sign t1 : ℝ)) * ((x * t0 - s.get k k) *
            (x * t1 - s.get (k + 1) (k + 1)) - s.get k (k + 1) * s.get (k + 1) k) := by
          rw [hfactors, hsign, hsign]
          push_cast
          field_simp
          ring
      _ = (∏ i ∈ Finset.range 2, ((Scalar.sign (t.get (k + i) (k + i)) : ℝ) : ℂ)) *
            (diagonalWindow (pencilEntry s t x) k 2).det := by
          simp [Finset.prod_range_succ, Matrix.det_fin_two, pencilEntry, hupper, hlower, t0, t1]

end Pencil

section Spectrum

variable {s t : Mat n n ℝ} {blocks : List (Block ℝ)}

/-- Behind every block of a tiling by which a matrix is cut there is a cut. -/
theorem Mat.CutBy.isCut_stop (hcuts : s.CutBy blocks) (htiles : Tiles 0 blocks n) {b : Block ℝ}
    (hb : b ∈ blocks) : s.IsCut b.stop := by
  obtain ⟨row, hplace⟩ := exists_placed 0 hb
  have hrows : totalSize blocks = n := by simpa using htiles.last_eq.symm
  rw [stop, htiles.start_eq_of_mem_placed hplace]
  exact hcuts.isCut_behind hrows hplace

/-- The linear factors of a recognized standard form, at a number. -/
theorem Mat.Classified.prod_eigenvalues (h : s.Classified blocks) (x : ℂ) :
    ∏ k ∈ Finset.range n, (x - complexValue ((eigenvalues s blocks).at k)) =
      (diagonalWindow (characteristicEntry s x) 0 n).det := by
  have hcuts : ∀ b ∈ blocks, ∀ r c, b.stop ≤ r → c < b.stop → characteristicEntry s x r c = 0 := by
    intro b hb r c hr hc
    simp [characteristicEntry, h.cuts.isCut_stop h.tiles hb r c hr hc, show r ≠ c by omega]
  have hprod := prod_rows_eq_det (g := fun k => x - complexValue ((eigenvalues s blocks).at k))
    (w := fun _ => 1) h.tiles hcuts fun b hb => ?_
  · simpa using hprod
  · rw [Finset.prod_const_one, one_mul, ← prod_eigenvalueAt (h.pairs b hb)]
    apply Finset.prod_congr rfl
    intro i hi
    have hi := Finset.mem_range.mp hi
    have hstop : b.start + b.size ≤ n := h.tiles.stop_le hb
    rw [eigenvalues_at (by omega) (h.tiles.blockAt hb hi)]

/-- The linear factors of a recognized pencil, at a number. -/
theorem Mat.PencilClassified.prod_eigenvalues (h : s.PencilClassified t blocks) (x : ℂ) :
    ∏ k ∈ Finset.range n, pencilFactor ((pencilEigenvalues s t blocks).at k) x =
      (∏ k ∈ Finset.range n, ((Scalar.sign (t.get k k) : ℝ) : ℂ)) *
        (diagonalWindow (pencilEntry s t x) 0 n).det := by
  have hcuts : ∀ b ∈ blocks, ∀ r c, b.stop ≤ r → c < b.stop → pencilEntry s t x r c = 0 := by
    intro b hb r c hr hc
    simp [pencilEntry, h.cuts_s.isCut_stop h.tiles hb r c hr hc,
      h.cuts_t.isCut_stop h.tiles hb r c hr hc]
  refine prod_rows_eq_det h.tiles hcuts fun b hb => ?_
  rw [← prod_pencilEigenvalueAt (h.pairs b hb) (h.diagonal b hb)]
  apply Finset.prod_congr rfl
  intro i hi
  have hi := Finset.mem_range.mp hi
  have hstop : b.start + b.size ≤ n := h.tiles.stop_le hb
  rw [pencilEigenvalues_at (by omega) (h.tiles.blockAt hb hi)]

/-- No denominator in a pencil's list is negative. -/
theorem beta_nonneg (s t : Mat n n ℝ) (blocks : List (Block ℝ)) (k : Nat) :
    0 ≤ (pencilEigenvalues s t blocks).beta.get k := by
  rw [pencilEigenvalues, Vec.get_ofFn]
  split
  · dsimp only
    split
    · rename_i b _
      cases b with
      | real j =>
        simp only [pencilEigenvalueAt]
        split <;> linarith
      | pair j re im => exact abs_nonneg _
    · exact le_rfl
  · exact le_rfl

end Spectrum

/-- The linear factors of the listed eigenvalues of a recognized form multiply to its characteristic
polynomial. For a recognized pencil no denominator is negative, and the factors
`beta * X - (real + i * imag)` multiply to the characteristic polynomial, changed by the sign of
every negative diagonal entry of the second matrix. -/
theorem eigenvalues_factor_characteristic :
    (∀ (n : Nat) (s : Mat n n ℝ) (blocks : List (Block ℝ)), diagonalBlocks s = .ok blocks →
      let e := eigenvalues s blocks
      ∏ k ∈ Finset.range n, (X - C (⟨e.real.get k, e.imag.get k⟩ : ℂ)) =
        (s.toMatrix.map Complex.ofReal).charpoly) ∧
    (∀ (n : Nat) (s t : Mat n n ℝ) (blocks : List (Block ℝ)), pencilBlocks s t = .ok blocks →
      let e := pencilEigenvalues s t blocks
      let sigma : ℝ := ∏ k ∈ Finset.range n, if t.get k k < 0 then -1 else 1
      (∀ k, 0 ≤ e.beta.get k) ∧
      ∏ k ∈ Finset.range n,
          (C (e.beta.get k : ℂ) * X - C (⟨e.real.get k, e.imag.get k⟩ : ℂ)) =
        C (sigma : ℂ) *
          (Matrix.of fun i j : Fin n => C (t.get i j : ℂ) * X - C (s.get i j : ℂ)).det) := by
  constructor
  · intro n s blocks h e
    refine Polynomial.funext fun x => ?_
    have hprod := (classified_of_diagonalBlocks h).prod_eigenvalues x
    have hmatrix : Matrix.scalar (Fin n) x - s.toMatrix.map Complex.ofReal =
        diagonalWindow (characteristicEntry s x) 0 n := by
      ext i j
      simp [characteristicEntry, Matrix.diagonal_apply, Fin.ext_iff]
    rw [Polynomial.eval_prod, Matrix.eval_charpoly, hmatrix, ← hprod]
    simp [complexValue, Eigenvalues.at, e]
  · intro n s t blocks h e sigma
    refine ⟨beta_nonneg s t blocks, Polynomial.funext fun x => ?_⟩
    have hprod := (classified_of_pencilBlocks h).prod_eigenvalues x
    have hsigma : (sigma : ℂ) = ∏ k ∈ Finset.range n, ((Scalar.sign (t.get k k) : ℝ) : ℂ) := by
      simp only [sigma, Complex.ofReal_prod, sign_eq_ite]
    have hmatrix : (Polynomial.evalRingHom x).mapMatrix
        (Matrix.of fun i j : Fin n => C (t.get i j : ℂ) * X - C (s.get i j : ℂ)) =
          diagonalWindow (pencilEntry s t x) 0 n := by
      ext i j
      simp [pencilEntry, mul_comm x]
    rw [Polynomial.eval_prod, Polynomial.eval_mul, Polynomial.eval_C, hsigma,
      ← Polynomial.coe_evalRingHom, RingHom.map_det, hmatrix, ← hprod]
    simp [pencilFactor, PencilEigenvalues.at, e]

/-- A quarter turn has one pair, and so has a reflection over a diagonal with entries of both signs.
-/
theorem eigenvalues_factor_characteristic_turn :
    let s : Mat 2 2 ℝ := Mat.ofRows2 0 1 (-1) 0
    let s' : Mat 2 2 ℝ := Mat.ofRows2 0 1 1 0
    let t' : Mat 2 2 ℝ := Mat.ofRows2 1 0 0 (-1)
    diagonalBlocks s = .ok [.pair 0 0 1] ∧ pencilBlocks s' t' = .ok [.pair 0 0 1] ∧
      (X - C (⟨0, 1⟩ : ℂ)) * (X - C (⟨0, -1⟩ : ℂ)) = (s.toMatrix.map Complex.ofReal).charpoly ∧
      (X - C (⟨0, 1⟩ : ℂ)) * (X - C (⟨0, -1⟩ : ℂ)) =
        -(Matrix.of fun i j : Fin 2 => C (t'.get i j : ℂ) * X - C (s'.get i j : ℂ)).det := by
  intro s s' t'
  have hpair : conjugatePair? 0 1 = some (0, 1) := by
    rw [conjugatePair?_eq]
    norm_num
  have hs : diagonalBlocks s = .ok [.pair 0 0 1] := by
    simp [s, diagonalBlocks, checkSubdiagonal, firstNonzeroBelow, positionsBelow, scanBlocks,
      requirePair, pairAt, complexEigenvalue?_eq, hpair, Mat.ofRows2, List.range_succ, Bind.bind,
      Except.bind, pure, Except.pure]
  have hs' : pencilBlocks s' t' = .ok [.pair 0 0 1] := by
    simp [s', t', pencilBlocks, checkSubdiagonal, checkTriangular, firstNonzeroBelow,
      positionsBelow, scanBlocks, requirePencilPair, pencilPairAt, pencilComplexEigenvalue?_eq,
      hpair, Mat.ofRows2, List.range_succ, Bind.bind, Except.bind, pure, Except.pure]
  have hstandard := eigenvalues_factor_characteristic.1 2 s _ hs
  have hpencil := (eigenvalues_factor_characteristic.2 2 s' t' _ hs').2
  refine ⟨hs, hs', ?_, ?_⟩
  · simpa [Finset.prod_range_succ, eigenvalues, blockAt, covers, stop, start, size,
      eigenvalueAt] using hstandard
  · have h0 : t'.get 0 0 = 1 := by simp [t', Mat.ofRows2]
    have h1 : t'.get 1 1 = -1 := by simp [t', Mat.ofRows2]
    have hsigma : (∏ k ∈ Finset.range 2, if t'.get k k < 0 then (-1 : ℝ) else 1) = -1 := by
      rw [Finset.prod_range_succ, Finset.prod_range_one, h0, h1]
      norm_num
    rw [hsigma] at hpencil
    simpa [Finset.prod_range_succ, pencilEigenvalues, blockAt, covers, stop, start, size,
      pencilEigenvalueAt, h0, h1] using hpencil

end SchurForm
