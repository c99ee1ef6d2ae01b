import Mathlib.Algebra.Polynomial.Basic
import SchurForm.Proofs.ReorderedForm
import SchurForm.Proofs.SchurFormCriterion

/-!
# An exchange in a pencil is a factorization of both patches

Both patches of an accepted exchange are the new patches between the same two orthogonal factors, up
to their own thresholds in every entry. The new patches have the block pairs in the other order; the
second one is triangular, and a block pair of order two is again a conjugate pair over a diagonal
block that is not singular. Without perturbed Sylvester equations the exchange is accepted, both
factorizations are exact, and the block pairs keep their determinant polynomials up to a constant.

A block pair of order one may have a zero in the second matrix, which is an infinite eigenvalue. The
determinant polynomial, unlike the quotient, is defined for it.
-/

namespace SchurForm

open Scalar Matrix Polynomial

variable {m n p q size : Nat}

namespace Mat

/-- The determinant polynomial `det(x T - S)` of the block pair of the given order in row `i`. -/
noncomputable def pencilPolynomial (size : Nat) (s t : Mat n n ℝ) (i : Nat) : ℝ[X] :=
  ((X : ℝ[X]) • (t.block i i : Mat size size ℝ).toMatrix.map C -
    (s.block i i : Mat size size ℝ).toMatrix.map C).det

/-- Equivalent block pairs have the same determinant polynomial up to a constant. -/
theorem EquivalentAt.exists_pencilPolynomial_eq {s t : Mat m m ℝ} {s' t' : Mat n n ℝ} {i j : Nat}
    (h : EquivalentAt size s t i s' t' j) :
    ∃ c : ℝ, c ≠ 0 ∧ pencilPolynomial size s t i = C c * pencilPolynomial size s' t' j := by
  obtain ⟨g, h, hg, hh, hs, ht⟩ := h
  have hmap {a b : Matrix (Fin size) (Fin size) ℝ} (heq : a * h = g * b) :
      a.map C * h.map C = g.map C * b.map C := by
    rw [← Matrix.map_mul, ← Matrix.map_mul, heq]
  have hdet (a : Matrix (Fin size) (Fin size) ℝ) : (a.map C).det = C a.det :=
    (RingHom.map_det C a).symm
  have hproduct : pencilPolynomial size s t i * C h.det =
      C g.det * pencilPolynomial size s' t' j := by
    rw [pencilPolynomial, pencilPolynomial, ← hdet, ← hdet, ← Matrix.det_mul, ← Matrix.det_mul,
      Matrix.sub_mul, Matrix.smul_mul, hmap hs, hmap ht, Matrix.mul_sub, Matrix.mul_smul]
  refine ⟨g.det / h.det, div_ne_zero hg hh, ?_⟩
  calc pencilPolynomial size s t i
      = pencilPolynomial size s t i * C h.det * C h.det⁻¹ := by
        rw [mul_assoc, ← C_mul, mul_inv_cancel₀ hh, C_1, mul_one]
    _ = C (g.det / h.det) * pencilPolynomial size s' t' j := by
        rw [hproduct, mul_right_comm, ← C_mul, div_eq_mul_inv]

/-- A patch whose blocks are of order one or diagonal is triangular behind a cut. -/
theorem IsCut.triangular {t : Mat (p + q) (p + q) ℝ} (hcut : t.IsCut q) (hp : p = 1 ∨ p = 2)
    (hq : q = 1 ∨ q = 2) (hlead : q = 2 → t.DiagonalAt 0) (htrail : p = 2 → t.DiagonalAt q)
    {i j : Nat} (hij : j < i) : t.get i j = 0 := by
  by_cases hi : i < p + q
  · by_cases hacross : j < q ∧ q ≤ i
    · exact hcut i j hacross.2 hacross.1
    · by_cases hinside : i < q
      · obtain ⟨rfl, rfl⟩ : i = 1 ∧ j = 0 := by omega
        exact (hlead (by omega)).2
      · obtain ⟨rfl, rfl⟩ : i = q + 1 ∧ j = q := by omega
        exact (htrail (by omega)).2
  · exact t.get_of_rows_le (Nat.le_of_not_lt hi) j

/-- The second matrix is diagonal under a conjugate pair of a triangular pencil. -/
theorem IsPairOver.holdsPencilPair {s t : Mat n n ℝ} {k : Nat} (h : s.IsPairOver t k)
    (ht : ∀ i j, j < i → t.get i j = 0) : s.HoldsPencilPair t k := by
  have hdiagonal : t.DiagonalAt k := ⟨h.upper, ht _ _ (Nat.lt_succ_self k)⟩
  exact ⟨hdiagonal, (pencilPairAt_ne_none_iff hdiagonal).mpr h⟩

/-- A pencil block that is as recognition wants it is a conjugate pair. -/
theorem HoldsPencilPair.isPairOver {s t : Mat n n ℝ} {k : Nat} (h : s.HoldsPencilPair t k) :
    s.IsPairOver t k :=
  (pencilPairAt_ne_none_iff h.1).mp h.2

end Mat

/-- An accepted exchange of two block pairs, where those of order two are conjugate pairs over
diagonal blocks, is an orthogonal factorization of both patches: a pair of block triangular patches
with the block pairs in the other order, the second one triangular, and those of order two again
conjugate pairs over diagonal blocks that are not singular, from which the factors give back every
entry up to the threshold of its patch. Block pairs whose Sylvester equations were not perturbed are
always exchanged; the factorizations are then exact, and the block pairs keep their determinant
polynomials up to a constant. -/
theorem exchangePencil_factorization (tol : Tolerance ℝ) (row : Nat) (hp : p = 1 ∨ p = 2)
    (hq : q = 1 ∨ q = 2) {a b : Mat (p + q) (p + q) ℝ} (hcut : a.IsCut p)
    (htriangular : ∀ i j, j < i → b.get i j = 0) (hupper : p = 2 → a.IsPairOver b 0)
    (hlower : q = 2 → a.IsPairOver b p) :
    exchangeOrders (p + q) p row = (.ok (p, q) : Except (FormError ℝ) (Nat × Nat)) ∧
    (∀ e, exchangePencil tol row a b = .ok e →
      e.left.IsOrthogonal ∧ e.right.IsOrthogonal ∧ e.s.IsCut q ∧ e.t.IsCut q ∧
        (∀ i j, j < i → e.t.get i j = 0) ∧
        (q = 2 → e.s.IsPairOver e.t 0) ∧ (p = 2 → e.s.IsPairOver e.t q) ∧
        (∀ i j, |a.get i j - (rebuilt e.left e.s e.right).get i j| ≤ tol.threshold a.supNorm) ∧
        ∀ i j, |b.get i j - (rebuilt e.left e.t e.right).get i j| ≤ tol.threshold b.supNorm) ∧
    ((coupledSolution tol a b).perturbed = false →
      ∃ e, exchangePencil tol row a b = .ok e ∧
        a = rebuilt e.left e.s e.right ∧ b = rebuilt e.left e.t e.right ∧
        (∃ c : ℝ, c ≠ 0 ∧
          Mat.pencilPolynomial q e.s e.t 0 = C c * Mat.pencilPolynomial q a b p) ∧
        ∃ c : ℝ, c ≠ 0 ∧
          Mat.pencilPolynomial p e.s e.t q = C c * Mat.pencilPolynomial p a b 0) := by
  have hcutB : b.IsCut p := fun i j hi hj => htriangular i j (by omega)
  refine ⟨exchangeOrders_eq_ok hp hq row, fun e he => ?_, fun hunperturbed => ?_⟩
  · have hsound := exchangePencil_sound hp hq hcut hcutB he
    obtain ⟨hlead, htrail⟩ := exchangePencil_pairs hp hq he
    obtain ⟨hbackA, hbackB⟩ := exchangePencil_rebuilt hp hq he
    refine ⟨hsound.left_orthogonal, hsound.right_orthogonal, hsound.cut_s, hsound.cut_t,
      fun i j hij => ?_, fun htwo => (hlead htwo).isPairOver, fun htwo => (htrail htwo).isPairOver,
      fun i j => ?_, fun i j => ?_⟩
    · exact hsound.cut_t.triangular hp hq (fun htwo => (hlead htwo).1)
        (fun htwo => (htrail htwo).1) hij
    · rw [← Mat.get_sub]
      exact (Mat.abs_get_le_supNorm _ i j).trans hbackA
    · rw [← Mat.get_sub]
      exact (Mat.abs_get_le_supNorm _ i j).trans hbackB
  · obtain ⟨e, he, hswaps⟩ := exchangePencil_swaps hp hq row hcut hcutB hunperturbed
      (fun htwo => (hupper htwo).holdsPencilPair htriangular)
      (fun htwo => (hlower htwo).holdsPencilPair htriangular)
    obtain ⟨hbackA, hbackB⟩ :=
      (exchangePencil_sound hp hq hcut hcutB he).rebuilt_eq hunperturbed
    exact ⟨e, he, hbackA.symm, hbackB.symm, hswaps.lead.exists_pencilPolynomial_eq,
      hswaps.trail.exists_pencilPolynomial_eq⟩

/-- A triangular matrix with the diagonal entries zero, one and one, and an entry right of the zero.
-/
def zeroAboveIdentity : Mat (1 + 2) (1 + 2) ℝ :=
  Mat.ofFn fun i j => if j = 1 ∧ i < 2 then 1 else if i = 2 ∧ j = 2 then 1 else 0

/-- The equations of a turn below an infinite eigenvalue are triangular, with unit pivots. -/
theorem coupledSolution_turnBelowInfinity (tol : Tolerance ℝ) :
    (coupledSolution (p := 1) (q := 2) tol (realAbovePair (-1)) zeroAboveIdentity).perturbed =
      false := by
  set system : Mat 4 4 ℝ := Mat.ofFn fun i j =>
    if i = j then (if i < 2 then 1 else -1) else if i = 0 ∧ j = 3 then 1 else
      if i = 1 ∧ j = 2 then -1 else 0 with hsystem
  have hperturbed : (coupledSolution (p := 1) (q := 2) tol (realAbovePair (-1))
      zeroAboveIdentity).perturbed = (PivotedFactors.ofMat system).perturbed := by
    refine congrArg (fun m : Mat 4 4 ℝ => (PivotedFactors.ofMat m).perturbed)
      (Mat.ext_get fun i hi j hj => ?_)
    rw [Mat.get_ofFn, if_pos ⟨hi, hj⟩, hsystem]
    interval_cases i <;> interval_cases j <;>
      simp [leftCoefficient, rightCoefficient, Mat.block, realAbovePair, zeroAboveIdentity]
  rw [hperturbed]
  refine PivotedFactors.perturbed_triangular (fun i j => ?_) (fun i hi => ?_) fun i j hij => ?_
  · rw [hsystem, Mat.get_ofFn]
    split_ifs <;> simp
  · rw [hsystem, Mat.get_ofFn, if_pos ⟨hi, hi⟩, if_pos rfl]
    split <;> simp
  · rw [hsystem, Mat.get_ofFn]
    split_ifs <;> first | rfl | omega

/-- A turn is exchanged with an infinite eigenvalue. It comes first, over a diagonal block, the
infinite eigenvalue comes last, and both factorizations are exact. -/
theorem exchangePencil_factorization_turn :
    let a : Mat (1 + 2) (1 + 2) ℝ := realAbovePair (-1)
    let b := zeroAboveIdentity
    a.IsCut 1 ∧ a.IsPairOver b 1 ∧ (coupledSolution Tolerance.standard a b).perturbed = false ∧
    ∃ e, exchangePencil Tolerance.standard 0 a b = .ok e ∧
      a = rebuilt e.left e.s e.right ∧ b = rebuilt e.left e.t e.right ∧
      e.t.IsCut 2 ∧ e.s.IsPairOver e.t 0 ∧
      (∃ c : ℝ, c ≠ 0 ∧ Mat.pencilPolynomial 2 e.s e.t 0 = C c * (X ^ 2 + 1)) ∧
      ∃ c : ℝ, c ≠ 0 ∧ Mat.pencilPolynomial 1 e.s e.t 2 = C c := by
  intro a b
  have hcut : a.IsCut 1 := by
    intro i j hi hj
    simp only [a, realAbovePair, Mat.get_ofFn]
    split_ifs <;> first | rfl | omega
  have htriangular : ∀ i j, j < i → b.get i j = 0 := by
    intro i j hij
    simp only [b, zeroAboveIdentity, Mat.get_ofFn]
    split_ifs <;> first | rfl | omega
  have hturn : a.pairBlock 1 = !![0, 1; -1, 0] := by
    ext i j
    rw [Mat.pairBlock_apply]
    fin_cases i <;> fin_cases j <;> simp [a, realAbovePair]
  have hone : b.pairBlock 1 = 1 := by
    ext i j
    rw [Mat.pairBlock_apply]
    fin_cases i <;> fin_cases j <;> simp [b, zeroAboveIdentity]
  have hpair : a.IsPairOver b 1 := by
    refine ⟨by simp [b, zeroAboveIdentity], by simp [b, zeroAboveIdentity],
      by simp [b, zeroAboveIdentity], ?_⟩
    rw [hturn, hone, inv_one, one_mul, quarterDiscriminant]
    simp
  have hunperturbed := coupledSolution_turnBelowInfinity Tolerance.standard
  obtain ⟨-, haccepted, hexact⟩ := exchangePencil_factorization Tolerance.standard 0 (Or.inl rfl)
    (Or.inr rfl) hcut htriangular (by norm_num) fun _ => hpair
  obtain ⟨e, he, hbackA, hbackB, ⟨c, hc, hlead⟩, c', hc', htrail⟩ := hexact hunperturbed
  obtain ⟨-, -, -, hcutT, -, hlast, -, -, -⟩ := haccepted e he
  refine ⟨hcut, hpair, hunperturbed, e, he, hbackA, hbackB, hcutT, hlast rfl, ⟨c, hc, ?_⟩,
    -c', neg_ne_zero.mpr hc', ?_⟩
  · have hblockA : (a.block 1 1 : Mat 2 2 ℝ).toMatrix = !![0, 1; -1, 0] := hturn
    have hblockB : (b.block 1 1 : Mat 2 2 ℝ).toMatrix = 1 := hone
    have hturned : Mat.pencilPolynomial 2 a b 1 = X ^ 2 + 1 := by
      rw [Mat.pencilPolynomial, hblockA, hblockB]
      simp [Matrix.det_fin_two]
      ring
    rw [hlead, hturned]
  · rw [htrail, Mat.pencilPolynomial, Matrix.det_fin_one]
    simp [Mat.get_block_one, a, b, realAbovePair, zeroAboveIdentity]

end SchurForm
