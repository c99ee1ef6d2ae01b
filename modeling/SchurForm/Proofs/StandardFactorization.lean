import Mathlib.LinearAlgebra.Matrix.Charpoly.Coeff
import SchurForm.Proofs.SchurFormCriterion
import SchurForm.Proofs.StandardExchange

/-!
# An exchange in a standard form is a factorization of the patch

The patch of two adjacent blocks is the new patch between an orthogonal factor and its transpose, up
to the threshold of the exchange in every entry. The new patch has the blocks in the other order,
and those of order two are standardized. Without a perturbed Sylvester equation the exchange is
accepted, the factorization is exact, and the blocks keep their characteristic polynomials.

The equation is perturbed if a pivot is too small, as when the two blocks share an eigenvalue. Such
an exchange may be refused; if it is accepted, the factorization holds of it up to the threshold.
-/

namespace SchurForm

open Scalar Matrix Polynomial

variable {p q : Nat}

/-- Similar blocks have the same characteristic polynomial. -/
theorem Mat.SimilarAt.charpoly_eq {m n size : Nat} {a : Mat m m ℝ} {b : Mat n n ℝ} {i j : Nat}
    (h : SimilarAt size a i b j) : (a.block i i : Mat size size ℝ).toMatrix.charpoly =
      (b.block j j : Mat size size ℝ).toMatrix.charpoly := by
  obtain ⟨h, hunit, hconj⟩ := h.exists_conj
  rw [hconj, Matrix.charpoly_mul_comm, Matrix.nonsing_inv_mul_cancel_left _ _ hunit]

/-- An accepted exchange of two blocks, where those of order two have complex eigenvalues, is an
orthogonal factorization of the patch: a block triangular patch with the blocks in the other order
and those of order two standardized, from which the factor gives back every entry up to the
threshold. Two blocks of order one, and blocks whose Sylvester equation was not perturbed, are
always exchanged; the factorization is then exact, and the blocks keep their characteristic
polynomials. -/
theorem exchangeStandard_factorization (tol : Tolerance ℝ) (row : Nat) (hp : p = 1 ∨ p = 2)
    (hq : q = 1 ∨ q = 2) {d : Mat (p + q) (p + q) ℝ} (hcut : d.IsCut p)
    (hupper : p = 2 → quarterDiscriminant (d.pairBlock 0) < 0)
    (hlower : q = 2 → quarterDiscriminant (d.pairBlock p) < 0) :
    exchangeOrders (p + q) p row = (.ok (p, q) : Except (FormError ℝ) (Nat × Nat)) ∧
    (∀ e, exchangeStandard tol row d = .ok e →
      e.factor.IsOrthogonal ∧ e.after.IsCut q ∧
        (q = 2 → e.after.StandardizedAt 0) ∧ (p = 2 → e.after.StandardizedAt q) ∧
        ∀ i j, |d.get i j - (rebuilt e.factor e.after e.factor).get i j| ≤
          tol.threshold d.supNorm) ∧
    (p = 1 ∧ q = 1 ∨ (couplingSolution tol d).perturbed = false →
      ∃ e, exchangeStandard tol row d = .ok e ∧ d = rebuilt e.factor e.after e.factor ∧
        (e.after.block 0 0 : Mat q q ℝ).toMatrix.charpoly =
          (d.block p p : Mat q q ℝ).toMatrix.charpoly ∧
        (e.after.block q q : Mat p p ℝ).toMatrix.charpoly =
          (d.block 0 0 : Mat p p ℝ).toMatrix.charpoly) := by
  refine ⟨exchangeOrders_eq_ok hp hq row, fun e he => ?_, fun hexact => ?_⟩
  · have hsound := exchangeStandard_sound hp hq hcut he
    obtain ⟨hlead, htrail⟩ := exchangeStandard_standardized hp hq he
    refine ⟨hsound.orthogonal, hsound.cut, hlead, htrail, fun i j => ?_⟩
    rw [← Mat.get_sub]
    exact (Mat.abs_get_le_supNorm _ i j).trans (exchangeStandard_rebuilt hp hq hcut he)
  · have hunperturbed : exchangePerturbed tol d = false := by
      rw [exchangePerturbed]
      split
      · rfl
      · exact hexact.resolve_left ‹_›
    obtain ⟨e, he, hswaps⟩ := exchangeStandard_swaps hp hq row hcut hunperturbed
      (fun htwo => Mat.pairAt_ne_none_iff.mpr (hupper htwo))
      (fun htwo => Mat.pairAt_ne_none_iff.mpr (hlower htwo))
    have hsound := exchangeStandard_sound hp hq hcut he
    exact ⟨e, he, (hsound.rebuilt_eq hunperturbed).symm, hswaps.lead.charpoly_eq,
      hswaps.trail.charpoly_eq⟩

/-- A quarter turn below the eigenvalue zero, to which both of its rows are coupled. -/
def turnBelowZero : Mat (1 + 2) (1 + 2) ℝ :=
  Mat.ofFn fun i j => if i = 1 ∧ j = 2 then -1 else if i = 2 ∧ j = 1 then 1 else
    if i = 0 ∧ 0 < j then 1 else 0

/-- The eigenvalue zero stands above a cut. -/
theorem isCut_turnBelowZero : turnBelowZero.IsCut 1 := by
  intro i j hi hj
  rw [turnBelowZero, Mat.get_ofFn]
  split
  · rw [if_neg (by omega), if_neg (by omega), if_neg (by omega)]
  · rfl

/-- The equation of a quarter turn below the eigenvalue zero is a quarter turn of the unknowns. -/
theorem couplingSolution_turnBelowZero (tol : Tolerance ℝ) :
    (couplingSolution tol turnBelowZero).perturbed = false := by
  have hsystem : (couplingSolution tol turnBelowZero).perturbed =
      (PivotedFactors.ofMat (Mat.ofRows2 0 (-1) 1 0 : Mat 2 2 ℝ)).perturbed := by
    refine congrArg (fun m : Mat 2 2 ℝ => (PivotedFactors.ofMat m).perturbed)
      (Mat.ext_get fun i hi j hj => ?_)
    rw [Mat.get_ofFn, if_pos ⟨hi, hj⟩]
    interval_cases i <;> interval_cases j <;>
      simp [leftCoefficient, rightCoefficient, Mat.block, Mat.ofRows2, turnBelowZero]
  rw [hsystem]
  exact PivotedFactors.perturbed_quarterTurn

/-- A quarter turn is exchanged with the eigenvalue zero. It comes first, standardized, and the
factorization is exact. -/
theorem exchangeStandard_factorization_turn :
    turnBelowZero.IsCut 1 ∧ quarterDiscriminant (turnBelowZero.pairBlock 1) < 0 ∧
    (couplingSolution Tolerance.standard turnBelowZero).perturbed = false ∧
    ∃ e, exchangeStandard Tolerance.standard 0 turnBelowZero = .ok e ∧ e.factor.IsOrthogonal ∧
      e.after.IsCut 2 ∧ e.after.StandardizedAt 0 ∧
      turnBelowZero = rebuilt e.factor e.after e.factor ∧
      (e.after.block 0 0 : Mat 2 2 ℝ).toMatrix.charpoly = X ^ 2 + 1 ∧
      (e.after.block 2 2 : Mat 1 1 ℝ).toMatrix.charpoly = X := by
  have hcut : turnBelowZero.IsCut 1 := isCut_turnBelowZero
  have hturn : turnBelowZero.pairBlock 1 = !![0, -1; 1, 0] := by
    ext i j
    rw [Mat.pairBlock_apply]
    fin_cases i <;> fin_cases j <;> simp [turnBelowZero]
  have hlower : quarterDiscriminant (turnBelowZero.pairBlock 1) < 0 := by
    rw [hturn, quarterDiscriminant]
    simp
  have hunperturbed := couplingSolution_turnBelowZero Tolerance.standard
  obtain ⟨-, haccepted, hexact⟩ := exchangeStandard_factorization Tolerance.standard 0 (Or.inl rfl)
    (Or.inr rfl) hcut (by norm_num) fun _ => hlower
  obtain ⟨e, he, hfactor, hlead, htrail⟩ := hexact (Or.inr hunperturbed)
  obtain ⟨horth, hafter, hstandard, -, -⟩ := haccepted e he
  refine ⟨hcut, hlower, hunperturbed, e, he, horth, hafter, hstandard rfl, hfactor, ?_, ?_⟩
  · have hblock : (turnBelowZero.block 1 1 : Mat 2 2 ℝ).toMatrix = !![0, -1; 1, 0] := hturn
    rw [hlead, hblock, Matrix.charpoly_fin_two]
    simp [Matrix.trace_fin_two, Matrix.det_fin_two]
  · rw [htrail, Matrix.charpoly, Matrix.det_fin_one]
    simp [Matrix.charmatrix, Mat.get_block_one, turnBelowZero]

end SchurForm
