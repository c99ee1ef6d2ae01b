import SchurForm.Proofs.PivotedElimination
import SchurForm.SylvesterEquation

/-!
# Sylvester equations are solved exactly

The unknowns of a Sylvester equation are numbered column by column. Summing the coefficients of one
equation over all unknowns gives back the matrix products, so an unperturbed solution of the linear
system is a solution of the matrix equations.
-/

namespace SchurForm

open Scalar Matrix

variable {p q : Nat}

/-- The unknowns solve a Sylvester equation with the scaled right-hand side. -/
def SolvesSylvester (a11 : Mat p p ℝ) (a22 : Mat q q ℝ) (a12 : Mat p q ℝ) (right left : Mat p q ℝ)
    (scale : ℝ) : Prop :=
  a11.toMatrix * right.toMatrix - left.toMatrix * a22.toMatrix = scale • a12.toMatrix

/-- The position of an entry in the order column by column. -/
theorem stacked_lt {i j : Nat} (hi : i < p) (hj : j < q) : i + j * p < p * q := by
  calc i + j * p < p + j * p := Nat.add_lt_add_right hi _
    _ = (j + 1) * p := by ring
    _ ≤ q * p := Nat.mul_le_mul_right p hj
    _ = p * q := Nat.mul_comm q p

/-- The row of a stacked entry. -/
theorem stacked_mod {i : Nat} (hi : i < p) (j : Nat) : (i + j * p) % p = i := by
  rw [Nat.add_mul_mod_self_right, Nat.mod_eq_of_lt hi]

/-- The column of a stacked entry. -/
theorem stacked_div {i : Nat} (hi : i < p) (j : Nat) : (i + j * p) / p = j := by
  rw [Nat.add_mul_div_right _ _ (Nat.zero_lt_of_lt hi), Nat.div_eq_of_lt hi, Nat.zero_add]

/-- A sum over all unknowns runs over the columns and over the rows of each. -/
theorem sum_stacked (f : Nat → ℝ) :
    ∑ r ∈ Finset.range (p * q), f r =
      ∑ j ∈ Finset.range q, ∑ i ∈ Finset.range p, f (i + j * p) := by
  induction q with
  | zero => simp
  | succ q ih =>
    rw [Nat.mul_succ, Finset.sum_range_add, ih, Finset.sum_range_succ]
    congr 1
    apply Finset.sum_congr rfl
    intro i _
    rw [Nat.add_comm, Nat.mul_comm]

/-- The unknowns of one equation that are multiplied from the left. -/
theorem sum_leftCoefficient (a : Mat p p ℝ) (x : Nat → ℝ) {i j : Nat} (hi : i < p) (hj : j < q) :
    ∑ r ∈ Finset.range (p * q), leftCoefficient a (i + j * p) r * x r =
      ∑ s ∈ Finset.range p, a.get i s * x (s + j * p) := by
  rw [sum_stacked, Finset.sum_eq_single j (fun c _ hc => ?_) fun hout => ?_]
  · apply Finset.sum_congr rfl
    intro s hs
    have hs := Finset.mem_range.mp hs
    rw [leftCoefficient, stacked_div hi, stacked_div hs, if_pos rfl, stacked_mod hi, stacked_mod hs]
  · apply Finset.sum_eq_zero
    intro s hs
    rw [leftCoefficient, stacked_div hi, stacked_div (Finset.mem_range.mp hs), if_neg (Ne.symm hc),
      zero_mul]
  · exact absurd (Finset.mem_range.mpr hj) hout

/-- The unknowns of one equation that are multiplied from the right. -/
theorem sum_rightCoefficient (a : Mat q q ℝ) (x : Nat → ℝ) {i : Nat} (hi : i < p) (j : Nat) :
    ∑ r ∈ Finset.range (p * q), rightCoefficient a p (i + j * p) r * x r =
      ∑ c ∈ Finset.range q, a.get c j * x (i + c * p) := by
  rw [sum_stacked]
  apply Finset.sum_congr rfl
  intro c _
  rw [Finset.sum_eq_single i (fun s hs hne => ?_) fun hout => ?_]
  · rw [rightCoefficient, stacked_mod hi, stacked_mod hi, if_pos rfl, stacked_div hi,
      stacked_div hi]
  · rw [rightCoefficient, stacked_mod hi, stacked_mod (Finset.mem_range.mp hs),
      if_neg (Ne.symm hne), zero_mul]
  · exact absurd (Finset.mem_range.mpr hi) hout

/-- Stacking the columns of a matrix puts its entries one column after the other. -/
theorem get_stackColumns (a : Mat p q ℝ) {i j : Nat} (hi : i < p) (hj : j < q) :
    (stackColumns a).get (i + j * p) = a.get i j := by
  rw [stackColumns, Vec.get_ofFn, if_pos (stacked_lt hi hj), stacked_mod hi, stacked_div hi]

/-- The equations of the unstacked unknowns, entry by entry. -/
theorem solvesSylvester_unstackColumns {n : Nat} (a11 : Mat p p ℝ) (a22 : Mat q q ℝ)
    (a12 : Mat p q ℝ) (x : Vec n ℝ) (right left : Nat) (scale : ℝ)
    (h : ∀ i < p, ∀ j < q,
      ∑ r ∈ Finset.range (p * q), leftCoefficient a11 (i + j * p) r * x.get (right + r) -
          ∑ r ∈ Finset.range (p * q), rightCoefficient a22 p (i + j * p) r * x.get (left + r) =
        scale * a12.get i j) :
    SolvesSylvester a11 a22 a12 (unstackColumns x right) (unstackColumns x left) scale := by
  ext ⟨i, hi⟩ ⟨j, hj⟩
  have hentry := h i hi j hj
  rw [sum_leftCoefficient a11 _ hi hj, sum_rightCoefficient a22 _ hi] at hentry
  simp only [Matrix.sub_apply, Matrix.mul_apply, Mat.toMatrix_apply, Matrix.smul_apply, smul_eq_mul,
    unstackColumns, Mat.get_ofFn, hi, hj, Fin.is_lt, and_self, if_true]
  rw [← hentry, Finset.sum_range, Finset.sum_range]
  simp only [mul_comm (x.get _)]

/-- An unperturbed solution of a Sylvester equation is exact. -/
theorem solveSingleSylvester_spec (a11 : Mat p p ℝ) (a22 : Mat q q ℝ) (a12 : Mat p q ℝ)
    (steps : Nat) (hunperturbed : (solveSingleSylvester a11 a22 a12 steps).perturbed = false) :
    let sol := solveSingleSylvester a11 a22 a12 steps
    SolvesSylvester a11 a22 a12 sol.right sol.left sol.scale ∧ 0 < sol.scale := by
  set m : Mat (p * q) (p * q) ℝ :=
    Mat.ofFn fun e r => leftCoefficient a11 e r - rightCoefficient a22 p e r with hm
  obtain ⟨hsolves, hscale⟩ := solveWithRefinement_spec m (stackColumns a12) steps hunperturbed
  refine ⟨solvesSylvester_unstackColumns a11 a22 a12 _ 0 0 _ fun i hi j hj => ?_, hscale⟩
  have hrow := hsolves (i + j * p) (stacked_lt hi hj)
  rw [get_stackColumns a12 hi hj] at hrow
  rw [← Finset.sum_sub_distrib]
  refine (Finset.sum_congr rfl fun r hr => ?_).trans hrow
  rw [Nat.zero_add, hm, Mat.get_ofFn, if_pos ⟨stacked_lt hi hj, Finset.mem_range.mp hr⟩, sub_mul]

/-- An unperturbed solution of a coupled pair of Sylvester equations is exact. -/
theorem solveCoupledSylvester_spec (a11 : Mat p p ℝ) (a22 : Mat q q ℝ) (a12 : Mat p q ℝ)
    (b11 : Mat p p ℝ) (b22 : Mat q q ℝ) (b12 : Mat p q ℝ) (steps : Nat)
    (hunperturbed : (solveCoupledSylvester a11 a22 a12 b11 b22 b12 steps).perturbed = false) :
    let sol := solveCoupledSylvester a11 a22 a12 b11 b22 b12 steps
    SolvesSylvester a11 a22 a12 sol.right sol.left sol.scale ∧
      SolvesSylvester b11 b22 b12 sol.right sol.left sol.scale ∧ 0 < sol.scale := by
  set m : Mat (p * q + p * q) (p * q + p * q) ℝ := Mat.ofFn fun e r =>
    let x11 := if e < p * q then a11 else b11
    let x22 := if e < p * q then a22 else b22
    if r < p * q then leftCoefficient x11 (e % (p * q)) r
    else 0 - rightCoefficient x22 p (e % (p * q)) (r - p * q) with hm
  set rhs : Vec (p * q + p * q) ℝ := Vec.ofFn fun e =>
    if e < p * q then (stackColumns a12).get e else (stackColumns b12).get (e - p * q) with hrhs
  obtain ⟨hsolves, hscale⟩ := solveWithRefinement_spec m rhs steps hunperturbed
  -- The first half of the equations belongs to the first pair of matrices, the second to the other.
  have hhalf (e base : Nat) (he : e < p * q) (x11 : Mat p p ℝ) (x22 : Mat q q ℝ)
      (hbase : base + e < p * q + p * q) (hmod : (base + e) % (p * q) = e)
      (h11 : (if base + e < p * q then a11 else b11) = x11)
      (h22 : (if base + e < p * q then a22 else b22) = x22) (x : Nat → ℝ) :
      ∑ r ∈ Finset.range (p * q + p * q), m.get (base + e) r * x r =
        ∑ r ∈ Finset.range (p * q), leftCoefficient x11 e r * x (0 + r) -
          ∑ r ∈ Finset.range (p * q), rightCoefficient x22 p e r * x (p * q + r) := by
    rw [Finset.sum_range_add, sub_eq_add_neg, ← Finset.sum_neg_distrib]
    congr 1
    · apply Finset.sum_congr rfl
      intro r hr
      have hr := Finset.mem_range.mp hr
      rw [hm, Mat.get_ofFn, if_pos ⟨hbase, by omega⟩, if_pos hr, h11, hmod, Nat.zero_add]
    · apply Finset.sum_congr rfl
      intro r hr
      have hr := Finset.mem_range.mp hr
      rw [hm, Mat.get_ofFn, if_pos ⟨hbase, by omega⟩, if_neg (by omega), h22, hmod,
        Nat.add_sub_cancel_left]
      ring
  refine ⟨solvesSylvester_unstackColumns a11 a22 a12 _ 0 (p * q) _ fun i hi j hj => ?_,
    solvesSylvester_unstackColumns b11 b22 b12 _ 0 (p * q) _ fun i hi j hj => ?_, hscale⟩
  · have he := stacked_lt hi hj
    have hrow := hsolves (0 + (i + j * p)) (by omega)
    rw [hhalf _ 0 he a11 a22 (by omega) (by rw [Nat.zero_add, Nat.mod_eq_of_lt he])
      (if_pos (by omega)) (if_pos (by omega))] at hrow
    rw [hrow, hrhs, Vec.get_ofFn, if_pos (by omega), if_pos (by omega), Nat.zero_add,
      get_stackColumns a12 hi hj]
    rfl
  · have he := stacked_lt hi hj
    have hrow := hsolves (p * q + (i + j * p)) (by omega)
    rw [hhalf _ (p * q) he b11 b22 (by omega) (by rw [Nat.add_mod_left, Nat.mod_eq_of_lt he])
      (if_neg (by omega)) (if_neg (by omega))] at hrow
    rw [hrow, hrhs, Vec.get_ofFn, if_pos (by omega), if_neg (by omega), Nat.add_sub_cancel_left,
      get_stackColumns b12 hi hj]
    rfl

end SchurForm
