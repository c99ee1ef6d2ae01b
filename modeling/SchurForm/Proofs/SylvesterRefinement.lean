import SchurForm.Proofs.SylvesterSolution

/-!
# Scale and refinement of Sylvester equations

Every pivot of a factorization reaches the floor, lifted or not. A right-hand side is scaled only
when its forward solution is so large compared with the last pivot that it exceeds one half, and the
scale is therefore never larger than one. An exact solution leaves no residual, so its correction
is zero and refinement stops at once: the number of steps makes no difference.
-/

namespace SchurForm

open Scalar Matrix

variable {n p q : Nat}

namespace Vec

/-- Every entry of the zero vector is zero. -/
@[simp] theorem get_zero (i : Nat) : (Vec.zero : Vec n ℝ).get i = 0 := by
  rw [Vec.zero, Vec.get_ofFn, ite_self]

/-- Setting an entry of the zero vector to zero changes nothing. -/
theorem set_zero (i : Nat) : (Vec.zero : Vec n ℝ).set i 0 = Vec.zero := by
  apply Vec.ext_get
  intro j hj
  rw [Vec.get_set, if_pos hj, get_zero, ite_self]

/-- The zero vector has norm zero. -/
@[simp] theorem supNorm_zero : (Vec.zero : Vec n ℝ).supNorm = 0 := by
  refine le_antisymm ((maxTo_le_iff le_rfl).mpr fun i _ => ?_) (maxTo_nonneg _ _)
  rw [get_zero, abs_real, abs_zero]

end Vec

namespace PivotedFactors

/-- The first pivots have at least the size of the floor. -/
def ReachesFloor (floor : ℝ) (k : Nat) (st : PivotedFactors n ℝ) : Prop :=
  ∀ t < k, floor ≤ |st.lu.get t t|

/-- A step finishes one more pivot and keeps those before it. -/
theorem ReachesFloor.step {floor : ℝ} {k : Nat} {st : PivotedFactors n ℝ} (hfloor : 0 < floor)
    (hk : k < n) (h : ReachesFloor floor k st) : ReachesFloor floor (k + 1) (st.step floor k) := by
  obtain ⟨hr, hc⟩ := largestFrom_bounds st.lu hk
  set best := largestFrom st.lu k with hbest
  set a := exchange st.lu k best.row best.col with ha
  set small := decide (Scalar.abs (a.get k k) < floor) with hsmall
  set lifted : Mat n n ℝ :=
    if small then Mat.ofFn fun i j => if i = k ∧ j = k then floor else a.get i j else a with hlifted
  have hlu : (st.step floor k).lu = eliminate lifted k := rfl
  have hpivot : floor ≤ |lifted.get k k| := by
    rw [hlifted]
    split
    · rw [Mat.get_ofFn, if_pos ⟨hk, hk⟩, if_pos ⟨rfl, rfl⟩, abs_of_pos hfloor]
    · have hlarge : ¬|a.get k k| < floor := by simpa [hsmall] using ‹¬small = true›
      exact not_lt.mp hlarge
  have hearlier (t : Nat) (ht : t < k) : lifted.get t t = st.lu.get t t := by
    have htn : t < n := ht.trans hk
    have hkept : a.get t t = st.lu.get t t := by
      rw [ha, get_exchange _ _ _ _ htn htn, transposed_of_lt hr.1 ht, transposed_of_lt hc.1 ht]
    rw [hlifted]
    split
    · rw [Mat.get_ofFn, if_pos ⟨htn, htn⟩, if_neg (fun hboth => ht.ne hboth.1), hkept]
    · exact hkept
  intro t ht
  have htn : t < n := by omega
  rw [hlu, get_eliminate lifted htn htn, if_neg (show ¬k < t by omega)]
  rcases Nat.lt_succ_iff_lt_or_eq.mp ht with ht | rfl
  · rw [hearlier t ht]
    exact h t ht
  · exact hpivot

/-- All pivots of a factorization reach its floor. -/
theorem reachesFloor_ofMat (m : Mat n n ℝ) : ReachesFloor (pivotFloor m) n (ofMat m) := by
  have hrun (k : Nat) (hk : k ≤ n) : ReachesFloor (pivotFloor m) k
      ((List.range k).foldl (PivotedFactors.step (pivotFloor m))
        { lu := m, rowOrder := id, colOrder := id, perturbed := false }) := by
    induction k with
    | zero => exact fun t ht => absurd ht t.not_lt_zero
    | succ k ih =>
      rw [List.range_succ, List.foldl_append, List.foldl_cons, List.foldl_nil]
      exact (ih (by omega)).step (pivotFloor_pos m) hk
  exact hrun n le_rfl

/-- A right-hand side is scaled down only: a forward solution that is scaled has an entry larger
than one half. -/
theorem backwardScale_le_one (m : Mat n n ℝ) (y : Vec n ℝ) :
    backwardScale (ofMat m).lu y ≤ 1 := by
  rw [backwardScale]
  split
  · rename_i hscaled
    have hlast : safeMin ≤ |(ofMat m).lu.get (n - 1) (n - 1)| := by
      refine le_trans ?_ (reachesFloor_ofMat m (n - 1) (by omega))
      rw [pivotFloor, maxNum_real]
      exact le_max_right _ _
    have hsize : safeMin < 2 * safeMin * y.supNorm := by
      simpa using hlast.trans_lt hscaled.2
    have hhalf : 1 / 2 < y.supNorm := by
      have := safeMin_pos
      nlinarith
    rw [half_real, div_le_one (by linarith)]
    exact hhalf.le
  · exact le_rfl

/-- Forward substitution of zeros gives zeros. -/
theorem forward_zero (lu : Mat n n ℝ) : forward lu Vec.zero = Vec.zero := by
  refine List.foldl_fixed' (fun i => ?_) _
  rw [subtractAll_range, Finset.sum_eq_zero fun k _ => by rw [Vec.get_zero, mul_zero], sub_zero,
    Vec.get_zero, Vec.set_zero]

/-- Backward substitution of zeros gives zeros. -/
theorem backward_zero (lu : Mat n n ℝ) : backward lu Vec.zero = Vec.zero := by
  refine List.foldl_fixed' (fun i => ?_) _
  simp only [subtractAll_map_range, Vec.get_zero, mul_zero, Finset.sum_const_zero, sub_zero,
    zero_div, Vec.set_zero]

/-- The solution for a zero right-hand side is zero, and it is not scaled. -/
theorem solve_zero (f : PivotedFactors n ℝ) : f.solve Vec.zero = (Vec.zero, 1) := by
  have hrhs : (Vec.ofFn fun i => (Vec.zero : Vec n ℝ).get (f.rowOrder i) : Vec n ℝ) = Vec.zero :=
    Vec.ext_get fun i _ => by simp
  have hscale : backwardScale f.lu Vec.zero = 1 := by
    rw [backwardScale, Vec.supNorm_zero, mul_zero, if_neg fun h => (abs_nonneg _).not_gt h.2]
  have hmap : (Vec.zero : Vec n ℝ).map (fun v => v * 1) = Vec.zero :=
    Vec.ext_get fun i _ => by simp
  have hrestore : restore f.colOrder (Vec.zero : Vec n ℝ) = Vec.zero :=
    List.foldl_fixed' (fun i => by rw [Vec.get_zero, Vec.set_zero]) _
  simp only [solve, hrhs, forward_zero, hscale, hmap, backward_zero, hrestore]

end PivotedFactors

/-- Refinement leaves an exact solution as it is: the first correction is zero. -/
theorem refine_eq_self {m : Mat n n ℝ} (lu : PivotedFactors n ℝ) {rhs x : Vec n ℝ} {scale : ℝ}
    (hx : Solves m x rhs scale) (steps : Nat) : refine m lu rhs scale steps x = x := by
  cases steps with
  | zero => rfl
  | succ steps =>
    have hresidual : (Vec.ofFn fun i =>
        scale * rhs.get i - sumTo n fun j => m.get i j * x.get j : Vec n ℝ) = Vec.zero :=
      Vec.ext_get fun i hi => by
        rw [Vec.get_ofFn, if_pos hi, sumTo_real, hx i hi, sub_self, Vec.get_zero]
    have himproved : (Vec.ofFn fun i => x.get i + (Vec.zero : Vec n ℝ).get i : Vec n ℝ) = x :=
      Vec.ext_get fun i hi => by rw [Vec.get_ofFn, if_pos hi, Vec.get_zero, add_zero]
    have hnegligible : (0 : ℝ) ≤ epsilon * x.supNorm :=
      mul_nonneg epsilon_pos.le (maxTo_nonneg _ _)
    simp only [refine, hresidual, PivotedFactors.solve_zero, himproved, Vec.supNorm_zero,
      bne_real, ne_eq, not_true_eq_false, decide_false, Bool.false_eq_true, if_false,
      if_pos hnegligible]

/-- The scale of a solution lies between zero and one, whether a pivot was lifted or not. -/
theorem solveWithRefinement_scale (m : Mat n n ℝ) (rhs : Vec n ℝ) (steps : Nat) :
    0 < (solveWithRefinement m rhs steps).scale ∧ (solveWithRefinement m rhs steps).scale ≤ 1 :=
  ⟨PivotedFactors.backwardScale_pos _ _, PivotedFactors.backwardScale_le_one m _⟩

/-- Without a lifted pivot the first solution is exact, so that no step changes it. -/
theorem solveWithRefinement_eq {m : Mat n n ℝ} (rhs : Vec n ℝ)
    (hunperturbed : (PivotedFactors.ofMat m).perturbed = false) (steps other : Nat) :
    solveWithRefinement m rhs other = solveWithRefinement m rhs steps := by
  have hfirst := PivotedFactors.solve_spec (PivotedFactors.invariant_ofMat hunperturbed) rhs
  simp only [solveWithRefinement, refine_eq_self _ hfirst]

/-- A Sylvester equation, and a coupled pair of them, is solved with a scale between zero and one.
If no pivot was lifted, the solution is exact and does not depend on the number of refinement
steps. -/
theorem sylvester_solved (a11 : Mat p p ℝ) (a22 : Mat q q ℝ) (a12 : Mat p q ℝ) (b11 : Mat p p ℝ)
    (b22 : Mat q q ℝ) (b12 : Mat p q ℝ) (steps : Nat) :
    let single := solveSingleSylvester a11 a22 a12 steps
    let coupled := solveCoupledSylvester a11 a22 a12 b11 b22 b12 steps
    (0 < single.scale ∧ single.scale ≤ 1) ∧ single.left = single.right ∧
    (single.perturbed = false →
      a11.toMatrix * single.right.toMatrix - single.right.toMatrix * a22.toMatrix =
          single.scale • a12.toMatrix ∧
        ∀ other, solveSingleSylvester a11 a22 a12 other = single) ∧
    (0 < coupled.scale ∧ coupled.scale ≤ 1) ∧
    (coupled.perturbed = false →
      a11.toMatrix * coupled.right.toMatrix - coupled.left.toMatrix * a22.toMatrix =
          coupled.scale • a12.toMatrix ∧
        b11.toMatrix * coupled.right.toMatrix - coupled.left.toMatrix * b22.toMatrix =
          coupled.scale • b12.toMatrix ∧
        ∀ other, solveCoupledSylvester a11 a22 a12 b11 b22 b12 other = coupled) := by
  refine ⟨solveWithRefinement_scale _ _ steps, rfl, fun hunperturbed => ?_,
    solveWithRefinement_scale _ _ steps, fun hunperturbed => ?_⟩
  · obtain ⟨hsolves, -⟩ := solveSingleSylvester_spec a11 a22 a12 steps hunperturbed
    refine ⟨hsolves, fun other => ?_⟩
    simp only [solveSingleSylvester, solveWithRefinement_eq _ hunperturbed steps other]
  · obtain ⟨hfirst, hsecond, -⟩ :=
      solveCoupledSylvester_spec a11 a22 a12 b11 b22 b12 steps hunperturbed
    refine ⟨hfirst, hsecond, fun other => ?_⟩
    simp only [solveCoupledSylvester, solveWithRefinement_eq _ hunperturbed steps other]

/-- A triangular system with unit pivots and one more entry, in the upper right corner. -/
def corneredSystem (n : Nat) : Mat n n ℝ :=
  Mat.ofFn fun i j => if i = j then (if i < 2 then 1 else -1) else
    if i = 0 ∧ j + 1 = n then -1 else 0

/-- No pivot of the example is perturbed. -/
theorem perturbed_corneredSystem (n : Nat) :
    (PivotedFactors.ofMat (corneredSystem n)).perturbed = false := by
  refine PivotedFactors.perturbed_triangular (fun i j => ?_) (fun i hi => ?_) fun i j hij => ?_
  · rw [corneredSystem, Mat.get_ofFn]
    split_ifs <;> simp
  · rw [corneredSystem, Mat.get_ofFn, if_pos ⟨hi, hi⟩, if_pos rfl]
    split <;> simp
  · rw [corneredSystem, Mat.get_ofFn]
    split_ifs <;> first | rfl | omega

/-- The equations between the eigenvalue one and a nilpotent block below it, with the second
matrices zero and the identity, are solved exactly: both systems are triangular with unit pivots. -/
theorem sylvester_solved_nilpotent :
    let a11 : Mat 1 1 ℝ := Mat.identity
    let a22 : Mat 2 2 ℝ := Mat.ofRows2 0 0 1 0
    let b11 : Mat 1 1 ℝ := Mat.zero
    let b22 : Mat 2 2 ℝ := Mat.identity
    let ones : Mat 1 2 ℝ := Mat.ofFn fun _ _ => 1
    let single := solveSingleSylvester a11 a22 ones 0
    let coupled := solveCoupledSylvester a11 a22 ones b11 b22 ones 0
    single.perturbed = false ∧ coupled.perturbed = false ∧
      a11.toMatrix * single.right.toMatrix - single.right.toMatrix * a22.toMatrix =
        single.scale • ones.toMatrix ∧
      solveSingleSylvester a11 a22 ones 2 = single ∧
      a11.toMatrix * coupled.right.toMatrix - coupled.left.toMatrix * a22.toMatrix =
        coupled.scale • ones.toMatrix ∧
      b11.toMatrix * coupled.right.toMatrix - coupled.left.toMatrix * b22.toMatrix =
        coupled.scale • ones.toMatrix ∧
      solveCoupledSylvester a11 a22 ones b11 b22 ones 2 = coupled := by
  intro a11 a22 b11 b22 ones single coupled
  have hsingle : single.perturbed = false := by
    refine (congrArg (fun m : Mat 2 2 ℝ => (PivotedFactors.ofMat m).perturbed)
      (Mat.ext_get fun i hi j hj => ?_)).trans (perturbed_corneredSystem 2)
    rw [Mat.get_ofFn, if_pos ⟨hi, hj⟩]
    interval_cases i <;> interval_cases j <;>
      simp [leftCoefficient, rightCoefficient, a11, a22, Mat.ofRows2, Mat.identity, corneredSystem]
  have hcoupled : coupled.perturbed = false := by
    refine (congrArg (fun m : Mat 4 4 ℝ => (PivotedFactors.ofMat m).perturbed)
      (Mat.ext_get fun i hi j hj => ?_)).trans (perturbed_corneredSystem 4)
    rw [Mat.get_ofFn, if_pos ⟨hi, hj⟩]
    interval_cases i <;> interval_cases j <;>
      simp [leftCoefficient, rightCoefficient, a11, a22, b11, b22, Mat.ofRows2, Mat.identity,
        Mat.zero, corneredSystem]
  obtain ⟨-, -, hone, -, htwo⟩ := sylvester_solved a11 a22 ones b11 b22 ones 0
  obtain ⟨hsolved, hsteps⟩ := hone hsingle
  obtain ⟨hfirst, hsecond, hsteps'⟩ := htwo hcoupled
  exact ⟨hsingle, hcoupled, hsolved, hsteps 2, hfirst, hsecond, hsteps' 2⟩

end SchurForm
