import Mathlib.Algebra.BigOperators.Intervals
import Mathlib.Logic.Equiv.Basic
import SchurForm.Proofs.MatrixAlgebra
import SchurForm.SylvesterEquation.PivotedFactors

/-!
# Unperturbed factorizations solve their system

After every elimination step the matrix, with its rows and columns in their present order, is the
product of the finished columns of the lower factor with the finished rows of the upper factor, plus
the part that remains to be eliminated. A factorization that had to lift no pivot therefore solves
its system exactly; the right-hand side is scaled by a positive number, and refinement only adds
solutions of the homogeneous system.
-/

namespace SchurForm

open Scalar

variable {n : Nat}

variable {α : Type} [Scalar α]

omit [Scalar α] in
/-- Replacing one entry keeps the others. -/
theorem Vec.get_set_of_ne [Zero α] (z : Vec n α) {i r : Nat} (hr : r ≠ i) (x : α) :
    (z.set i x).get r = z.get r := by
  by_cases hrn : r < n
  · rw [Vec.get_set, if_pos hrn, if_neg hr]
  · rw [Vec.get_of_le _ (Nat.le_of_not_lt hrn), Vec.get_of_le _ (Nat.le_of_not_lt hrn)]

/-- The vector solves the linear system with the scaled right-hand side. -/
def Solves (m : Mat n n ℝ) (x rhs : Vec n ℝ) (scale : ℝ) : Prop :=
  ∀ i < n, ∑ j ∈ Finset.range n, m.get i j * x.get j = scale * rhs.get i

namespace PivotedFactors

/-- The rows below `n` in another order. -/
def Reorders (n : Nat) (order : Nat → Nat) : Prop :=
  ∃ e : Equiv.Perm Nat, order = e ∧ ∀ i, e i < n ↔ i < n

/-- An entry of the unit lower triangular factor. -/
def lower (lu : Mat n n ℝ) (i t : Nat) : ℝ :=
  if i < t then 0 else if i = t then 1 else lu.get i t

/-- An entry of the upper triangular factor. -/
def upper (lu : Mat n n ℝ) (t j : Nat) : ℝ :=
  if j < t then 0 else lu.get t j

/-- An entry of the part that remains to be eliminated after `k` steps. -/
def remaining (lu : Mat n n ℝ) (k i j : Nat) : ℝ :=
  if k ≤ i ∧ k ≤ j then lu.get i j else 0

/-- What holds after `k` elimination steps without a lifted pivot. -/
structure Invariant (m : Mat n n ℝ) (k : Nat) (st : PivotedFactors n ℝ) : Prop where
  rows : Reorders n st.rowOrder
  cols : Reorders n st.colOrder
  product : ∀ i < n, ∀ j < n, m.get (st.rowOrder i) (st.colOrder j) =
    (∑ t ∈ Finset.range k, lower st.lu i t * upper st.lu t j) + remaining st.lu k i j
  pivots : ∀ t < k, st.lu.get t t ≠ 0

/-- Leaving everything in place is a reordering. -/
theorem reorders_id : Reorders n id :=
  ⟨Equiv.refl Nat, rfl, fun _ => Iff.rfl⟩

/-- Exchanging two positions is a swap. -/
theorem transposed_eq_swap (k r : Nat) : transposed k r = Equiv.swap k r := by
  funext i
  rw [Equiv.swap_apply_def]
  rfl

/-- Exchanging two rows of the matrix gives another order of its rows. -/
theorem Reorders.transposed {order : Nat → Nat} (h : Reorders n order) {k r : Nat} (hk : k < n)
    (hr : r < n) : Reorders n fun i => order (transposed k r i) := by
  obtain ⟨e, rfl, he⟩ := h
  refine ⟨(Equiv.swap k r).trans e, ?_, fun i => ?_⟩
  · rw [transposed_eq_swap]
    rfl
  · rw [Equiv.trans_apply, he, ← transposed_eq_swap, PivotedFactors.transposed]
    split
    · omega
    · split <;> omega

/-- A row that is not exchanged keeps its place. -/
theorem transposed_of_lt {k r i : Nat} (hr : k ≤ r) (hi : i < k) : transposed k r i = i := by
  rw [transposed, if_neg (by omega), if_neg (by omega)]

/-- Rows from `k` on stay among themselves. -/
theorem le_transposed_iff {k r i : Nat} (hr : k ≤ r) : k ≤ transposed k r i ↔ k ≤ i := by
  rw [transposed]
  split
  · omega
  · split <;> omega

/-- Exchanging two positions in a range stays in the range. -/
theorem transposed_lt {k r i : Nat} (hk : k < n) (hr : r < n) (hi : i < n) :
    transposed k r i < n := by
  rw [transposed]
  split
  · exact hr
  · split <;> assumption

/-- The pivot is sought among the rows and columns that remain. -/
theorem largestFrom_bounds (a : Mat n n α) {k : Nat} (hk : k < n) :
    (k ≤ (largestFrom a k).row ∧ (largestFrom a k).row < n) ∧
      k ≤ (largestFrom a k).col ∧ (largestFrom a k).col < n := by
  have htrailing (i : Nat) (hi : i ∈ (List.range (n - k)).map fun i => k + i) : k ≤ i ∧ i < n := by
    simp only [List.mem_map, List.mem_range] at hi
    omega
  refine List.foldlRecOn
    (motive := fun best : LargestEntry α =>
      (k ≤ best.row ∧ best.row < n) ∧ k ≤ best.col ∧ best.col < n)
    _ _ ⟨⟨le_rfl, hk⟩, le_rfl, hk⟩ fun best hbest i hi => ?_
  refine List.foldlRecOn
    (motive := fun best : LargestEntry α =>
      (k ≤ best.row ∧ best.row < n) ∧ k ≤ best.col ∧ best.col < n)
    _ _ hbest fun best hbest j hj => ?_
  split
  · exact ⟨htrailing i hi, htrailing j hj⟩
  · exact hbest

/-- The entry at a place after an exchange of rows and columns. -/
theorem get_exchange (lu : Mat n n α) (k r c : Nat) {i j : Nat} (hi : i < n) (hj : j < n) :
    (exchange lu k r c).get i j = lu.get (transposed k r i) (transposed k c j) := by
  rw [exchange, Mat.get_ofFn, if_pos ⟨hi, hj⟩]

section Exchange

variable {k r c : Nat} (lu : Mat n n ℝ) (hr : k ≤ r ∧ r < n) (hc : k ≤ c ∧ c < n)

include hr hc

/-- Exchanging rows moves the finished columns of the lower factor. -/
theorem lower_exchange {i t : Nat} (hi : i < n) (ht : t < k) :
    lower (exchange lu k r c) i t = lower lu (transposed k r i) t := by
  have htn : t < n := by omega
  by_cases hik : i < k
  · rw [lower, lower, get_exchange lu k r c hi htn, transposed_of_lt hr.1 hik,
      transposed_of_lt hc.1 ht]
  · have hmoved := (le_transposed_iff hr.1).mpr (Nat.le_of_not_lt hik)
    rw [lower, lower, get_exchange lu k r c hi htn, transposed_of_lt hc.1 ht, if_neg (by omega),
      if_neg (by omega), if_neg (by omega), if_neg (by omega)]

/-- Exchanging columns moves the finished rows of the upper factor. -/
theorem upper_exchange {t j : Nat} (ht : t < k) (hj : j < n) :
    upper (exchange lu k r c) t j = upper lu t (transposed k c j) := by
  have htn : t < n := by omega
  by_cases hjk : j < k
  · rw [upper, upper, get_exchange lu k r c htn hj, transposed_of_lt hr.1 ht,
      transposed_of_lt hc.1 hjk]
  · have hmoved := (le_transposed_iff hc.1).mpr (Nat.le_of_not_lt hjk)
    rw [upper, upper, get_exchange lu k r c htn hj, transposed_of_lt hr.1 ht, if_neg (by omega),
      if_neg (by omega)]

/-- Exchanging rows and columns exchanges them in what remains to be eliminated. -/
theorem remaining_exchange {i j : Nat} (hi : i < n) (hj : j < n) :
    remaining (exchange lu k r c) k i j =
      remaining lu k (transposed k r i) (transposed k c j) := by
  rw [remaining, remaining, get_exchange lu k r c hi hj]
  simp only [le_transposed_iff hr.1, le_transposed_iff hc.1]

end Exchange

section Eliminate

variable {k : Nat} (a : Mat n n ℝ)

/-- The entry at a place after an elimination step. -/
theorem get_eliminate (a : Mat n n α) {i j : Nat} (hi : i < n) (hj : j < n) :
    (eliminate a k).get i j =
      if k < i then
        if j = k then a.get i k / a.get k k
        else if k < j then a.get i j - a.get i k / a.get k k * a.get k j
        else a.get i j
      else a.get i j := by
  rw [eliminate, Mat.get_ofFn, if_pos ⟨hi, hj⟩, Vec.get_ofFn, if_pos hi]

/-- A step of elimination keeps the columns of the lower factor that are finished. -/
theorem lower_eliminate {i t : Nat} (hi : i < n) (ht : t < k) (hk : k < n) :
    lower (eliminate a k) i t = lower a i t := by
  rw [lower, lower, get_eliminate a hi (ht.trans hk), if_neg (show ¬t = k by omega),
    if_neg (show ¬k < t by omega), ite_self]

/-- A step of elimination keeps the rows of the upper factor that are finished. -/
theorem upper_eliminate {t j : Nat} (ht : t ≤ k) (hk : k < n) (hj : j < n) :
    upper (eliminate a k) t j = upper a t j := by
  rw [upper, upper, get_eliminate a (ht.trans_lt hk) hj, if_neg (show ¬k < t by omega)]

/-- Eliminating splits the remaining part into one finished product and what still remains. -/
theorem remaining_eliminate {i j : Nat} (hi : i < n) (hj : j < n) (hk : k < n)
    (hpivot : a.get k k ≠ 0) :
    remaining a k i j = lower (eliminate a k) i k * upper (eliminate a k) k j +
      remaining (eliminate a k) (k + 1) i j := by
  have hrest : remaining (eliminate a k) (k + 1) i j =
      if k < i ∧ k < j then a.get i j - a.get i k / a.get k k * a.get k j else 0 := by
    rw [remaining, get_eliminate a hi hj]
    by_cases hboth : k < i ∧ k < j
    · rw [if_pos (show k + 1 ≤ i ∧ k + 1 ≤ j from hboth), if_pos hboth.1,
        if_neg (show ¬j = k by omega), if_pos hboth.2, if_pos hboth]
    · rw [if_neg (show ¬(k + 1 ≤ i ∧ k + 1 ≤ j) from hboth), if_neg hboth]
  rw [hrest, upper_eliminate a le_rfl hk hj, remaining, lower, upper, get_eliminate a hi hk]
  rcases lt_trichotomy i k with hik | rfl | hik
  · rw [if_neg (show ¬(k ≤ i ∧ k ≤ j) by omega), if_neg (show ¬(k < i ∧ k < j) by omega),
      if_pos hik, zero_mul, add_zero]
  · rw [if_neg (show ¬(i < i ∧ i < j) by omega), if_neg (lt_irrefl i), if_pos rfl, one_mul,
      add_zero]
    by_cases hij : i ≤ j
    · rw [if_pos ⟨le_rfl, hij⟩, if_neg (Nat.not_lt.mpr hij)]
    · rw [if_neg (fun h => hij h.2), if_pos (Nat.lt_of_not_le hij)]
  · rw [if_neg (show ¬i < k by omega), if_neg (show ¬i = k by omega), if_pos hik, if_pos rfl]
    rcases lt_trichotomy j k with hjk | rfl | hjk
    · rw [if_neg (show ¬(k ≤ i ∧ k ≤ j) by omega), if_pos hjk,
        if_neg (show ¬(k < i ∧ k < j) by omega), mul_zero, add_zero]
    · rw [if_pos ⟨hik.le, le_rfl⟩, if_neg (lt_irrefl j), if_neg (show ¬(j < i ∧ j < j) by omega),
        div_mul_cancel₀ _ hpivot, add_zero]
    · rw [if_pos ⟨hik.le, hjk.le⟩, if_neg (show ¬j < k by omega), if_pos ⟨hik, hjk⟩]
      ring

end Eliminate

/-- The floor for pivots is positive. -/
theorem pivotFloor_pos (a : Mat n n ℝ) : 0 < pivotFloor a := by
  rw [pivotFloor, maxNum_real]
  exact lt_max_of_lt_right safeMin_pos

/-- A step that lifts no pivot keeps the invariant. -/
theorem Invariant.step {m : Mat n n ℝ} {k : Nat} {st : PivotedFactors n ℝ} {floor : ℝ}
    (hinv : Invariant m k st) (hk : k < n) (hfloor : 0 < floor)
    (hunperturbed : (st.step floor k).perturbed = false) :
    Invariant m (k + 1) (st.step floor k) := by
  obtain ⟨hr, hc⟩ := largestFrom_bounds st.lu hk
  set best := largestFrom st.lu k with hbest
  set a := exchange st.lu k best.row best.col with ha
  have hsmall : decide (Scalar.abs (a.get k k) < floor) = false :=
    (Bool.or_eq_false_iff.mp hunperturbed).2
  have hpivot : a.get k k ≠ 0 := by
    intro hzero
    rw [decide_eq_false_iff_not, abs_real, hzero, abs_zero] at hsmall
    exact hsmall hfloor
  have hstep : st.step floor k =
      { lu := eliminate a k
        rowOrder := fun i => st.rowOrder (transposed k best.row i)
        colOrder := fun i => st.colOrder (transposed k best.col i)
        perturbed := st.perturbed || false } := by
    simp only [PivotedFactors.step, ← hbest, ← ha, hsmall, Bool.false_eq_true, if_false]
  rw [hstep]
  refine ⟨hinv.rows.transposed hk hr.2, hinv.cols.transposed hk hc.2, fun i hi j hj => ?_,
    fun t ht => ?_⟩
  · rw [hinv.product _ (transposed_lt hk hr.2 hi) _ (transposed_lt hk hc.2 hj),
      ← remaining_exchange st.lu hr hc hi hj, ← ha, remaining_eliminate a hi hj hk hpivot,
      Finset.sum_range_succ, add_assoc]
    congr 1
    apply Finset.sum_congr rfl
    intro t ht
    have ht := Finset.mem_range.mp ht
    rw [lower_eliminate a hi ht hk, upper_eliminate a ht.le hk hj,
      lower_exchange st.lu hr hc hi ht, upper_exchange st.lu hr hc ht hj]
  · have htn : t < n := by omega
    rw [get_eliminate a htn htn, if_neg (by omega)]
    rcases Nat.lt_succ_iff_lt_or_eq.mp ht with ht | rfl
    · rw [ha, get_exchange st.lu k _ _ htn htn, transposed_of_lt hr.1 ht, transposed_of_lt hc.1 ht]
      exact hinv.pivots t ht
    · exact hpivot

/-- A factorization without lifted pivots is a factorization of the matrix. -/
theorem invariant_ofMat {m : Mat n n ℝ} (hunperturbed : (ofMat m).perturbed = false) :
    Invariant m n (ofMat m) := by
  have hrun (k : Nat) (hk : k ≤ n) :
      let st := (List.range k).foldl (PivotedFactors.step (pivotFloor m))
        { lu := m, rowOrder := id, colOrder := id, perturbed := false }
      st.perturbed = false → Invariant m k st := by
    induction k with
    | zero =>
      refine fun _ => ⟨reorders_id, reorders_id, fun i hi j hj => ?_, fun t ht => ?_⟩
      · simp [remaining]
      · exact absurd ht t.not_lt_zero
    | succ k ih =>
      rw [List.range_succ, List.foldl_append, List.foldl_cons, List.foldl_nil]
      intro st hst
      exact (ih (by omega) (Bool.or_eq_false_iff.mp hst).1).step hk (pivotFloor_pos m) hst
  exact hrun n le_rfl hunperturbed

/-- Subtracting terms one by one subtracts their sum. -/
theorem subtractAll_range (x : ℝ) (count : Nat) (f : Nat → ℝ) :
    subtractAll x (List.range count) f = x - ∑ k ∈ Finset.range count, f k := by
  induction count with
  | zero => simp [subtractAll]
  | succ count ih =>
    have hlast : subtractAll x (List.range (count + 1)) f =
        subtractAll x (List.range count) f - f count := by
      simp only [subtractAll, List.range_succ, List.foldl_append, List.foldl_cons, List.foldl_nil]
    rw [hlast, ih, Finset.sum_range_succ, sub_sub]

/-- Subtracting the terms of an interval one by one subtracts their sum. -/
theorem subtractAll_map_range (x : ℝ) (first count : Nat) (f : Nat → ℝ) :
    subtractAll x ((List.range count).map fun k => first + k) f =
      x - ∑ k ∈ Finset.Ico first (first + count), f k := by
  rw [subtractAll, List.foldl_map, ← subtractAll, subtractAll_range, Finset.sum_Ico_eq_sum_range,
    Nat.add_sub_cancel_left]

/-- The unit lower triangular system, row by row. -/
theorem forward_spec (lu : Mat n n ℝ) (y : Vec n ℝ) {i : Nat} (hi : i < n) :
    (forward lu y).get i + ∑ t ∈ Finset.range i, lu.get i t * (forward lu y).get t = y.get i := by
  have hrun (count : Nat) (hcount : count ≤ n) :
      let z := (List.range count).foldl
        (fun y i => y.set i (subtractAll (y.get i) (List.range i) fun k => lu.get i k * y.get k)) y
      (∀ i < count, z.get i + ∑ t ∈ Finset.range i, lu.get i t * z.get t = y.get i) ∧
        ∀ i, count ≤ i → z.get i = y.get i := by
    induction count with
    | zero => exact ⟨fun i hi => absurd hi i.not_lt_zero, fun i _ => rfl⟩
    | succ count ih =>
      obtain ⟨hdone, hrest⟩ := ih (by omega)
      rw [List.range_succ, List.foldl_append, List.foldl_cons, List.foldl_nil]
      set z := (List.range count).foldl
        (fun y i => y.set i (subtractAll (y.get i) (List.range i) fun k => lu.get i k * y.get k)) y
      intro z'
      have hkeep (r : Nat) (hr : r ≠ count) : z'.get r = z.get r := z.get_set_of_ne hr _
      have hsum (i : Nat) (hi : i ≤ count) : ∑ t ∈ Finset.range i, lu.get i t * z'.get t =
          ∑ t ∈ Finset.range i, lu.get i t * z.get t :=
        Finset.sum_congr rfl fun t ht => by
          rw [hkeep t (by have := Finset.mem_range.mp ht; omega)]
      refine ⟨fun i hi => ?_, fun i hi => ?_⟩
      · rw [hsum i (by omega)]
        rcases Nat.lt_succ_iff_lt_or_eq.mp hi with hi | rfl
        · rw [hkeep i hi.ne]
          exact hdone i hi
        · rw [Vec.get_set, if_pos (by omega), if_pos rfl, subtractAll_range, sub_add_cancel]
          exact hrest i le_rfl
      · rw [hkeep i (by omega)]
        exact hrest i (by omega)
  exact (hrun n le_rfl).1 i hi

/-- The upper triangular system, row by row. -/
theorem backward_spec (lu : Mat n n ℝ) (hpivots : ∀ t < n, lu.get t t ≠ 0) (y : Vec n ℝ) {i : Nat}
    (hi : i < n) :
    lu.get i i * (backward lu y).get i +
      ∑ j ∈ Finset.Ico (i + 1) n, lu.get i j * (backward lu y).get j = y.get i := by
  -- The rows from `count` on are solved, and those before it still hold the right-hand side.
  have hrun (count : Nat) (hcount : count ≤ n) (z : Vec n ℝ)
      (hdone : ∀ i, count ≤ i → i < n →
        lu.get i i * z.get i + ∑ j ∈ Finset.Ico (i + 1) n, lu.get i j * z.get j = y.get i)
      (hrest : ∀ i < count, z.get i = y.get i) :
      let x := (List.range count).reverse.foldl
        (fun y i =>
          let later := (List.range (n - (i + 1))).map fun k => i + 1 + k
          y.set i (subtractAll (y.get i) later (fun k => lu.get i k * y.get k) / lu.get i i)) z
      ∀ i < n, lu.get i i * x.get i + ∑ j ∈ Finset.Ico (i + 1) n, lu.get i j * x.get j =
        y.get i := by
    induction count generalizing z with
    | zero => exact fun i hi => hdone i (Nat.zero_le i) hi
    | succ count ih =>
      rw [List.range_succ, List.reverse_append, List.reverse_singleton, List.singleton_append,
        List.foldl_cons]
      set later := (List.range (n - (count + 1))).map fun k => count + 1 + k
      set z' := z.set count
        (subtractAll (z.get count) later (fun k => lu.get count k * z.get k) / lu.get count count)
      have hkeep (r : Nat) (hr : r ≠ count) : z'.get r = z.get r := z.get_set_of_ne hr _
      refine ih (by omega) z' (fun i hi hin => ?_) fun i hi => ?_
      · rw [Finset.sum_congr rfl fun j hj => by
          rw [hkeep j (by have := Finset.mem_Ico.mp hj; omega)]]
        rcases hi.lt_or_eq with hi | rfl
        · rw [hkeep i hi.ne']
          exact hdone i hi hin
        · rw [Vec.get_set, if_pos hin, if_pos rfl, subtractAll_map_range,
            Nat.add_sub_cancel' hin, mul_div_cancel₀ _ (hpivots count hin), sub_add_cancel]
          exact hrest count count.lt_succ_self
      · rw [hkeep i hi.ne]
        exact hrest i (by omega)
  exact hrun n le_rfl y (fun i hi hin => absurd hin (by omega)) (fun _ _ => rfl) i hi

/-- Restoring the order puts every unknown at its place. -/
theorem get_restore {order : Nat → Nat} (h : Reorders n order) (y : Vec n ℝ) {k : Nat}
    (hk : k < n) :
    (restore order y).get (order k) = y.get k := by
  obtain ⟨e, rfl, he⟩ := h
  have hrun (count : Nat) (hcount : count ≤ n) : ∀ k < count,
      ((List.range count).foldl (fun x k => x.set (e k) (y.get k)) (Vec.zero : Vec n ℝ)).get (e k) =
        y.get k := by
    induction count with
    | zero => exact fun k hk => absurd hk k.not_lt_zero
    | succ count ih =>
      intro k hk
      rw [List.range_succ, List.foldl_append, List.foldl_cons, List.foldl_nil, Vec.get_set,
        if_pos ((he k).mpr (by omega))]
      rcases Nat.lt_succ_iff_lt_or_eq.mp hk with hk | rfl
      · rw [if_neg (e.injective.ne hk.ne)]
        exact ih (by omega) k hk
      · rw [if_pos rfl]
  exact hrun n le_rfl k hk

/-- The right-hand side is scaled by a positive number. -/
theorem backwardScale_pos (lu : Mat n n ℝ) (y : Vec n ℝ) : 0 < backwardScale lu y := by
  rw [backwardScale]
  split
  · rename_i hsmall
    have hbound : 0 < two * safeMin * y.supNorm := (abs_nonneg _).trans_lt hsmall.2
    have hsize : 0 < y.supNorm := by
      rw [two_real] at hbound
      exact pos_of_mul_pos_right hbound (mul_pos two_pos safeMin_pos).le
    rw [half_real]
    positivity
  · exact one_pos

/-- The forward substitution solves the lower triangular equations. -/
theorem sum_lower_mul_forward (lu : Mat n n ℝ) (rhs : Vec n ℝ) {i : Nat} (hi : i < n) :
    ∑ t ∈ Finset.range n, lower lu i t * (forward lu rhs).get t = rhs.get i := by
  rw [← forward_spec lu rhs hi, Finset.range_eq_Ico,
    ← Finset.sum_Ico_consecutive _ (Nat.zero_le i) hi.le, Finset.sum_eq_sum_Ico_succ_bot hi,
    Finset.sum_eq_zero (s := Finset.Ico (i + 1) n) fun t ht => ?_, add_zero, add_comm, lower,
    if_neg (lt_irrefl i), if_pos rfl, one_mul, Finset.range_eq_Ico]
  · congr 1
    apply Finset.sum_congr rfl
    intro t ht
    have ht := (Finset.mem_Ico.mp ht).2
    rw [lower, if_neg (by omega), if_neg (by omega)]
  · rw [lower, if_pos (show i < t from (Finset.mem_Ico.mp ht).1), zero_mul]

/-- The backward substitution solves the upper triangular equations. -/
theorem sum_upper_mul_backward (lu : Mat n n ℝ) (hpivots : ∀ t < n, lu.get t t ≠ 0) (rhs : Vec n ℝ)
    {t : Nat} (ht : t < n) :
    ∑ j ∈ Finset.range n, upper lu t j * (backward lu rhs).get j = rhs.get t := by
  rw [← backward_spec lu hpivots rhs ht, Finset.range_eq_Ico,
    ← Finset.sum_Ico_consecutive _ (Nat.zero_le t) ht.le, Finset.sum_eq_zero fun j hj => ?_,
    zero_add, Finset.sum_eq_sum_Ico_succ_bot ht, upper, if_neg (lt_irrefl t)]
  · congr 1
    apply Finset.sum_congr rfl
    intro j hj
    rw [upper, if_neg (by have := Finset.mem_Ico.mp hj; omega)]
  · rw [upper, if_pos (Finset.mem_Ico.mp hj).2, zero_mul]

/-- Solving with a factorization that lifted no pivot is exact. -/
theorem solve_spec {m : Mat n n ℝ} {f : PivotedFactors n ℝ} (hinv : Invariant m n f)
    (rhs : Vec n ℝ) : Solves m (f.solve rhs).1 rhs (f.solve rhs).2 := by
  obtain ⟨rows, hrows, hrowsLt⟩ := hinv.rows
  obtain ⟨cols, hcols, hcolsLt⟩ := hinv.cols
  set y := forward f.lu (Vec.ofFn fun i => rhs.get (f.rowOrder i)) with hy
  set scale := backwardScale f.lu y with hscale
  set x := backward f.lu (y.map fun v => v * scale) with hx
  have hsolve : f.solve rhs = (restore f.colOrder x, scale) := rfl
  have hupper (t : Nat) (ht : t < n) :
      ∑ j ∈ Finset.range n, upper f.lu t j * x.get j = scale * y.get t := by
    rw [hx, sum_upper_mul_backward f.lu hinv.pivots _ ht, Vec.get_map, if_pos ht, mul_comm]
  have hlower (i : Nat) (hi : i < n) :
      ∑ t ∈ Finset.range n, lower f.lu i t * y.get t = rhs.get (f.rowOrder i) := by
    rw [hy, sum_lower_mul_forward f.lu _ hi, Vec.get_ofFn, if_pos hi]
  intro i hi
  obtain ⟨i, rfl⟩ := rows.surjective i
  have hi := (hrowsLt i).mp hi
  rw [hsolve]
  calc ∑ j ∈ Finset.range n, m.get (rows i) j * (restore f.colOrder x).get j
      = ∑ j ∈ Finset.range n, m.get (rows i) (cols j) * (restore f.colOrder x).get (cols j) := by
        symm
        exact Finset.sum_equiv cols (by simp [hcolsLt]) fun _ _ => rfl
    _ = ∑ j ∈ Finset.range n,
          (∑ t ∈ Finset.range n, lower f.lu i t * upper f.lu t j) * x.get j := by
        apply Finset.sum_congr rfl
        intro j hj
        have hj := Finset.mem_range.mp hj
        have hproduct := hinv.product i hi j hj
        rw [remaining, if_neg (by omega), add_zero] at hproduct
        rw [← hcols, get_restore hinv.cols x hj, ← hrows, hproduct]
    _ = ∑ t ∈ Finset.range n,
          lower f.lu i t * ∑ j ∈ Finset.range n, upper f.lu t j * x.get j := by
        simp only [Finset.sum_mul, Finset.mul_sum]
        rw [Finset.sum_comm]
        simp only [mul_assoc]
    _ = scale * ∑ t ∈ Finset.range n, lower f.lu i t * y.get t := by
        rw [Finset.mul_sum]
        apply Finset.sum_congr rfl
        intro t ht
        rw [hupper t (Finset.mem_range.mp ht)]
        ring
    _ = scale * rhs.get (rows i) := by rw [hlower i hi, ← hrows]

/-- No pivot of magnitude one is lifted in a matrix whose entries have magnitude one at most. -/
theorem pivotFloor_le_one {a : Mat n n ℝ} (hbound : ∀ i j, |a.get i j| ≤ 1) : pivotFloor a ≤ 1 := by
  have hepsilon : (epsilon : ℝ) ≤ 1 := inv_le_one_of_one_le₀ (one_le_pow₀ one_le_two)
  have hsafe : (safeMin : ℝ) ≤ 1 := by
    change ((2 : ℝ) ^ 1022)⁻¹ / ((2 : ℝ) ^ 52)⁻¹ ≤ 1
    rw [div_le_one (by positivity)]
    gcongr
    · norm_num
    · norm_num
  rw [pivotFloor, maxNum_real, max_le_iff]
  exact ⟨mul_le_one₀ hepsilon (maxTo_nonneg _ _) ((Mat.supNorm_le_iff zero_le_one).mpr hbound),
    hsafe⟩

/-- A quarter turn is factored without a lifted pivot. -/
theorem perturbed_quarterTurn :
    (ofMat (Mat.ofRows2 0 (-1) 1 0 : Mat 2 2 ℝ)).perturbed = false := by
  have hfloor : ¬1 < pivotFloor (Mat.ofRows2 0 (-1) 1 0 : Mat 2 2 ℝ) := by
    refine not_lt.mpr (pivotFloor_le_one fun i j => ?_)
    rw [Mat.ofRows2, Mat.get_ofFn]
    split
    · split <;> split <;> simp
    · simp
  have hpos : (0 : ℝ) < 1 := one_pos
  have hneg : ¬(1 : ℝ) < 0 := hpos.not_gt
  rw [ofMat]
  generalize pivotFloor (Mat.ofRows2 0 (-1) 1 0 : Mat 2 2 ℝ) = floor at hfloor ⊢
  simp [hpos, hneg, hfloor, Mat.ofRows2, List.range_succ, step,
    largestFrom, exchange, transposed,
    eliminate]

/-- The diagonal entry is the first largest entry if none is larger. -/
theorem largestFrom_diagonal {a : Mat n n ℝ} {k : Nat} (hk : k < n)
    (hbound : ∀ i j, |a.get i j| ≤ |a.get k k|) (hpos : 0 < |a.get k k|) :
    largestFrom a k = ⟨k, k, |a.get k k|⟩ := by
  obtain ⟨later, hlater⟩ : ∃ later, (List.range (n - k)).map (fun i => k + i) = k :: later := by
    obtain ⟨rest, hrest⟩ := Nat.exists_eq_add_of_lt hk
    rw [show n - k = rest + 1 by omega, List.range_succ_eq_map]
    exact ⟨_, rfl⟩
  have hkeep (i j : Nat) : ¬|a.get k k| < |a.get i j| := (hbound i j).not_gt
  -- No later entry is larger than the one that has been found.
  have hrow (i : Nat) : later.foldl (fun best j =>
      if best.size < |a.get i j| then ⟨i, j, |a.get i j|⟩ else best) ⟨k, k, |a.get k k|⟩ =
        (⟨k, k, |a.get k k|⟩ : LargestEntry ℝ) :=
    List.foldl_fixed' (fun j => if_neg (hkeep i j)) later
  simp only [largestFrom, hlater, List.foldl_cons, abs_real, hpos, if_true, hrow]
  exact List.foldl_fixed' (fun i => by simp only [hkeep, if_false, hrow]) later

/-- A step at a diagonal entry that is largest and has only zeros below it changes nothing. -/
theorem step_diagonal (floor : ℝ) {st : PivotedFactors n ℝ} {k : Nat} (hk : k < n)
    (hbound : ∀ i j, |st.lu.get i j| ≤ |st.lu.get k k|) (hpos : 0 < |st.lu.get k k|)
    (hfloor : floor ≤ |st.lu.get k k|) (hbelow : ∀ i, k < i → st.lu.get i k = 0) :
    (step floor st k).lu = st.lu ∧ (step floor st k).perturbed = st.perturbed := by
  have hexchange : exchange st.lu k k k = st.lu := by
    apply Mat.ext_get
    intro i hi j hj
    rw [get_exchange _ _ _ _ hi hj, transposed_eq_swap, Equiv.swap_self]
    rfl
  have heliminate : eliminate st.lu k = st.lu := by
    apply Mat.ext_get
    intro i hi j hj
    rw [eliminate, Mat.get_ofFn, if_pos ⟨hi, hj⟩]
    split
    · rename_i hki
      rw [Vec.get_ofFn, if_pos hi, hbelow i hki, zero_div, zero_mul, sub_zero]
      split
      · rw [‹j = k›, hbelow i hki]
      · split <;> rfl
    · rfl
  have hsmall : ¬|st.lu.get k k| < floor := hfloor.not_gt
  simp only [step, largestFrom_diagonal hk hbound hpos, hexchange, abs_real, hsmall, decide_false,
    Bool.false_eq_true, if_false, heliminate, Bool.or_false, and_self]

/-- A triangular matrix with diagonal entries of magnitude one and no larger entries is factored
without a lifted pivot. -/
theorem perturbed_triangular {a : Mat n n ℝ} (hbound : ∀ i j, |a.get i j| ≤ 1)
    (hdiagonal : ∀ i < n, |a.get i i| = 1) (hbelow : ∀ i j, j < i → a.get i j = 0) :
    (ofMat a).perturbed = false := by
  have hkept : (ofMat a).lu = a ∧ (ofMat a).perturbed = false := by
    refine List.foldlRecOn
      (motive := fun st : PivotedFactors n ℝ => st.lu = a ∧ st.perturbed = false)
      _ _ ⟨rfl, rfl⟩ fun st hst k hk => ?_
    obtain ⟨rfl, hperturbed⟩ := hst
    have hk := List.mem_range.mp hk
    have hone := hdiagonal k hk
    obtain ⟨hlu, hstep⟩ := step_diagonal (pivotFloor st.lu) hk (by rwa [hone])
      (by rw [hone]; exact one_pos) (by rw [hone]; exact pivotFloor_le_one hbound)
      fun i => hbelow i k
    exact ⟨hlu, hstep.trans hperturbed⟩
  exact hkept.2

end PivotedFactors

/-- Refining an exact solution leaves an exact solution. -/
theorem refine_solves {m : Mat n n ℝ} {lu : PivotedFactors n ℝ}
    (hinv : PivotedFactors.Invariant m n lu) (rhs : Vec n ℝ) (scale : ℝ) (steps : Nat)
    {x : Vec n ℝ} (hx : Solves m x rhs scale) :
    Solves m (refine m lu rhs scale steps x) rhs scale := by
  induction steps generalizing x with
  | zero => exact hx
  | succ steps ih =>
    set residual : Vec n ℝ := Vec.ofFn fun i =>
      scale * rhs.get i - sumTo n fun j => m.get i j * x.get j with hresidual
    have hzero (i : Nat) (hi : i < n) : residual.get i = 0 := by
      rw [hresidual, Vec.get_ofFn, if_pos hi, sumTo_real, hx i hi, sub_self]
    have himproved :
        Solves m (Vec.ofFn fun i => x.get i + (lu.solve residual).1.get i) rhs scale := by
      intro i hi
      have hcorrection := PivotedFactors.solve_spec hinv residual i hi
      rw [hzero i hi, mul_zero] at hcorrection
      rw [← hx i hi, ← add_zero (∑ j ∈ Finset.range n, m.get i j * x.get j), ← hcorrection,
        ← Finset.sum_add_distrib]
      apply Finset.sum_congr rfl
      intro j hj
      rw [Vec.get_ofFn, if_pos (Finset.mem_range.mp hj), mul_add]
    simp only [refine, ← hresidual]
    split
    · exact hx
    · split
      · exact himproved
      · exact ih himproved

/-- Solving with refinement is exact, with a positive scale, if no pivot was lifted. -/
theorem solveWithRefinement_spec (m : Mat n n ℝ) (rhs : Vec n ℝ) (steps : Nat)
    (hunperturbed : (solveWithRefinement m rhs steps).perturbed = false) :
    Solves m (solveWithRefinement m rhs steps).x rhs (solveWithRefinement m rhs steps).scale ∧
      0 < (solveWithRefinement m rhs steps).scale := by
  have hinv := PivotedFactors.invariant_ofMat hunperturbed
  exact ⟨refine_solves hinv rhs _ steps (PivotedFactors.solve_spec hinv rhs),
    PivotedFactors.backwardScale_pos _ _⟩

end SchurForm
