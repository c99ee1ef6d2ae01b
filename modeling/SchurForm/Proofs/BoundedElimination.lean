import SchurForm.Proofs.BoundedMatrices
import SchurForm.Proofs.PivotedElimination

/-!
# Elimination of bounded numbers

Complete pivoting keeps every multiplier at most one in magnitude, so an elimination step at most
doubles the bound of the entries, and every finished row is bounded by its own pivot. Pivots are at
least the floor, which lies between the largest coefficient and its last place.
-/

namespace SchurForm

open Scalar Binary64

/-- A fold whose steps never lower a size and reach the size of what they look at ends at a size
that nothing it has looked at exceeds. -/
theorem PivotedFactors.foldl_reaches {ι β : Type} (step : β → ι → β) (P : β → Prop) (size : β → ℝ)
    (key : ι → ℝ) {l : List ι} (hstep : ∀ b, P b → ∀ i ∈ l,
      P (step b i) ∧ size b ≤ size (step b i) ∧ key i ≤ size (step b i)) {b : β} (hb : P b) :
    P (l.foldl step b) ∧ size b ≤ size (l.foldl step b) ∧
      ∀ i ∈ l, key i ≤ size (l.foldl step b) := by
  induction l generalizing b with
  | nil => exact ⟨hb, le_rfl, fun i hi => absurd hi List.not_mem_nil⟩
  | cons i l ih =>
    obtain ⟨hnext, hgrown, hreached⟩ := hstep b hb i List.mem_cons_self
    obtain ⟨hlast, hlater, hkeys⟩ :=
      ih (fun b hb j hj => hstep b hb j (List.mem_cons_of_mem i hj)) hnext
    refine ⟨hlast, hgrown.trans hlater, fun j hj => ?_⟩
    rcases List.mem_cons.mp hj with rfl | hj
    · exact hreached.trans hlater
    · exact hkeys j hj

variable [Angles] {n : Nat} {e : ℤ}

namespace PivotedFactors

section Largest

/-- The better one of a candidate for the pivot and another entry. -/
def larger (a : Mat n n Float) (i : Nat) (best : LargestEntry Float) (j : Nat) :
    LargestEntry Float :=
  if best.size < Scalar.abs (a.get i j) then ⟨i, j, Scalar.abs (a.get i j)⟩ else best

/-- The size of a candidate is finite and not larger than the entry. -/
def Candidate (a : Mat n n Float) (best : LargestEntry Float) : Prop :=
  best.size.isFinite = true ∧ toReal best.size ≤ |toReal (a.get best.row best.col)|

/-- The better one of two candidates is as large as either. -/
theorem larger_spec {a : Mat n n Float} {best : LargestEntry Float} (hbest : Candidate a best)
    {i j : Nat} (hij : (a.get i j).isFinite = true) :
    Candidate a (larger a i best j) ∧ toReal best.size ≤ toReal (larger a i best j).size ∧
      |toReal (a.get i j)| ≤ toReal (larger a i best j).size := by
  have hfinite : (Scalar.abs (a.get i j)).isFinite = true := (isFinite_abs_iff _).trans hij
  have hsize : toReal (Scalar.abs (a.get i j)) = |toReal (a.get i j)| := toReal_abs _
  have horder := lt_iff_toReal hbest.1 hfinite
  rw [larger]
  split_ifs with hlt
  · exact ⟨⟨hfinite, hsize.le⟩, (horder.mp hlt).le, hsize.ge⟩
  · exact ⟨hbest, le_rfl, hsize ▸ not_lt.mp (mt horder.mpr hlt)⟩

/-- No remaining entry is larger than the pivot. -/
theorem largestFrom_largest {a : Mat n n Float} {k : Nat}
    (ha : ∀ i j, k ≤ i → k ≤ j → (a.get i j).isFinite = true) {i j : Nat} (hi : k ≤ i ∧ i < n)
    (hj : k ≤ j ∧ j < n) :
    |toReal (a.get i j)| ≤ |toReal (a.get (largestFrom a k).row (largestFrom a k).col)| := by
  obtain ⟨trailing, htrailing⟩ : ∃ l, l = (List.range (n - k)).map fun r => k + r := ⟨_, rfl⟩
  have hmem {r : Nat} : r ∈ trailing ↔ k ≤ r ∧ r < n := by
    rw [htrailing, List.mem_map]
    simp only [List.mem_range]
    exact ⟨by omega, fun h => ⟨r - k, by omega, by omega⟩⟩
  have hlargest : largestFrom a k =
      trailing.foldl (fun best r => trailing.foldl (larger a r) best) ⟨k, k, 0⟩ := by
    rw [htrailing]
    rfl
  have hrow (best : LargestEntry Float) (hbest : Candidate a best) (r : Nat) (hr : r ∈ trailing) :=
    foldl_reaches (larger a r) (Candidate a) (fun best => toReal best.size)
      (fun c => |toReal (a.get r c)|) (fun best hbest c hc =>
        larger_spec hbest (ha r c (hmem.mp hr).1 (hmem.mp hc).1)) hbest
  have hall := foldl_reaches (fun best r => trailing.foldl (larger a r) best) (Candidate a)
    (fun best => toReal best.size) (fun r => |toReal (a.get r j)|) (fun best hbest r hr =>
      ⟨(hrow best hbest r hr).1, (hrow best hbest r hr).2.1, (hrow best hbest r hr).2.2 j
        (hmem.mpr hj)⟩) (b := ⟨k, k, 0⟩) ⟨isFinite_zero, by simp⟩
  rw [hlargest]
  exact (hall.2.2 i (hmem.mpr hi)).trans hall.1.2

end Largest

section Elimination

/-- What holds of the table after `k` steps: the entries of the finished rows and of the part that
remains are within `2 ^ e`, the multipliers are within one, and every finished row is bounded by its
pivot, which is not below the floor. -/
structure Eliminated (floor : ℝ) (e : ℤ) (k : Nat) (lu : Mat n n Float) : Prop where
  entries : ∀ i j, (j < k → i ≤ j) → Within (2 ^ e) (lu.get i j)
  lower : ∀ t < k, ∀ i, t < i → Within 1 (lu.get i t)
  pivot : ∀ t < k, floor ≤ |toReal (lu.get t t)|
  upper : ∀ t < k, ∀ j, t < j → |toReal (lu.get t j)| ≤ |toReal (lu.get t t)|

variable {floor : ℝ} {k : Nat} {lu : Mat n n Float}

/-- Exchanging rows and columns of the remaining part keeps what has been done. -/
theorem Eliminated.exchange (h : Eliminated floor e k lu) {r c : Nat} (hk : k < n)
    (hr : k ≤ r ∧ r < n) (hc : k ≤ c ∧ c < n) :
    Eliminated floor e k (PivotedFactors.exchange lu k r c) := by
  have hget {i j : Nat} (hi : i < n) (hj : j < n) := get_exchange lu k r c hi hj
  have hout {i j : Nat} (hij : ¬(i < n ∧ j < n)) :
      (PivotedFactors.exchange lu k r c).get i j = 0 := by
    rw [PivotedFactors.exchange, Mat.get_ofFn, if_neg hij]
    rfl
  refine ⟨fun i j hij => ?_, fun t ht i hi => ?_, fun t ht => ?_, fun t ht j hj => ?_⟩
  · by_cases hin : i < n ∧ j < n
    · rw [hget hin.1 hin.2]
      refine h.entries _ _ fun hlt => ?_
      have hjk : j < k := Nat.lt_of_not_le (mt (le_transposed_iff hc.1).mpr (Nat.not_le.mpr hlt))
      have hik := hij hjk
      rwa [transposed_of_lt hr.1 (hik.trans_lt hjk), transposed_of_lt hc.1 hjk]
    · rw [hout hin]
      exact within_zero_two_zpow e
  · by_cases hin : i < n
    · rw [hget hin (ht.trans hk), transposed_of_lt hc.1 ht]
      refine h.lower t ht _ ?_
      by_cases hik : i < k
      · rwa [transposed_of_lt hr.1 hik]
      · exact ht.trans_le ((le_transposed_iff hr.1).mpr (Nat.le_of_not_lt hik))
    · rw [hout fun hboth => hin hboth.1]
      exact within_zero zero_le_one
  · rw [hget (ht.trans hk) (ht.trans hk), transposed_of_lt hr.1 ht, transposed_of_lt hc.1 ht]
    exact h.pivot t ht
  · rw [hget (ht.trans hk) (ht.trans hk), transposed_of_lt hr.1 ht, transposed_of_lt hc.1 ht]
    by_cases hin : j < n
    · rw [hget (ht.trans hk) hin, transposed_of_lt hr.1 ht]
      refine h.upper t ht _ ?_
      by_cases hjk : j < k
      · rwa [transposed_of_lt hc.1 hjk]
      · exact ht.trans_le ((le_transposed_iff hc.1).mpr (Nat.le_of_not_lt hjk))
    · rw [hout fun hboth => hin hboth.2]
      exact (within_zero (abs_nonneg _)).abs_le

/-- Replacing the next pivot keeps what has been done. -/
theorem Eliminated.lift (h : Eliminated floor e k lu) {x : Float} (hx : Within (2 ^ e) x) :
    Eliminated floor e k
      (Mat.ofFn fun i j => if i = k ∧ j = k then x else lu.get i j : Mat n n Float) := by
  have hkeep {i j : Nat} (hij : ¬(i = k ∧ j = k)) :
      (Mat.ofFn fun i j => if i = k ∧ j = k then x else lu.get i j : Mat n n Float).get i j =
        lu.get i j := by
    rw [Mat.get_ofFn, if_neg hij]
    split
    · rfl
    · rename_i hout
      by_cases hi : i < n
      · exact (lu.get_of_cols_le i (by omega)).symm
      · exact (lu.get_of_rows_le (by omega) j).symm
  refine ⟨fun i j hij => ?_, fun t ht i hi => ?_, fun t ht => ?_, fun t ht j hj => ?_⟩
  · by_cases hk : i = k ∧ j = k
    · rw [Mat.get_ofFn, if_pos hk]
      split
      · exact hx
      · exact within_zero_two_zpow e
    · rw [hkeep hk]
      exact h.entries i j hij
  · rw [hkeep (by omega)]
    exact h.lower t ht i hi
  · rw [hkeep (by omega)]
    exact h.pivot t ht
  · rw [hkeep (by omega), hkeep (by omega)]
    exact h.upper t ht j hj

/-- Eliminating with a pivot that no remaining entry of its row and column exceeds. -/
theorem Eliminated.eliminate (h : Eliminated floor e k lu) (hfloor : 0 < floor) (hk : k < n)
    (hpivot : floor ≤ |toReal (lu.get k k)|)
    (hrow : ∀ j, k < j → |toReal (lu.get k j)| ≤ |toReal (lu.get k k)|)
    (hcol : ∀ i, k < i → |toReal (lu.get i k)| ≤ |toReal (lu.get k k)|) (hlow : -1074 ≤ e)
    (hhigh : e + 1 < 1024) :
    Eliminated floor (e + 1) (k + 1) (PivotedFactors.eliminate lu k) := by
  have hget {i j : Nat} (hi : i < n) (hj : j < n) := get_eliminate (k := k) lu hi hj
  have hout {i j : Nat} (hij : ¬(i < n ∧ j < n)) : (PivotedFactors.eliminate lu k).get i j = 0 := by
    rw [PivotedFactors.eliminate, Mat.get_ofFn, if_neg hij]
    rfl
  have hne : toReal (lu.get k k) ≠ 0 := abs_pos.mp (hfloor.trans_le hpivot)
  have hmultiplier {i : Nat} (hi : k < i) : Within 1 (lu.get i k / lu.get k k) :=
    within_div (h.entries i k (fun hlt => absurd hlt (lt_irrefl k))).isFinite
      (h.entries k k fun _ => le_rfl).isFinite hne (by rw [one_mul]; exact hcol i hi) onGrid_one
      one_lt_two_zpow_1024
  -- an entry that is no multiplier yet and does not become one
  have hkept {i j : Nat} (hi : i < n) (hj : j < n) (hij : ¬k < i ∨ j < k) :
      (PivotedFactors.eliminate lu k).get i j = lu.get i j := by
    rw [hget hi hj]
    split
    · rw [if_neg (by omega), if_neg (by omega)]
    · rfl
  refine ⟨fun i j hij => ?_, fun t ht i hi => ?_, fun t ht => ?_, fun t ht j hj => ?_⟩
  · by_cases hin : i < n ∧ j < n
    · by_cases hki : k < i
      · have hkj : k < j := by
          by_contra hjk
          have := hij (by omega)
          omega
        rw [hget hin.1 hin.2, if_pos hki, if_neg hkj.ne', if_pos hkj]
        refine (h.entries i j fun hlt => absurd hlt (by omega)).sub_two_zpow ?_ (by omega) hhigh
        have hproduct := (hmultiplier hki).mul (h.entries k j fun hlt => absurd hlt (by omega))
        rw [one_mul] at hproduct
        exact hproduct (onGrid_two_zpow hlow) (zpow_lt_zpow_right₀ one_lt_two (by omega))
      · rw [hkept hin.1 hin.2 (.inl hki)]
        exact (h.entries i j fun hlt => hij (by omega)).mono_two_zpow (by omega)
    · rw [hout hin]
      exact within_zero_two_zpow _
  · by_cases hin : i < n
    · rcases Nat.lt_succ_iff_lt_or_eq.mp ht with ht | rfl
      · rw [hkept hin (by omega) (.inr ht)]
        exact h.lower t ht i hi
      · rw [hget hin hk, if_pos hi, if_pos rfl]
        exact hmultiplier hi
    · rw [hout fun hboth => hin hboth.1]
      exact within_zero zero_le_one
  · rw [hkept (by omega) (by omega) (.inl (by omega))]
    rcases Nat.lt_succ_iff_lt_or_eq.mp ht with ht | rfl
    · exact h.pivot t ht
    · exact hpivot
  · by_cases hin : j < n
    · rw [hkept (by omega) hin (.inl (by omega)), hkept (by omega) (by omega) (.inl (by omega))]
      rcases Nat.lt_succ_iff_lt_or_eq.mp ht with ht | rfl
      · exact h.upper t ht j hj
      · exact hrow j hj
    · rw [hout fun hboth => hin hboth.2]
      exact (within_zero (abs_nonneg _)).abs_le

/-- Eliminating with the largest remaining entry as the pivot. A pivot that is lifted to the floor
was below it, and with it all that remains. -/
theorem Eliminated.finish {floor : Float} (h : Eliminated (toReal floor) e k lu)
    (hmax : ∀ i j, k ≤ i → k ≤ j → |toReal (lu.get i j)| ≤ |toReal (lu.get k k)|)
    (hfloor : 0 < toReal floor) (hfloorLe : Within (2 ^ e) floor) (hk : k < n) (hlow : -1074 ≤ e)
    (hhigh : e + 1 < 1024) :
    Eliminated (toReal floor) (e + 1) (k + 1) (PivotedFactors.eliminate
      (if decide (Scalar.abs (lu.get k k) < floor) then
        Mat.ofFn fun i j => if i = k ∧ j = k then floor else lu.get i j else lu) k) := by
  have hfinite : (Scalar.abs (lu.get k k)).isFinite = true :=
    (isFinite_abs_iff _).trans (h.entries k k fun _ => le_rfl).isFinite
  have hcompare : Scalar.abs (lu.get k k) < floor ↔ |toReal (lu.get k k)| < toReal floor := by
    rw [lt_iff_toReal hfinite hfloorLe.isFinite, ← toReal_abs]
    rfl
  split
  · rename_i hsmall
    have hbelow := hcompare.mp (of_decide_eq_true hsmall)
    have hlifted := h.lift hfloorLe
    set lifted : Mat n n Float :=
      Mat.ofFn fun i j => if i = k ∧ j = k then floor else lu.get i j with hdef
    have hpivot : lifted.get k k = floor := by
      rw [hdef, Mat.get_ofFn, if_pos ⟨hk, hk⟩, if_pos ⟨rfl, rfl⟩]
    have hother (i j : Nat) (hi : k ≤ i) (hj : k ≤ j) (hij : ¬(i = k ∧ j = k)) :
        |toReal (lifted.get i j)| ≤ |toReal (lifted.get k k)| := by
      rw [hpivot, abs_of_pos hfloor, hdef, Mat.get_ofFn, if_neg hij]
      split
      · exact (hmax i j hi hj).trans hbelow.le
      · exact (within_zero hfloor.le).abs_le
    exact hlifted.eliminate hfloor hk (by rw [hpivot]; exact le_abs_self _)
      (fun j hj => hother k j le_rfl hj.le (by omega))
      (fun i hi => hother i k hi.le le_rfl (by omega)) hlow hhigh
  · rename_i hlarge
    have habove := not_lt.mp (mt hcompare.mpr fun hlt => hlarge (decide_eq_true hlt))
    exact h.eliminate hfloor hk habove (fun j hj => hmax k j le_rfl hj.le)
      (fun i hi => hmax i k hi.le le_rfl) hlow hhigh

/-- One step of the factorization. -/
theorem Eliminated.step {floor : Float} {st : PivotedFactors n Float}
    (h : Eliminated (toReal floor) e k st.lu) (hfloor : 0 < toReal floor)
    (hfloorLe : Within (2 ^ e) floor) (hk : k < n) (hlow : -1074 ≤ e) (hhigh : e + 1 < 1024) :
    Eliminated (toReal floor) (e + 1) (k + 1) (st.step floor k).lu := by
  have hremaining (i j : Nat) (_ : k ≤ i) (hj : k ≤ j) : (st.lu.get i j).isFinite = true :=
    (h.entries i j fun hlt => absurd hlt (Nat.not_lt.mpr hj)).isFinite
  obtain ⟨hr, hc⟩ := largestFrom_bounds st.lu hk
  have hexchanged := h.exchange hk hr hc
  refine hexchanged.finish (fun i j hi hj => ?_) hfloor hfloorLe hk hlow hhigh
  have hpivot : (PivotedFactors.exchange st.lu k (largestFrom st.lu k).row
      (largestFrom st.lu k).col).get k k =
        st.lu.get (largestFrom st.lu k).row (largestFrom st.lu k).col := by
    rw [get_exchange _ _ _ _ hk hk, transposed, if_pos rfl, transposed, if_pos rfl]
  by_cases hin : i < n ∧ j < n
  · rw [hpivot, get_exchange _ _ _ _ hin.1 hin.2]
    exact largestFrom_largest hremaining
      ⟨(le_transposed_iff hr.1).mpr hi, transposed_lt hk hr.2 hin.1⟩
      ⟨(le_transposed_iff hc.1).mpr hj, transposed_lt hk hc.2 hin.2⟩
  · rw [PivotedFactors.exchange, Mat.get_ofFn, if_neg hin]
    exact (within_zero (abs_nonneg _)).abs_le

/-- The factorization of a bounded matrix. -/
theorem eliminated_ofMat {a : Mat n n Float} (ha : a.Bounded e) (hfloor : 0 < toReal (pivotFloor a))
    (hfloorLe : Within (2 ^ e) (pivotFloor a)) (hlow : -1074 ≤ e) (hhigh : e + n < 1024) :
    Eliminated (toReal (pivotFloor a)) (e + n) n (ofMat a).lu := by
  have hrun (k : Nat) (hk : k ≤ n) : Eliminated (toReal (pivotFloor a)) (e + k) k
      ((List.range k).foldl (PivotedFactors.step (pivotFloor a))
        { lu := a, rowOrder := id, colOrder := id, perturbed := false }).lu := by
    induction k with
    | zero =>
      refine ⟨fun i j _ => (ha i j).mono_two_zpow (by omega), ?_, ?_, ?_⟩ <;>
        exact fun t ht => absurd ht t.not_lt_zero
    | succ k ih =>
      rw [List.range_succ, List.foldl_append, List.foldl_cons, List.foldl_nil, Nat.cast_succ,
        ← add_assoc]
      exact (ih (by omega)).step hfloor (hfloorLe.mono_two_zpow (by omega)) hk (by omega) (by omega)
  exact hrun n le_rfl

/-- The floor lies between the largest coefficient and its last place. -/
theorem pivotFloor_bounds {a : Mat n n Float} (ha : ∀ i j, (a.get i j).isFinite = true) {d : ℤ}
    (hlow : 2 ^ d ≤ toReal a.supNorm) (hhigh : toReal a.supNorm < 2 ^ (d + 1)) (hd : -900 ≤ d)
    (hd' : d < 1000) :
    Within (2 ^ (d + 1)) (pivotFloor a) ∧ 2 ^ (d - 52) ≤ toReal (pivotFloor a) := by
  have hsup := (Mat.toReal_supNorm (e := 0) ha).1
  have hrounded := isRounded_mul epsilon_eq.1 hsup
  have hpos : 0 < toReal a.supNorm := lt_of_lt_of_le (by positivity) hlow
  have hproduct : Within (2 ^ (d + 1)) (epsilon * a.supNorm) := by
    refine hrounded.within (onGrid_two_zpow (by omega)) ?_
      (zpow_lt_zpow_right₀ one_lt_two (by omega))
    rw [epsilon_eq.2, abs_mul, abs_of_pos (by positivity), abs_of_pos hpos]
    calc (2 : ℝ) ^ (-52 : ℤ) * toReal a.supNorm ≤ 1 * toReal a.supNorm := by
          gcongr
          exact zpow_le_one_of_nonpos₀ one_le_two (by norm_num)
      _ ≤ 2 ^ (d + 1) := by rw [one_mul]; exact hhigh.le
  have hsafe := safeMin_eq
  have hmax : toReal (pivotFloor a) = max (toReal (epsilon * a.supNorm)) (toReal safeMin) :=
    toReal_maxNum hproduct.isFinite hsafe.1
  have hplace : (2 : ℝ) ^ (d - 52) ≤ toReal (epsilon * a.supNorm) := by
    refine hrounded.ge hproduct.isFinite _ (onGrid_two_zpow (by omega)) ?_
    rw [epsilon_eq.2, show d - 52 = -52 + d by ring, zpow_add₀ two_ne_zero]
    gcongr
  have hlarge : (2 : ℝ) ^ (d - 52) ≤ toReal (pivotFloor a) := hmax ▸ hplace.trans (le_max_left _ _)
  refine ⟨⟨isFinite_maxNum hproduct.isFinite hsafe.1, ?_⟩, hlarge⟩
  rw [abs_of_pos (lt_of_lt_of_le (by positivity) hlarge), hmax, hsafe.2]
  exact max_le ((le_abs_self _).trans hproduct.abs_le) (zpow_le_zpow_right₀ one_le_two (by omega))

end Elimination

end PivotedFactors

end SchurForm
