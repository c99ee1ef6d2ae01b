import SchurForm.Proofs.BoundedMatrices
import SchurForm.Reflection

/-!
# Completions of bounded columns

The length of a reflection is computed from raw squares, so a large column makes it overflow. While
it does not, a column with an entry one below its diagonal has a length of at least one, the vector
and the factor of the reflection balance each other, and the reflection raises bounds by a fixed
power of two, however large the column is. The columns that span the subspace of a block end with
an identity matrix, and a reflection leaves the rows of the later columns there alone.
-/

namespace SchurForm

open Scalar Binary64

variable [Angles] {k m p q : Nat} {e x : ℤ}

namespace Binary64

/-- A sum over some of the rows of a small matrix. -/
theorem within_sumRange {f : Nat → Float} {col : Nat} (hm : m ≤ 4)
    (hf : ∀ r, col ≤ r → r < m → Within (2 ^ e) (f r)) (hlow : -1074 ≤ e) (hhigh : e + 4 < 1024) :
    Within (2 ^ (e + 4)) (sumRange col m f) :=
  (within_sumTo_two_zpow (fun r hr => hf (col + r) (by omega) (by omega)) hlow
    (by omega)).mono_two_zpow (by omega)

/-- A finite sum over some of the rows of numbers that are not negative is at least each of them. -/
theorem le_sumRange {f : Nat → Float} {col : Nat} (h : (sumRange col m f).isFinite = true)
    (hf : ∀ r, col ≤ r → r < m → 0 ≤ toReal (f r)) :
    0 ≤ toReal (sumRange col m f) ∧
      ∀ r, col ≤ r → r < m → toReal (f r) ≤ toReal (sumRange col m f) := by
  obtain ⟨hnonneg, hterms⟩ := le_sumTo h fun i hi => hf (col + i) (by omega) (by omega)
  refine ⟨hnonneg, fun r hr hm => ?_⟩
  have hterm := hterms (r - col) (by omega)
  rwa [Nat.add_sub_cancel' hr] at hterm

end Binary64

namespace Reflection

variable {h : Reflection m Float} {l : ℤ} {col : Nat}

/-- The vector and the factor of a reflection balance each other. -/
structure Balanced (l : ℤ) (h : Reflection m Float) : Prop where
  nonneg : 0 ≤ l
  le : l ≤ 503
  w : h.w.Bounded (l + 1)
  factor : Within (2 ^ (1 - 2 * l)) h.factor

section Balanced

variable (hh : h.Balanced l) (hm : m ≤ 4) (he : 0 ≤ e) (he' : e ≤ 498)
include hh he he'

/-- What a reflection subtracts from an entry, given the inner product with its vector. -/
theorem Balanced.within_term {dot : Float} (r : Nat) (hdot : Within (2 ^ (l + 1 + e + 4)) dot) :
    Within (2 ^ (e + 7)) (h.factor * dot * h.w.get r) := by
  obtain ⟨hl, hl', hw, hfactor⟩ := hh
  have hscaled := hfactor.mul_two_zpow hdot (by omega) (by omega)
  exact (hscaled.mul_two_zpow (hw r) (by omega) (by omega)).mono_two_zpow (by omega)

include hm

/-- The inner product of a column with the vector of a reflection. -/
theorem Balanced.within_dot (col : Nat) {f : Nat → Float} (hf : ∀ r, Within (2 ^ e) (f r)) :
    Within (2 ^ (l + 1 + e + 4)) (sumRange col m fun r => h.w.get r * f r) ∧
      Within (2 ^ (l + 1 + e + 4)) (sumRange col m fun r => f r * h.w.get r) := by
  obtain ⟨hl, hl', hw, -⟩ := hh
  constructor <;> refine within_sumRange hm (fun r _ _ => ?_) (by omega) (by omega)
  · exact (hw r).mul_two_zpow (hf r) (by omega) (by omega)
  · exact ((hf r).mul_two_zpow (hw r) (by omega) (by omega)).mono_two_zpow (by omega)

/-- Reflecting columns raises their bound by a fixed power. -/
theorem Balanced.reflectColumns {a : Mat m k Float} (ha : a.Bounded e) :
    (h.reflectColumns col a).Bounded (e + 8) := by
  refine Mat.bounded_ofFn fun r _ j hj => ?_
  split
  · rw [Vec.get_ofFn, if_pos hj, show e + 8 = e + 7 + 1 by ring]
    have hterm := hh.within_term he he' r (hh.within_dot hm he he' col fun r => ha r j).1
    exact ((ha r j).mono_two_zpow (by omega)).sub_two_zpow hterm (by omega) (by omega)
  · exact (ha r j).mono_two_zpow (by omega)

/-- Reflecting the rows of a square matrix raises their bound by a fixed power. -/
theorem Balanced.reflectRows {u : Mat m m Float} (hu : u.Bounded e) :
    (h.reflectRows col u).Bounded (e + 8) := by
  refine Mat.bounded_ofFn fun i hi r _ => ?_
  split
  · rw [Vec.get_ofFn, if_pos hi, show e + 8 = e + 7 + 1 by ring]
    have hterm := hh.within_term he he' r (hh.within_dot hm he he' col fun r => hu i r).2
    exact ((hu i r).mono_two_zpow (by omega)).sub_two_zpow hterm (by omega) (by omega)
  · exact (hu i r).mono_two_zpow (by omega)

/-- A row where the vector is zero is left alone. -/
theorem Balanced.toReal_reflectColumns {a : Mat m k Float} (ha : a.Bounded e) {r : Nat}
    (hr : toReal (h.w.get r) = 0) (j : Nat) :
    toReal ((h.reflectColumns col a).get r j) = toReal (a.get r j) := by
  rw [Reflection.reflectColumns, Mat.get_ofFn]
  split
  · rename_i hin
    split
    · rw [Vec.get_ofFn, if_pos hin.2]
      have hterm := hh.within_term he he' r (hh.within_dot hm he he' col fun r => ha r j).1
      have hzero : toReal (h.factor * (sumRange col m fun r => h.w.get r * a.get r j) *
          h.w.get r) = 0 := toReal_mul_of_eq_zero hterm.isFinite hr
      have hrounded := isRounded_sub (ha r j).isFinite hterm.isFinite
      rw [hzero, sub_zero] at hrounded
      have hkept := hrounded.finite _ (onGrid_toReal (a.get r j)).abs le_rfl
        ((ha r j).abs_le.trans_lt (zpow_lt_zpow_right₀ one_lt_two (by omega)))
      exact hrounded.toReal_eq hkept (onGrid_toReal _)
    · rfl
  · rename_i hout
    rcases Nat.lt_or_ge r m with hi | hi
    · rw [a.get_of_cols_le r (by omega)]
    · rw [a.get_of_rows_le hi]

end Balanced

/-- The length of a column from the diagonal on. -/
def columnNorm (a : Mat m k Float) (col : Nat) : Float :=
  sqrt (sumRange col m fun r => a.get r col * a.get r col)

/-- The vector of a reflection: a column from the diagonal on, with its first entry moved away from
zero by the length of the column. -/
def movedColumn (a : Mat m k Float) (col : Nat) : Vec m Float :=
  let alpha := if 0 ≤ a.get col col then -columnNorm a col else columnNorm a col
  Vec.ofFn fun r => if r < col then 0 else if r = col then a.get col col - alpha else a.get r col

/-- The sum of the squares of a vector from row `col` on. -/
def lengthSq (w : Vec m Float) (col : Nat) : Float :=
  sumRange col m fun r => w.get r * w.get r

/-- The reflection of a column, if there is one. -/
theorem eq_of_ofColumn? {a : Mat m k Float} (hsome : ofColumn? a col = some h) :
    h = ⟨movedColumn a col, two / lengthSq (movedColumn a col) col⟩ := by
  rw [show ofColumn? a col = if columnNorm a col == 0 then none
    else if lengthSq (movedColumn a col) col == 0 then none
    else some ⟨movedColumn a col, two / lengthSq (movedColumn a col) col⟩ from rfl] at hsome
  split_ifs at hsome
  exact (Option.some.inj hsome).symm

section Column

variable {a : Mat m k Float} (ha : a.Bounded e) (hm : m ≤ 4) (he : 0 ≤ e) (he' : e ≤ 498)
include ha hm he he'

/-- The length of a bounded column. -/
theorem within_columnNorm (col : Nat) : Within (2 ^ (e + 2)) (columnNorm a col) := by
  have hsquare (r : Nat) := (ha r col).mul_two_zpow (ha r col) (by omega) (by omega)
  have hsum : Within (2 ^ (2 * (e + 2))) (sumRange col m fun r => a.get r col * a.get r col) := by
    rw [show 2 * (e + 2) = e + e + 4 by ring]
    exact within_sumRange hm (fun r _ _ => hsquare r) (by omega) (by omega)
  have hnonneg := (le_sumRange hsum.isFinite fun r _ _ => square_nonneg (hsquare r).isFinite).1
  exact hsum.sqrt_two_zpow hnonneg (by omega) (by omega)

/-- The vector of the reflection of a bounded column. -/
theorem movedColumn_bounded (col : Nat) : (movedColumn a col).Bounded (e + 3) := by
  have hnorm := within_columnNorm ha hm he he' col
  refine Vec.bounded_ofFn fun r _ => ?_
  split
  · exact within_zero_two_zpow _
  split
  · rw [show e + 3 = e + 2 + 1 by ring]
    refine ((ha col col).mono_two_zpow (by omega)).sub_two_zpow ?_ (by omega) (by omega)
    split
    · exact hnorm.neg
    · exact hnorm
  · exact (ha r col).mono_two_zpow (by omega)

omit ha hm he he' in
/-- Below the diagonal the vector is the column. -/
theorem get_movedColumn {col r : Nat} (hr : col < r) :
    (movedColumn a col).get r = a.get r col := by
  rw [movedColumn, Vec.get_ofFn]
  split
  · rw [if_neg (by omega), if_neg (by omega)]
  · rw [a.get_of_rows_le (by omega)]

/-- The length of the vector of a column with an entry one below the diagonal: it is at least one,
does not overflow, and bounds the squares of the entries. -/
theorem lengthSq_movedColumn {row : Nat} (hrow : col < row ∧ row < m)
    (hone : toReal (a.get row col) = 1) :
    Within (2 ^ (2 * e + 10)) (lengthSq (movedColumn a col) col) ∧
      1 ≤ toReal (lengthSq (movedColumn a col) col) ∧
      ∀ (r : Nat) (l : ℤ), 0 ≤ l → toReal (lengthSq (movedColumn a col) col) < 2 ^ (2 * l + 2) →
        |toReal ((movedColumn a col).get r)| ≤ 2 ^ (l + 1) := by
  have hw := movedColumn_bounded ha hm he he' col
  set w := movedColumn a col with hwdef
  have hsquare (r : Nat) : Within (2 ^ (e + 3 + (e + 3))) (w.get r * w.get r) :=
    (hw r).mul_two_zpow (hw r) (by omega) (by omega)
  have hlength : Within (2 ^ (e + 3 + (e + 3) + 4)) (lengthSq w col) :=
    within_sumRange hm (fun r _ _ => hsquare r) (by omega) (by omega)
  obtain ⟨-, hterms⟩ := le_sumRange hlength.isFinite
    fun r _ _ => square_nonneg (hsquare r).isFinite
  have hterm {r : Nat} (hr : col ≤ r) (hr' : r < m) {g : ℝ} (hg : OnGrid g)
      (hle : g ≤ toReal (w.get r) * toReal (w.get r)) : g ≤ toReal (lengthSq w col) :=
    ((isRounded_mul (hw r).isFinite (hw r).isFinite).ge (hsquare r).isFinite g hg hle).trans
      (hterms r hr hr')
  refine ⟨hlength.mono_two_zpow (by omega), ?_, fun r l hl hlt => ?_⟩
  · refine hterm hrow.1.le hrow.2 onGrid_one ?_
    rw [hwdef, get_movedColumn hrow.1, hone, one_mul]
  · have hpos : (0 : ℝ) ≤ 2 ^ (l + 1) := by positivity
    by_cases hin : col ≤ r ∧ r < m
    · by_contra hlarge
      have hsq : (2 : ℝ) ^ (2 * l + 2) ≤ toReal (w.get r) * toReal (w.get r) := by
        rw [← abs_mul_abs_self, show 2 * l + 2 = l + 1 + (l + 1) by ring, zpow_add₀ two_ne_zero]
        exact mul_le_mul (not_le.mp hlarge).le (not_le.mp hlarge).le (by positivity) (abs_nonneg _)
      exact hlt.not_ge (hterm hin.1 hin.2 (onGrid_two_zpow (by omega)) hsq)
    · have hzero : w.get r = 0 := by
        rw [hwdef, movedColumn, Vec.get_ofFn]
        split
        · rw [if_pos (by omega)]
        · rfl
      rw [hzero]
      exact abs_zero.trans_le hpos

/-- The reflection of a bounded column with an entry one below the diagonal. A power of four next to
its length measures both the vector and the factor. -/
theorem balanced_of_ofColumn? {row : Nat} (hrow : col < row ∧ row < m)
    (hone : toReal (a.get row col) = 1) (hsome : ofColumn? a col = some h) :
    (∃ l, h.Balanced l) ∧ ∀ r, col < r → h.w.get r = a.get r col := by
  obtain rfl := eq_of_ofColumn? hsome
  obtain ⟨hlength, hge, hentry⟩ := lengthSq_movedColumn ha hm he he' hrow hone
  refine ⟨?_, fun r hr => get_movedColumn hr⟩
  obtain ⟨n, hn, hn'⟩ := exists_mem_Ico_zpow (one_pos.trans_le hge) one_lt_two
  have hnonneg : 0 < n + 1 := (one_lt_zpow_iff_right₀ one_lt_two).mp (hge.trans_lt hn')
  have hle : n ≤ 2 * e + 10 := (zpow_le_zpow_iff_right₀ one_lt_two).mp
    (hn.trans ((le_abs_self _).trans hlength.abs_le))
  refine ⟨n / 2, by omega, by omega, fun r => ?_, ?_⟩
  · refine ⟨(movedColumn_bounded ha hm he he' col r).isFinite, ?_⟩
    refine hentry r (n / 2) (by omega) (hn'.trans_le ?_)
    exact zpow_le_zpow_right₀ one_le_two (by omega)
  · refine within_two.div_two_zpow hlength.isFinite (hn.trans' ?_) (by omega) (by omega)
    exact zpow_le_zpow_right₀ one_le_two (by omega)

end Column

end Reflection

namespace Completion

variable {st : Completion (p + q) q Float} {c : Nat}

/-- A matrix that ends with an identity matrix, as far as its columns from `c` on are concerned. -/
def EndsWithIdentity (p q c : Nat) (a : Mat (p + q) q Float) : Prop :=
  ∀ j, c ≤ j → j < q → ∀ i < q, toReal (a.get (p + j) i) = if i = j then 1 else 0

/-- Treating a column. -/
theorem step_bounded (hp : 1 ≤ p) (hm : p + q ≤ 4) (hc : c < q) (he : 0 ≤ e) (he' : e ≤ 498)
    (ha : st.a.Bounded e) (hu : st.u.Bounded (8 * c)) (hid : EndsWithIdentity p q c st.a) :
    (st.step c).a.Bounded (e + 8) ∧ (st.step c).u.Bounded (8 * (c + 1)) ∧
      EndsWithIdentity p q (c + 1) (st.step c).a := by
  have hlater : EndsWithIdentity p q (c + 1) st.a := fun j hj => hid j (by omega)
  rw [step]
  cases hreflection : Reflection.ofColumn? st.a c with
  | none => exact ⟨ha.mono (by omega), hu.mono (by omega), hlater⟩
  | some h =>
    obtain ⟨⟨l, hbalanced⟩, hw⟩ := Reflection.balanced_of_ofColumn? ha hm he he'
      (show c < p + c ∧ p + c < p + q by omega) (by rw [hid c le_rfl hc c hc, if_pos rfl])
      hreflection
    refine ⟨hbalanced.reflectColumns hm he he' ha, ?_, fun j hj hj' i hi => ?_⟩
    · rw [mul_add, mul_one]
      exact hbalanced.reflectRows hm (by omega) (by omega) hu
    · -- the row of a later column has a zero in this one
      have hzero : toReal (h.w.get (p + j)) = 0 := by
        rw [hw (p + j) (by omega), hid j (by omega) hj' c hc, if_neg (by omega)]
      rw [hbalanced.toReal_reflectColumns hm he he' ha hzero]
      exact hlater j hj hj' i hi

end Completion

/-- The columns that span the subspace of the lower block, unless the solution was scaled down. -/
theorem subspaceBasis_bounded {v : Mat p q Float} (hv : v.Bounded e) (he : 0 ≤ e) :
    (subspaceBasis v 1).Bounded e ∧ Completion.EndsWithIdentity p q 0 (subspaceBasis v 1) := by
  constructor
  · refine Mat.bounded_ofFn fun i _ j _ => ?_
    split_ifs
    · exact (hv i j).neg
    · exact within_one_two_zpow he
    · exact within_zero_two_zpow e
  · intro j _ hj i hi
    rw [subspaceBasis, Mat.get_ofFn, if_pos ⟨by omega, hi⟩, if_neg (by omega),
      Nat.add_sub_cancel_left, apply_ite toReal, toReal_one]
    exact if_congr eq_comm rfl toReal_zero

/-- The completion of bounded columns that end with an identity matrix does not grow with them. -/
theorem completeBasis_bounded {v : Mat (p + q) q Float} (hp : 1 ≤ p) (hq : q ≤ 2) (hm : p + q ≤ 4)
    (hx : 0 ≤ x) (hx' : x ≤ 490) (hv : v.Bounded x) (hid : Completion.EndsWithIdentity p q 0 v) :
    (completeBasis v).Bounded 16 := by
  have hrun (c : Nat) (hc : c ≤ q) :
      let st := (List.range c).foldl Completion.step ⟨v, Mat.identity⟩
      st.a.Bounded (x + 8 * c) ∧ st.u.Bounded (8 * c) ∧ Completion.EndsWithIdentity p q c st.a := by
    induction c with
    | zero => exact ⟨hv.mono (by omega), Mat.identity_bounded (by omega), hid⟩
    | succ c ih =>
      obtain ⟨ha, hu, hrest⟩ := ih (by omega)
      rw [List.range_succ, List.foldl_append, List.foldl_cons, List.foldl_nil]
      have hnext := Completion.step_bounded hp hm (by omega) (by omega) (by omega) ha hu hrest
      push_cast
      rw [show x + 8 * ((c : ℤ) + 1) = x + 8 * c + 8 by ring]
      exact hnext
  rw [completeBasis, Nat.min_eq_left (Nat.le_add_left q p)]
  exact (hrun q le_rfl).2.1.mono (by omega)

end SchurForm
