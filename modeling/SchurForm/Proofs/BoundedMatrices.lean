import SchurForm.Exchange
import SchurForm.GivensRotation
import SchurForm.Proofs.BoundedArithmetic

/-!
# Matrices of bounded numbers

A matrix is bounded by a power of two if all of its entries are finite numbers of at most that
magnitude. Every operation that the exchanges use raises the exponent of the bound by a fixed
amount, and keeps the entries finite as long as the raised bound is in the range. The bound of a
product holds for all orders in which its sums can be taken.
-/

namespace SchurForm

open Scalar Binary64

variable [Angles] {m n k : Nat} {e e' g : ℤ}

/-- Every entry is a finite number of magnitude at most `2 ^ e`. -/
def Mat.Bounded (e : ℤ) (a : Mat m n Float) : Prop :=
  ∀ i j, Within (two ^ e) (a.get i j)

/-- Every entry is a finite number of magnitude at most `2 ^ e`. -/
def Vec.Bounded (e : ℤ) (v : Vec n Float) : Prop :=
  ∀ i, Within (two ^ e) (v.get i)

/-- Both entries are finite numbers of magnitude at most `2 ^ g`. -/
structure GivensRotation.Bounded (g : ℤ) (rot : GivensRotation Float) : Prop where
  c : Within (2 ^ g) rot.c
  s : Within (2 ^ g) rot.s

namespace Mat

variable {a : Mat m n Float}

/-- A larger bound holds as well. -/
theorem Bounded.mono (ha : a.Bounded e) (he : e ≤ e') : a.Bounded e' :=
  fun i j => (ha i j).mono_two_zpow he

/-- Only the positions inside a matrix have to be bounded. -/
theorem bounded_ofFn {f : Nat → Nat → Float} (hf : ∀ i < m, ∀ j < n, Within (2 ^ e) (f i j)) :
    (ofFn f : Mat m n Float).Bounded e := by
  intro i j
  rw [get_ofFn]
  split
  · rename_i h
    exact hf i h.1 j h.2
  · exact within_zero_two_zpow e

/-- The largest magnitude of finite entries is their least bound. -/
theorem toReal_supNorm (ha : ∀ i j, (a.get i j).isFinite = true) :
    a.supNorm.isFinite = true ∧ (∀ i j, |toReal (a.get i j)| ≤ toReal a.supNorm) ∧
      (a.Bounded e → toReal a.supNorm ≤ 2 ^ e) := by
  let row (i : Nat) : Float := maxTo n fun j => Scalar.abs (a.get i j)
  have hentry (i j : Nat) : (Scalar.abs (a.get i j)).isFinite = true ∧
      toReal (Scalar.abs (a.get i j)) = |toReal (a.get i j)| :=
    ⟨(isFinite_abs_iff _).trans (ha i j), toReal_abs _⟩
  have hrow (i : Nat) : (row i).isFinite = true := isFinite_maxTo fun j _ => (hentry i j).1
  have hrowMax (i : Nat) := toReal_maxTo (n := n) fun j _ => (hentry i j).1
  have hmax : (∀ i < m, toReal (row i) ≤ toReal a.supNorm) ∧
      (toReal a.supNorm = 0 ∨ ∃ i < m, toReal (row i) = toReal a.supNorm) :=
    toReal_maxTo fun i _ => hrow i
  have hinside (i : Nat) (hi : i < m) (j : Nat) (hj : j < n) :
      |toReal (a.get i j)| ≤ toReal a.supNorm :=
    (hentry i j).2.ge.trans (((hrowMax i).1 j hj).trans (hmax.1 i hi))
  have hnonneg : 0 ≤ toReal a.supNorm := by
    rcases hmax.2 with hzero | ⟨i, hi, heq⟩
    · exact hzero.ge
    · rcases (hrowMax i).2 with hzero | ⟨j, hj, -⟩
      · exact (heq.symm.trans hzero).ge
      · exact (abs_nonneg _).trans (hinside i hi j hj)
  refine ⟨isFinite_maxTo fun i _ => hrow i, fun i j => ?_, fun hbounded => ?_⟩
  · by_cases hi : i < m
    · by_cases hj : j < n
      · exact hinside i hi j hj
      · rw [a.get_of_cols_le i (Nat.le_of_not_lt hj)]
        exact (within_zero hnonneg).abs_le
    · rw [a.get_of_rows_le (Nat.le_of_not_lt hi) j]
      exact (within_zero hnonneg).abs_le
  · have hpos : (0 : ℝ) ≤ 2 ^ e := by positivity
    rcases hmax.2 with hzero | ⟨i, -, heq⟩
    · exact hzero.trans_le hpos
    · rcases (hrowMax i).2 with hzero | ⟨j, -, heq'⟩
      · exact (heq.symm.trans hzero).trans_le hpos
      · rw [← heq, ← show _ = toReal (row i) from heq', (hentry i j).2]
        exact (hbounded i j).abs_le

end Mat

namespace Vec

variable {v : Vec n Float}

/-- A larger bound holds as well. -/
theorem Bounded.mono (hv : v.Bounded e) (he : e ≤ e') : v.Bounded e' :=
  fun i => (hv i).mono_two_zpow he

/-- Only the places inside a vector have to be bounded. -/
theorem bounded_ofFn {f : Nat → Float} (hf : ∀ i < n, Within (2 ^ e) (f i)) :
    (ofFn f : Vec n Float).Bounded e := by
  intro i
  rw [get_ofFn]
  split
  · exact hf i ‹_›
  · exact within_zero_two_zpow e

/-- The largest magnitude of a bounded vector is within its bound. -/
theorem within_supNorm (hv : v.Bounded e) : Within (2 ^ e) v.supNorm := by
  have hentry (i : Nat) : (Scalar.abs (v.get i)).isFinite = true ∧
      toReal (Scalar.abs (v.get i)) = |toReal (v.get i)| :=
    ⟨(isFinite_abs_iff _).trans (hv i).isFinite, toReal_abs _⟩
  refine ⟨isFinite_maxTo fun i _ => (hentry i).1, ?_⟩
  have hmax := (toReal_maxTo (n := n) fun i _ => (hentry i).1).2
  have hpos : (0 : ℝ) ≤ 2 ^ e := by positivity
  change |toReal (maxTo n fun i => Scalar.abs (v.get i))| ≤ 2 ^ e
  rcases hmax with hzero | ⟨i, -, heq⟩
  · rw [hzero, abs_zero]
    exact hpos
  · rw [← heq, (hentry i).2, abs_abs]
    exact (hv i).abs_le

end Vec

namespace Mat

variable {a : Mat m n Float}

/-- All entries are finite numbers. -/
def IsFinite (a : Mat m n Float) : Prop :=
  ∀ i < m, ∀ j < n, (a.get i j).isFinite = true

instance (a : Mat m n Float) : Decidable a.IsFinite :=
  inferInstanceAs (Decidable (∀ i < m, ∀ j < n, (a.get i j).isFinite = true))

/-- Bounded numbers are finite. -/
theorem Bounded.isFinite (ha : a.Bounded e) : a.IsFinite :=
  fun i _ j _ => (ha i j).isFinite

/-- The entries of the identity are zeros and ones. -/
theorem identity_bounded (he : 0 ≤ e) : (identity : Mat n n Float).Bounded e := by
  refine bounded_ofFn fun i _ j _ => ?_
  split
  · exact within_one_two_zpow he
  · exact within_zero_two_zpow e

/-- Transposing keeps the bound. -/
theorem Bounded.transpose (ha : a.Bounded e) : a.transpose.Bounded e :=
  bounded_ofFn fun i _ j _ => ha j i

/-- A block of a matrix keeps its bound. -/
theorem Bounded.block (ha : a.Bounded e) (i j : Nat) {r c : Nat} :
    (a.block i j : Mat r c Float).Bounded e :=
  bounded_ofFn fun r _ c _ => ha (i + r) (j + c)

/-- Setting entries to zero keeps the bound. -/
theorem Bounded.clear (ha : a.Bounded e) (i k j l : Nat) : (a.clear i k j l).Bounded e := by
  refine bounded_ofFn fun r _ c _ => ?_
  split
  · exact within_zero_two_zpow e
  · exact ha r c

/-- A product is bounded in whatever order the sums of its entries are taken. -/
theorem bounded_of_sumOf {a : Mat m k Float} {b : Mat k n Float} {c : Mat m n Float}
    (ha : a.Bounded e) (hb : b.Bounded e')
    (hc : ∀ i < m, ∀ j < n, SumOf (fun r => a.get i r * b.get r j) (Finset.range k) (c.get i j))
    (hlow : -1074 ≤ e + e') (hhigh : e + e' + k < 1024) : c.Bounded (e + e' + k) := by
  intro i j
  by_cases hin : i < m ∧ j < n
  · have hsum := (hc i hin.1 j hin.2).within_two_zpow
      (fun r _ => (ha i r).mul_two_zpow (hb r j) hlow (by omega)) hlow
      (by rw [Finset.card_range]; exact hhigh)
    rwa [Finset.card_range] at hsum
  · rcases Nat.lt_or_ge i m with hi | hi
    · rw [get_of_cols_le c i (by omega)]
      exact within_zero_two_zpow _
    · rw [get_of_rows_le c hi]
      exact within_zero_two_zpow _

/-- A product raises the sum of the exponents by the number of terms of its sums. -/
theorem Bounded.mul {a : Mat m k Float} {b : Mat k n Float} (ha : a.Bounded e) (hb : b.Bounded e')
    (hlow : -1074 ≤ e + e') (hhigh : e + e' + k < 1024) : (a.mul b).Bounded (e + e' + k) := by
  refine bounded_of_sumOf ha hb (fun i hi j hj => ?_) hlow hhigh
  rw [Mat.mul, get_ofFn, if_pos ⟨hi, hj⟩]
  exact sumOf_sumTo _ k

variable {rot : GivensRotation Float}

/-- Rotating two rows adds the bounds and doubles the result. -/
theorem Bounded.rotateRows (ha : a.Bounded e) (hrot : rot.Bounded g) (hg : 0 ≤ g)
    (hlow : -1074 ≤ g + e) (hhigh : g + e + 1 < 1024) (i l : Nat) :
    (rot.rotateRows i l a).Bounded (g + e + 1) := by
  refine bounded_ofFn fun r _ j _ => ?_
  split_ifs
  · exact (within_turn hrot.c hrot.s (ha _ _) (ha _ _) hlow hhigh).2
  · exact (within_turn hrot.c hrot.s (ha _ _) (ha _ _) hlow hhigh).1
  · exact (ha r j).mono_two_zpow (by omega)

/-- Rotating two columns adds the bounds and doubles the result. -/
theorem Bounded.rotateColumns (ha : a.Bounded e) (hrot : rot.Bounded g) (hg : 0 ≤ g)
    (hlow : -1074 ≤ g + e) (hhigh : g + e + 1 < 1024) (i l : Nat) :
    (rot.rotateColumns i l a).Bounded (g + e + 1) := by
  refine bounded_ofFn fun r _ j _ => ?_
  split_ifs
  · exact (within_turn hrot.c hrot.s (ha _ _) (ha _ _) hlow hhigh).2
  · exact (within_turn hrot.c hrot.s (ha _ _) (ha _ _) hlow hhigh).1
  · exact (ha r j).mono_two_zpow (by omega)

/-- A change of basis by bounded factors. -/
theorem Bounded.transformed {u a v : Mat m m Float} (ha : a.Bounded e) (hu : u.Bounded g)
    (hv : v.Bounded g) (hg : 0 ≤ g) (hlow : -1074 ≤ g + e) (hhigh : 2 * g + e + 2 * m < 1024) :
    (transformed u a v).Bounded (2 * g + e + 2 * m) := by
  have hleft := hu.transpose.mul ha hlow (by omega)
  have hboth := hleft.mul hv (by omega) (by omega)
  exact hboth.mono (by omega)

end Mat

end SchurForm
