import Mathlib.LinearAlgebra.Matrix.Determinant.Basic
import Mathlib.LinearAlgebra.Matrix.Notation
import SchurForm.Proofs.PlaneNormalForms

/-!
# The standard form of a block of order two

Every real block of order two is turned by a rotation into its standard form. A block with real
eigenvalues becomes triangular: the rotation takes the first axis onto an eigenvector, which is read
off the block itself or off the block whose diagonal entries have been made equal. Any other block
gets equal diagonal entries and off-diagonal entries of opposite sign, from which its eigenvalue is
read.
-/

namespace SchurForm

open Scalar
open scoped Matrix

namespace GivensRotation

variable {rot next : GivensRotation ℝ} {a b c d a' b' c' d' a'' b'' c'' d'' : ℝ}

/-- One rotation after another. -/
def comp (rot next : GivensRotation ℝ) : GivensRotation ℝ :=
  ⟨rot.c * next.c - rot.s * next.s, rot.c * next.s + rot.s * next.c⟩

/-- One rotation after another is a rotation. -/
theorem IsRotation.comp (h : rot.IsRotation) (hnext : next.IsRotation) :
    (rot.comp next).IsRotation := by
  rw [IsRotation] at *
  simp only [GivensRotation.comp]
  linear_combination (next.c ^ 2 + next.s ^ 2) * h + hnext

/-- A block that is turned twice is turned by both rotations together. -/
theorem turns.comp (h : rot.turns a b c d a' b' c' d')
    (hnext : next.turns a' b' c' d' a'' b'' c'' d'') :
    (rot.comp next).turns a b c d a'' b'' c'' d'' := by
  obtain ⟨rfl, rfl, rfl, rfl⟩ := h
  obtain ⟨rfl, rfl, rfl, rfl⟩ := hnext
  refine ⟨?_, ?_, ?_, ?_⟩
  · simp only [GivensRotation.comp]
    ring
  · simp only [GivensRotation.comp]
    ring
  · simp only [GivensRotation.comp]
    ring
  · simp only [GivensRotation.comp]
    ring

/-- A quarter turn exchanges the two axes. -/
theorem turns_quarterTurn (a b c d : ℝ) :
    (⟨0, 1⟩ : GivensRotation ℝ).turns a b c d d (-c) (-b) a := by
  refine ⟨?_, ?_, ?_, ?_⟩ <;> ring

/-- A rotation that takes the first axis onto an eigenvector makes a block triangular, with the
eigenvalue first. -/
theorem turns_eigenvector (hrot : rot.IsRotation) {x : ℝ}
    (hfirst : a * rot.c + b * rot.s = x * rot.c) (hsecond : c * rot.c + d * rot.s = x * rot.s) :
    rot.turns a b c d x (b - c) 0 (a + d - x) := by
  rw [IsRotation] at hrot
  refine ⟨?_, ?_, ?_, ?_⟩
  · linear_combination (-rot.c) * hfirst - rot.s * hsecond - x * hrot
  · linear_combination rot.s * hfirst - rot.c * hsecond - (b - c) * hrot
  · linear_combination rot.s * hfirst - rot.c * hsecond
  · linear_combination rot.c * hfirst + rot.s * hsecond + (x - (a + d)) * hrot

/-- Turning the block back gives the block from which it came. -/
theorem turns.eq_mul (hrot : rot.IsRotation) (h : rot.turns a b c d a' b' c' d') :
    let r := !![rot.c, -rot.s; rot.s, rot.c]
    !![a, b; c, d] = r * !![a', b'; c', d'] * rᵀ := by
  intro r
  have horth : r * rᵀ = 1 := by
    rw [IsRotation] at hrot
    ext i j
    fin_cases i <;> fin_cases j <;> simp [r, Matrix.mul_apply] <;> linarith
  have hturned : !![a', b'; c', d'] = rᵀ * !![a, b; c, d] * r := by
    obtain ⟨rfl, rfl, rfl, rfl⟩ := h
    ext i j
    fin_cases i <;> fin_cases j <;> simp [r, Matrix.mul_apply] <;> ring
  calc !![a, b; c, d] = r * rᵀ * !![a, b; c, d] * (r * rᵀ) := by
        rw [horth, Matrix.one_mul, Matrix.mul_one]
    _ = r * !![a', b'; c', d'] * rᵀ := by
        rw [hturned]
        simp only [Matrix.mul_assoc]

end GivensRotation

namespace StandardBlock

open GivensRotation

/-- A standardized block comes from the given one by its rotation. -/
def IsTurnOf (e : StandardBlock ℝ) (a b c d : ℝ) : Prop :=
  e.rotation.IsRotation ∧ e.rotation.turns a b c d e.a e.b e.c e.d

variable {a b c d : ℝ}

/-- A root taken with the sign of `p`, added to `p`, is a nonzero root of a shifted quadratic. -/
theorem add_copySign_spec {root : ℝ} (hroot : 0 < root) (p : ℝ) :
    p + copySign root p ≠ 0 ∧
      (p + copySign root p) ^ 2 - 2 * p * (p + copySign root p) = root ^ 2 - p ^ 2 := by
  rw [copySign_real, abs_of_pos hroot]
  split
  · refine ⟨by linarith, ?_⟩
    ring
  · refine ⟨by linarith, ?_⟩
    ring

/-- The quotients by the length of a vector are a rotation. -/
theorem isRotation_div_length {x y : ℝ} (hy : y ≠ 0) :
    (⟨x / √(y ^ 2 + x ^ 2), y / √(y ^ 2 + x ^ 2)⟩ : GivensRotation ℝ).IsRotation := by
  have hpos : 0 < y ^ 2 + x ^ 2 := by positivity
  rw [IsRotation, div_pow, div_pow, Real.sq_sqrt hpos.le, ← add_div, add_comm, div_self hpos.ne']

/-- Splitting a block with two real eigenvalues turns the first axis onto an eigenvector. -/
theorem isTurnOf_splitReal {p scale larger smaller z : ℝ} (hc : c ≠ 0) (hp : p = 1 / 2 * (a - d))
    (hscale : 0 < scale) (hz : 0 < z) (hdisc : z * scale = p ^ 2 + b * c)
    (hproduct : larger * smaller = b * c) :
    (splitReal b c d p scale larger smaller z).IsTurnOf a b c d := by
  set root : ℝ := √scale * √z with hroot
  have hrootSq : root ^ 2 = p ^ 2 + b * c := by
    rw [hroot, mul_pow, Real.sq_sqrt hscale.le, Real.sq_sqrt hz.le, mul_comm, hdisc]
  obtain ⟨hxne, hquadratic⟩ :=
    add_copySign_spec (mul_pos (Real.sqrt_pos.mpr hscale) (Real.sqrt_pos.mpr hz)) p
  rw [← hroot] at hxne hquadratic
  set x : ℝ := p + copySign root p with hx
  rw [hrootSq, hp] at hquadratic
  have hsplit : splitReal b c d p scale larger smaller z =
      { a := d + x, b := b - c, c := 0, d := a + d - (d + x)
        rotation := ⟨x / √(c ^ 2 + x ^ 2), c / √(c ^ 2 + x ^ 2)⟩ } := by
    have hlast : d - larger / x * smaller = a + d - (d + x) := by
      field_simp
      linear_combination hquadratic - hproduct
    rw [← hlast]
    simp only [splitReal, sqrt_real, hypot_real, ← hroot, ← hx]
  rw [hsplit]
  refine ⟨isRotation_div_length hc, turns_eigenvector (isRotation_div_length hc) ?_ ?_⟩
  · rw [← mul_div_assoc, ← mul_div_assoc, ← mul_div_assoc, ← add_div]
    congr 1
    linear_combination -hquadratic
  · rw [← mul_div_assoc, ← mul_div_assoc, ← mul_div_assoc, ← add_div]
    congr 1
    ring

/-- Two numbers of one sign, as the squares of the roots of their magnitudes with that sign. -/
theorem exists_sign_mul_sq {b c : ℝ} (hb : b ≠ 0) (hc : c ≠ 0)
    (hsign : (Scalar.sign b : ℝ) = Scalar.sign c) :
    ∃ sign : ℝ, sign ^ 2 = 1 ∧ b = sign * √|b| ^ 2 ∧ c = sign * √|c| ^ 2 ∧
      copySign (√|b| * √|c|) c = sign * (√|b| * √|c|) ∧ |b + c| = √|b| ^ 2 + √|c| ^ 2 := by
  refine ⟨Scalar.sign c, sign_sq c, ?_, ?_, ?_, ?_⟩
  · rw [Real.sq_sqrt (abs_nonneg b), ← hsign, mul_comm, abs_mul_sign]
  · rw [Real.sq_sqrt (abs_nonneg c), mul_comm, abs_mul_sign]
  · rw [copySign_real, sign_real, abs_of_nonneg (by positivity)]
    split <;> ring
  · have hsame : 0 ≤ b * c := not_lt.mp fun hneg => (sign_ne_sign_iff hb hc).mpr hneg hsign
    rw [Real.sq_sqrt (abs_nonneg b), Real.sq_sqrt (abs_nonneg c), abs_add_eq_add_abs_iff]
    exact mul_nonneg_iff.mp hsame

/-- A block with equal diagonal entries and off-diagonal entries of the same sign is turned onto an
eigenvector by the roots of their magnitudes. -/
theorem turns_sameSign {a b c : ℝ} (hb : b ≠ 0) (hc : c ≠ 0)
    (hsign : (Scalar.sign b : ℝ) = Scalar.sign c) :
    let tau := 1 / √|b + c|
    let rot : GivensRotation ℝ := ⟨√|b| * tau, √|c| * tau⟩
    let x := copySign (√|b| * √|c|) c
    rot.IsRotation ∧ rot.turns a b c a (a + x) (b - c) 0 (a - x) := by
  intro tau rot x
  obtain ⟨sign, hsq, hbsq, hcsq, hx, hsum⟩ := exists_sign_mul_sq hb hc hsign
  have hx : x = sign * (√|b| * √|c|) := hx
  have hpos : 0 < |b + c| := by
    rw [hsum]
    positivity
  have htau : tau ^ 2 * |b + c| = 1 := by
    rw [one_div_pow, Real.sq_sqrt hpos.le, one_div_mul_cancel hpos.ne']
  have hrot : rot.IsRotation := by
    rw [IsRotation, ← htau, hsum]
    ring
  refine ⟨hrot, ?_⟩
  have hturns := turns_eigenvector (a := a) (b := b) (c := c) (d := a) (x := a + x) hrot ?_ ?_
  · rwa [show a + a - (a + x) = a - x by ring] at hturns
  · simp only [rot]
    rw [hx]
    linear_combination (√|c| * tau) * hbsq
  · simp only [rot]
    rw [hx]
    linear_combination (√|b| * tau) * hcsq

/-- A block with equal diagonal entries that is triangular stays so when it is settled; one with a
zero right of the diagonal is turned once more by a quarter turn, and one whose off-diagonal entries
have the same sign onto an eigenvector. -/
theorem IsTurnOf.settle {e : StandardBlock ℝ} (h : e.IsTurnOf a b c d) (hdiag : e.a = e.d) :
    (StandardBlock.settle e).IsTurnOf a b c d := by
  obtain ⟨a', b', c', d', rot⟩ := e
  obtain rfl : a' = d' := hdiag
  obtain ⟨hrot, hturns⟩ := h
  have hmean : half * (a' + a') = a' := by
    rw [half_real]
    ring
  simp only [StandardBlock.settle, hmean, beq_real, decide_eq_true_eq]
  split
  · exact ⟨hrot, hturns⟩
  · split
    · rename_i hb
      have hquarter : (⟨0, 1⟩ : GivensRotation ℝ).IsRotation := by norm_num [IsRotation]
      have hboth := hturns.comp (turns_quarterTurn a' b' c' a')
      have hcomp : rot.comp ⟨0, 1⟩ = ⟨-rot.s, rot.c⟩ := by simp [GivensRotation.comp]
      rw [hcomp, hb, neg_zero] at hboth
      exact ⟨hcomp ▸ hrot.comp hquarter, hboth⟩
    · split
      · rename_i hc hb hsign
        obtain ⟨hnext, hupper⟩ := turns_sameSign (a := a') hb hc hsign
        exact ⟨hrot.comp hnext, hturns.comp hupper⟩
      · exact ⟨hrot, hturns⟩

/-- Standardizing turns every block by a rotation. -/
theorem isTurnOf_standardize (a b c d : ℝ) : (standardize a b c d).IsTurnOf a b c d := by
  have hidentity : IsTurnOf ⟨a, b, c, d, .identity⟩ a b c d := by
    simp [IsTurnOf, IsRotation, turns, GivensRotation.identity]
  by_cases hc : c = 0
  · simpa [standardize, hc] using hidentity
  by_cases hb : b = 0
  · have hquarter := turns_quarterTurn a b c d
    rw [hb, neg_zero] at hquarter
    simpa [standardize, hc, hb, IsTurnOf, IsRotation] using hquarter
  by_cases hequal : a - d = 0 ∧ (Scalar.sign b : ℝ) ≠ Scalar.sign c
  · simpa [standardize, hc, hb, hequal.1, hequal.2] using hidentity
  · rw [standardize_eq hb hc hequal]
    split
    · rename_i hsplit
      obtain ⟨hscale, hdisc⟩ := scaledDiscriminant_mul_scale (1 / 2 * (a - d)) hb c
      exact isTurnOf_splitReal hc rfl hscale ((mul_pos four_pos epsilon_pos).trans_le hsplit) hdisc
        (larger_mul_smaller b c)
    · obtain ⟨hrot, hturns, hdiag⟩ := equalized_turns (not_equalized hb hc hequal)
      exact IsTurnOf.settle ⟨hrot, hturns⟩ hdiag

end StandardBlock

open StandardBlock

/-- A block that holds a pair has the eigenvalue of recognition. -/
theorem StandardBlock.eigenvalue_eq {e : StandardBlock ℝ} (hdiag : e.a = e.d)
    (hneg : e.b * e.c < 0) :
    conjugatePair? (e.a + e.d) (e.a * e.d - e.b * e.c) = some e.eigenvalue := by
  have hc : e.c ≠ 0 := right_ne_zero_of_mul hneg.ne
  have hproduct : |e.b| * |e.c| = -(e.b * e.c) := by
    rw [← abs_mul, abs_of_neg hneg]
  rw [conjugatePair?_eq, if_pos (by rw [← hdiag]; nlinarith)]
  simp only [eigenvalue, beq_real, hc, decide_false, Bool.false_eq_true, if_false, abs_real,
    sqrt_real]
  rw [← Real.sqrt_mul (abs_nonneg _), hproduct, ← hdiag]
  congr 2
  · ring
  · congr 1
    ring

/-- The eigenvalues of a block of order two are a pair exactly if its characteristic polynomial has
no real root. -/
theorem isSome_conjugatePair?_iff (trace det : ℝ) :
    (conjugatePair? trace det).isSome = true ↔ ∀ x : ℝ, x ^ 2 - trace * x + det ≠ 0 := by
  rw [conjugatePair?_eq]
  split
  · rename_i hneg
    refine iff_of_true rfl fun x => ?_
    nlinarith [sq_nonneg (x - trace / 2)]
  · rename_i hnonneg
    refine iff_of_false (by simp) fun hroot => hroot (trace / 2 + √((trace / 2) ^ 2 - det)) ?_
    have hsq : √((trace / 2) ^ 2 - det) ^ 2 = (trace / 2) ^ 2 - det :=
      Real.sq_sqrt (by linarith)
    linear_combination hsq

/-- Either a pair is found, with the eigenvalue that recognition finds, or the new block is
triangular and recognition finds none. -/
theorem standardize_pair_or_triangular (a b c d : ℝ) :
    let e := standardize a b c d
    (e.holdsPair = true ∧ (e.a = e.d ∧ e.b * e.c < 0) ∧
        complexEigenvalue? a b c d = some e.eigenvalue) ∨
      (e.holdsPair = false ∧ e.c = 0 ∧ complexEigenvalue? a b c d = none) := by
  intro e
  rw [complexEigenvalue?_eq]
  rcases standardize_cases a b c d with ⟨⟨hrot, hturns, hdiag, hneg⟩, hpair⟩ | ⟨hreal, hnone⟩
  · left
    refine ⟨hpair, ⟨hdiag, hneg⟩, ?_⟩
    rw [← hturns.trace hrot, ← hturns.det hrot]
    exact eigenvalue_eq hdiag hneg
  · right
    exact ⟨hreal, by simpa [holdsPair] using hreal, hnone⟩

/-- Standardizing is a factorization of any block of order two by a rotation. The new block is
triangular, or its diagonal entries are equal and its off-diagonal entries have opposite sign. The
latter happens exactly for the blocks without a real eigenvalue; these are the blocks in which
recognition finds a pair, and the eigenvalue of the new block is the one it finds. -/
theorem standardize_factorization (a b c d : ℝ) :
    let e := standardize a b c d
    let r := !![e.rotation.c, -e.rotation.s; e.rotation.s, e.rotation.c]
    e.rotation.c ^ 2 + e.rotation.s ^ 2 = 1 ∧
      !![a, b; c, d] = r * !![e.a, e.b; e.c, e.d] * rᵀ ∧
      (e.c = 0 ∨ e.a = e.d ∧ e.b * e.c < 0) ∧
      ((e.a = e.d ∧ e.b * e.c < 0) ↔ (complexEigenvalue? a b c d).isSome = true) ∧
      ((complexEigenvalue? a b c d).isSome = true ↔
        ∀ x : ℝ, (!![a, b; c, d] - x • (1 : Matrix (Fin 2) (Fin 2) ℝ)).det ≠ 0) ∧
      complexEigenvalue? a b c d = if e.holdsPair then some e.eigenvalue else none := by
  intro e r
  obtain ⟨hrot, hturns⟩ := isTurnOf_standardize a b c d
  have hreal : (complexEigenvalue? a b c d).isSome = true ↔
      ∀ x : ℝ, (!![a, b; c, d] - x • (1 : Matrix (Fin 2) (Fin 2) ℝ)).det ≠ 0 := by
    have hcharacteristic (x : ℝ) : (!![a, b; c, d] - x • (1 : Matrix (Fin 2) (Fin 2) ℝ)).det =
        x ^ 2 - (a + d) * x + (a * d - b * c) := by
      rw [Matrix.det_fin_two]
      simp
      ring
    rw [complexEigenvalue?_eq, isSome_conjugatePair?_iff]
    simp only [hcharacteristic]
  rcases standardize_pair_or_triangular a b c d with ⟨hpair, hform, hsome⟩ | ⟨hnone, hzero, hfound⟩
  · refine ⟨hrot, hturns.eq_mul hrot, Or.inr hform, iff_of_true hform ?_, hreal, ?_⟩
    · rw [hsome, Option.isSome_some]
    · rw [hsome, if_pos hpair]
  · have hform : ¬(e.a = e.d ∧ e.b * e.c < 0) := fun h => by
      rw [show e.c = 0 from hzero, mul_zero] at h
      exact lt_irrefl 0 h.2
    refine ⟨hrot, hturns.eq_mul hrot, Or.inl hzero, iff_of_false hform ?_, hreal, ?_⟩
    · rw [hfound]
      simp
    · rw [hfound, if_neg (by rw [show e.holdsPair = false from hnone]; decide)]

end SchurForm
