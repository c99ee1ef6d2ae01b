import SchurForm.Proofs.Rounding

/-!
# Finite numbers and comparisons

A sum, a difference or a product that is finite has finite operands, a finite quotient has a finite
dividend, and a finite root is that of a finite number: except below a fraction bar, an infinity or
a NaN is never lost again. A comparison with a NaN fails. The other numbers are ordered by their
rank, so that a maximum which passes a NaN over still bounds every number it was taken of.
-/

namespace SchurForm

namespace Binary64

open Float.Model (UnpackedFloat)

variable {x y t : Float} {u v : UnpackedFloat}

/-- Whether a number is finite shows in its fields. -/
theorem isFinite_eq (x : Float) : x.isFinite = (datum x).isFinite := rfl

/-- Whether a number is a NaN shows in its fields. -/
theorem isNaN_eq (x : Float) : x.isNaN = (datum x).isNaN := rfl

/-- Zero is finite. -/
theorem isFinite_zero : (0 : Float).isFinite = true := by decide

/-- One is finite. -/
theorem isFinite_one : (1 : Float).isFinite = true := by decide

/-- Negation does not matter for finiteness. -/
theorem isFinite_neg_iff (x : Float) : (-x).isFinite = x.isFinite := by
  rw [isFinite_eq, isFinite_eq, datum_neg]
  cases datum x <;> rfl

/-- The sign does not matter for finiteness. -/
theorem isFinite_abs_iff (x : Float) : x.abs.isFinite = x.isFinite := by
  rw [isFinite_eq, isFinite_eq, datum_abs]
  cases datum x <;> rfl

/-- The negative of a finite number is finite. -/
theorem isFinite_neg (h : x.isFinite = true) : (-x).isFinite = true :=
  (isFinite_neg_iff x).trans h

section Operands

/-- Packing turns numbers into infinities, but never back. -/
theorem isFinite_of_stored (h : (stored u).isFinite = true) : u.isFinite = true := by
  cases u with
  | notANumber => exact absurd h (by decide)
  | infinity s => cases s <;> exact absurd h (by decide)
  | zero s => rfl
  | finite s m e hm => rfl

/-- The terms of a finite sum are finite. -/
theorem isFinite_of_unpacked_add (h : (UnpackedFloat.add .binary64 u v).isFinite = true) :
    u.isFinite = true ∧ v.isFinite = true := by
  revert h
  fun_cases UnpackedFloat.add .binary64 u v <;> simp [UnpackedFloat.isFinite]

/-- The factors of a finite product are finite. -/
theorem isFinite_of_unpacked_mul (h : (UnpackedFloat.mul .binary64 u v).isFinite = true) :
    u.isFinite = true ∧ v.isFinite = true := by
  revert h
  fun_cases UnpackedFloat.mul .binary64 u v <;> simp [UnpackedFloat.isFinite]

/-- The dividend of a finite quotient is finite. -/
theorem isFinite_of_unpacked_div (h : (UnpackedFloat.div .binary64 u v).isFinite = true) :
    u.isFinite = true := by
  revert h
  fun_cases UnpackedFloat.div .binary64 u v <;> simp [UnpackedFloat.isFinite]

/-- Only finite numbers have finite roots. -/
theorem isFinite_of_unpacked_sqrt (h : (UnpackedFloat.sqrt .binary64 u).isFinite = true) :
    u.isFinite = true := by
  revert h
  fun_cases UnpackedFloat.sqrt .binary64 u <;> simp [UnpackedFloat.isFinite]

/-- A finite sum has finite terms. -/
theorem isFinite_of_add (h : (x + y).isFinite = true) :
    x.isFinite = true ∧ y.isFinite = true :=
  isFinite_of_unpacked_add (isFinite_of_stored h)

/-- A finite product has finite factors. -/
theorem isFinite_of_mul (h : (x * y).isFinite = true) :
    x.isFinite = true ∧ y.isFinite = true :=
  isFinite_of_unpacked_mul (isFinite_of_stored h)

/-- A finite quotient has a finite dividend. -/
theorem isFinite_of_div (h : (x / y).isFinite = true) : x.isFinite = true :=
  isFinite_of_unpacked_div (isFinite_of_stored h)

/-- A finite root is that of a finite number. -/
theorem isFinite_of_sqrt (h : x.sqrt.isFinite = true) : x.isFinite = true :=
  isFinite_of_unpacked_sqrt (isFinite_of_stored h)

end Operands

section Order

/-- The place of a number among the others: its kind, then the exponent and the mantissa of its
magnitude. A NaN has none and gets that of zero. -/
def rank : UnpackedFloat → ℤ ×ₗ ℤ ×ₗ ℤ
  | .notANumber => toLex (0, toLex (0, 0))
  | .infinity .negative => toLex (-2, toLex (0, 0))
  | .finite .negative m e _ => toLex (-1, toLex (-e, -m))
  | .zero _ => toLex (0, toLex (0, 0))
  | .finite .positive m e _ => toLex (1, toLex (e, m))
  | .infinity .positive => toLex (2, toLex (0, 0))

/-- Pairs are less if the first entry is, or the second one where the first ones agree. -/
theorem compare_then_eq_lt {e₁ e₂ : ℤ} {m₁ m₂ : ℕ} :
    (compare e₁ e₂).then (compare m₁ m₂) = .lt ↔ e₁ < e₂ ∨ e₁ = e₂ ∧ m₁ < m₂ := by
  rw [Ordering.then_eq_lt, compare_lt_iff_lt, compare_eq_iff_eq, compare_lt_iff_lt]

/-- Pairs are greater if the first entry is, or the second one where the first ones agree. -/
theorem compare_then_eq_gt {e₁ e₂ : ℤ} {m₁ m₂ : ℕ} :
    (compare e₁ e₂).then (compare m₁ m₂) = .gt ↔ e₂ < e₁ ∨ e₁ = e₂ ∧ m₂ < m₁ := by
  rw [Ordering.then_eq_gt, compare_gt_iff_gt, compare_eq_iff_eq, compare_gt_iff_gt]

/-- A number is less than another one exactly if its rank is. -/
theorem unpacked_lt_iff :
    u.lt v = true ↔ u.isNaN = false ∧ v.isNaN = false ∧ rank u < rank v := by
  rcases u with (_ | _) | _ | _ | ⟨_ | _, m₁, e₁, h₁⟩ <;>
    rcases v with (_ | _) | _ | _ | ⟨_ | _, m₂, e₂, h₂⟩ <;>
    simp [UnpackedFloat.lt, UnpackedFloat.compare, UnpackedFloat.isNaN, rank,
      Prod.Lex.toLex_lt_toLex, Ordering.swap_eq_lt, compare_then_eq_gt, compare_then_eq_lt]
  rfl

/-- Numbers are compared by their fields. -/
theorem lt_iff_unpacked : x < y ↔ (datum x).lt (datum y) = true := by
  change decide _ = true ↔ _
  rw [decide_eq_true_iff]
  rfl

/-- So are they where equality is allowed. -/
theorem le_iff_unpacked : x ≤ y ↔ (datum x).le (datum y) = true := by
  change decide _ = true ↔ _
  rw [decide_eq_true_iff]
  rfl

/-- One number is less than another exactly if neither is a NaN and the rank is less. -/
theorem lt_iff : x < y ↔
    x.isNaN = false ∧ y.isNaN = false ∧ rank (datum x) < rank (datum y) :=
  lt_iff_unpacked.trans unpacked_lt_iff

/-- Exchanging two numbers turns their comparison around. -/
theorem unpacked_compare_comm (u v : UnpackedFloat) :
    v.compare u = (u.compare v).map Ordering.swap := by
  rcases u with (_ | _) | _ | _ | ⟨_ | _, m₁, e₁, h₁⟩ <;>
    rcases v with (_ | _) | _ | _ | ⟨_ | _, m₂, e₂, h₂⟩
  case finite.negative.finite.negative | finite.positive.finite.positive =>
    simp only [UnpackedFloat.compare, Option.map_some, Ordering.swap_then,
      ← Std.OrientedOrd.eq_swap]
  all_goals rfl

/-- All numbers but NaNs are comparable. -/
theorem isSome_compare (u v : UnpackedFloat) :
    (u.compare v).isSome = true ↔ u.isNaN = false ∧ v.isNaN = false := by
  rcases u with (_ | _) | _ | _ | ⟨_ | _, m₁, e₁, h₁⟩ <;>
    rcases v with (_ | _) | _ | _ | ⟨_ | _, m₂, e₂, h₂⟩ <;>
    simp [UnpackedFloat.compare, UnpackedFloat.isNaN]

/-- A number is at most another one unless it is greater; neither may be a NaN. -/
theorem le_iff : x ≤ y ↔ x.isNaN = false ∧ y.isNaN = false ∧ ¬y < x := by
  rw [le_iff_unpacked, lt_iff_unpacked, isNaN_eq, isNaN_eq, ← and_assoc, ← isSome_compare,
    UnpackedFloat.le, UnpackedFloat.lt, unpacked_compare_comm (datum x) (datum y)]
  rcases (datum x).compare (datum y) with _ | _ | _ | _ <;> simp

/-- Two numbers are equal if neither of them is greater. -/
theorem beq_iff : (x == y) = true ↔ x ≤ y ∧ y ≤ x := by
  have hmodel : (x == y) = true ↔ (datum x).beq (datum y) = true := Iff.rfl
  rw [hmodel, le_iff_unpacked, le_iff_unpacked, UnpackedFloat.le, UnpackedFloat.le,
    UnpackedFloat.beq, unpacked_compare_comm (datum x) (datum y)]
  rcases (datum x).compare (datum y) with _ | _ | _ | _ <;> simp

/-- A number equals itself unless it is a NaN. -/
theorem beq_self_iff : (x == x) = true ↔ x.isNaN = false := by
  change (datum x).beq (datum x) = true ↔ (datum x).isNaN = false
  rcases datum x with (_ | _) | _ | _ | ⟨_ | _, m, e, h⟩ <;>
    simp [UnpackedFloat.beq, UnpackedFloat.compare, UnpackedFloat.isNaN] <;> rfl

/-- What equals a finite number is finite. -/
theorem isFinite_of_beq (hy : y.isFinite = true) (h : (x == y) = true) : x.isFinite = true := by
  change (datum x).beq (datum y) = true at h
  rw [isFinite_eq] at hy ⊢
  generalize datum x = u at *
  generalize datum y = v at *
  rcases u with (_ | _) | _ | _ | ⟨_ | _, m₁, e₁, h₁⟩ <;>
    rcases v with (_ | _) | _ | _ | ⟨_ | _, m₂, e₂, h₂⟩ <;>
    simp_all [UnpackedFloat.beq, UnpackedFloat.compare, UnpackedFloat.isFinite]

/-- The order of the numbers is transitive. -/
theorem lt_trans (hxy : x < y) (hyt : y < t) : x < t := by
  rw [lt_iff] at *
  exact ⟨hxy.1, hyt.2.1, hxy.2.2.trans hyt.2.2⟩

/-- The order of the numbers is asymmetric. -/
theorem not_lt_of_lt (h : x < y) : ¬y < x := fun hgt =>
  absurd (lt_iff.mp (lt_trans h hgt)).2.2 (lt_irrefl _)

end Order

section Magnitude

/-- A number whose magnitude does not exceed a finite bound is finite. The premise that it is a
number cannot be dropped: a NaN exceeds nothing. -/
theorem isFinite_of_not_lt_abs (ht : t.isFinite = true) (hx : x.isNaN = false) (h : ¬t < x.abs) :
    x.isFinite = true := by
  simp only [lt_iff, isFinite_eq, isNaN_eq, datum_abs] at *
  generalize datum x = u at *
  generalize datum t = v at *
  cases u with
  | notANumber => exact absurd hx (by decide)
  | infinity s =>
    -- an infinite magnitude ranks above all finite numbers
    refine absurd ⟨?_, rfl, ?_⟩ h <;> rcases v with (_ | _) | _ | _ | ⟨_ | _, m, e, hm⟩ <;>
      simp_all [UnpackedFloat.abs, UnpackedFloat.isFinite, UnpackedFloat.isNaN, rank,
        Prod.Lex.toLex_lt_toLex]
  | zero s => rfl
  | finite s m e hm => rfl

/-- A number whose magnitude compares with a finite bound is finite. -/
theorem isFinite_of_abs_le (ht : t.isFinite = true) (h : x.abs ≤ t) : x.isFinite = true := by
  obtain ⟨hx, -, hlt⟩ := le_iff.mp h
  refine isFinite_of_not_lt_abs ht ?_ hlt
  rw [isNaN_eq, datum_abs] at hx
  rw [isNaN_eq]
  cases hu : datum x with
  | notANumber => rw [hu] at hx; exact absurd hx (by decide)
  | infinity s | zero s | finite s m e hm => rfl

end Magnitude

end Binary64

end SchurForm
