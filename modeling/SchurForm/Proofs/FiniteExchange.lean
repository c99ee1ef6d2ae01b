import SchurForm.Proofs.BoundedCompletion
import SchurForm.Proofs.BoundedCoupling
import SchurForm.Proofs.BoundedTurns
import SchurForm.Proofs.CheckedSteps
import SchurForm.Proofs.FiniteRotation

/-!
# Accepted exchanges of finite numbers

The tests of an exchange compare maxima with a bound, and a comparison with a NaN never refuses, so
that a computation that broke down is accepted. Finite entries do not prevent this: the solution of
the Sylvester equation may be so large that the length of a reflection overflows. For moderate
patches nothing breaks down. The solution is bounded, and as long as the squares of numbers of that
size are in the range, the completed bases have entries of a fixed size, whatever the solution is.
The transformed patches and the turns of their blocks then stay finite.
-/

namespace SchurForm

open Scalar Binary64

section Accepted

variable [Angles] {m p q : Nat} {e g : ℤ} {k j : ℕ}

namespace StandardExchange

variable {x first : StandardExchange m Float}

/-- All entries of the factor and of the patch are finite numbers. -/
structure IsFinite (x : StandardExchange m Float) : Prop where
  factor : x.factor.IsFinite
  after : x.after.IsFinite

/-- The entries of the factor and of the patch are bounded. -/
structure Bounded (g e : ℤ) (x : StandardExchange m Float) : Prop where
  factor : x.factor.Bounded g
  after : x.after.Bounded e

/-- Bounded exchanges are finite. -/
theorem Bounded.isFinite (h : x.Bounded g e) : x.IsFinite :=
  ⟨h.factor.isFinite, h.after.isFinite⟩

/-- Larger bounds hold as well. -/
theorem Bounded.mono {g' e' : ℤ} (h : x.Bounded g e) (hg : g ≤ g') (he : e ≤ e') :
    x.Bounded g' e' :=
  ⟨h.factor.mono hg, h.after.mono he⟩

/-- Bringing a block of a bounded patch to standard form. -/
theorem Bounded.standardizeSize {row l size : Nat} (h : x.Bounded g e) (hg : 0 ≤ g) (hg' : g ≤ 100)
    (hlow : -500 ≤ e) (hhigh : e ≤ 480) (hok : x.standardizeSize row l size = .ok first) :
    first.Bounded (g + 7) (e + 15) := by
  unfold StandardExchange.standardizeSize at hok
  split_ifs at hok
  · unfold standardizeBlock at hok
    dsimp only at hok
    split_ifs at hok with hpair
    cases hok
    obtain ⟨ha, hb, hc, hd, hrotation⟩ := standardize_bounded (h.after l l) (h.after l (l + 1))
      (h.after (l + 1) l) (h.after (l + 1) (l + 1)) hlow hhigh hpair
    constructor
    · exact (h.factor.rotateColumns hrotation (by norm_num) (by omega) (by omega) l (l + 1)).mono
        (by omega)
    · have hturned := (h.after.rotateRows hrotation (by norm_num) (by omega) (by omega) l
        (l + 1)).rotateColumns hrotation (by norm_num) (by omega) (by omega) l (l + 1)
      refine Mat.bounded_ofFn fun r _ c _ => ?_
      split_ifs
      · exact ha
      · exact hb
      · exact hc
      · exact hd
      · exact (hturned r c).mono_two_zpow (by omega)
  · cases hok
    exact h.mono (by omega) (by omega)

/-- The numbers of a patch are moderate: no entry exceeds `2 ^ k` in magnitude, and unless both
blocks have order one, an entry beside the diagonal of a block is at least `2 ^ (-j)`, and there is
room for the solution of the Sylvester equation. -/
structure Moderate (tol : Tolerance Float) (k j : ℕ) (d : Mat (p + q) (p + q) Float) : Prop where
  entries : d.AtMost k
  high : k ≤ 1022
  large : ¬(p = 1 ∧ q = 1) → ∃ i c, i ≠ c ∧ d.LargeInBlock p j i c
  room : ¬(p = 1 ∧ q = 1) → HasRoom (p * q) tol.refinements k j

end StandardExchange

open StandardExchange in
/-- An accepted general exchange turned the blocks of the transformed patch. -/
theorem exists_of_exchangeGeneral {tol : Tolerance Float} {row : Nat}
    {d : Mat (p + q) (p + q) Float} {x : StandardExchange (p + q) Float}
    (h : exchangeGeneral tol row d = .ok x) :
    let solution := couplingSolution tol d
    let u := completeBasis (subspaceBasis solution.right solution.scale)
    ∃ first, standardizeSize row 0 q ⟨u, (transformed u d u).clear q p 0 q⟩ = .ok first ∧
      first.standardizeSize row q p = .ok x := by
  simp only [exchangeGeneral, checked_bind_eq_ok] at h
  obtain ⟨_, -, _, -, hturn⟩ := h
  exact hturn

/-- The rotation of two finite blocks of order one is finite if their difference is. -/
theorem isFinite_exchangeReal {d : Mat 2 2 Float} (hd : d.IsFinite)
    (hdifference : (d.get 1 1 - d.get 0 0).isFinite = true) : (exchangeReal d).IsFinite := by
  obtain ⟨hc, hs⟩ :=
    GivensRotation.isFinite_annihilating (hd 0 two_pos 1 one_lt_two) hdifference
  constructor
  · intro i hi j hj
    simp only [exchangeReal]
    rw [Mat.get_ofFn, if_pos ⟨hi, hj⟩, Mat.ofRows2, Mat.get_ofFn, if_pos ⟨hi, hj⟩]
    split_ifs
    · exact hc
    · exact isFinite_neg hs
    · exact hs
    · exact hc
  · intro i hi j hj
    simp only [exchangeReal]
    rw [Mat.get_ofFn, if_pos ⟨hi, hj⟩, Mat.ofRows2, Mat.get_ofFn, if_pos ⟨hi, hj⟩]
    split_ifs
    · exact hd 1 one_lt_two 1 one_lt_two
    · exact hd 0 two_pos 1 one_lt_two
    · exact isFinite_zero
    · exact hd 0 two_pos 0 two_pos

/-- An accepted exchange of a moderate standard patch is finite. -/
theorem StandardExchange.Moderate.isFinite {tol : Tolerance Float} {row : Nat}
    {d : Mat (p + q) (p + q) Float} {x : StandardExchange (p + q) Float} (hp : p = 1 ∨ p = 2)
    (hq : q = 1 ∨ q = 2) (hd : Moderate tol k j d) (h : exchangeStandard tol row d = .ok x) :
    x.IsFinite := by
  have hbounded := hd.entries.bounded hd.high
  have hk := hd.high
  by_cases hone : p = 1 ∧ q = 1
  · obtain ⟨rfl, rfl⟩ := hone
    obtain rfl : exchangeReal d = x := by simpa [exchangeStandard] using h
    exact isFinite_exchangeReal hbounded.isFinite
      ((hbounded 1 1).sub_two_zpow (hbounded 0 0) (by omega) (by omega)).isFinite
  · rw [exchangeStandard, if_neg hone] at h
    obtain ⟨first, hfirst, hlast⟩ := exists_of_exchangeGeneral h
    obtain ⟨i, c, hne, hlarge⟩ := hd.large hone
    have hk : k ≤ 400 := (hd.room hone).1
    have hpq : 0 < p ∧ 0 < q ∧ q ≤ 2 ∧ p + q ≤ 4 := by omega
    have hn : p * q ≤ 2 * 2 := Nat.mul_le_mul (by omega) (by omega)
    obtain ⟨hx, hscale⟩ := couplingSolution_bounded hbounded hpq.1 hpq.2.1 (by omega)
      (hd.room hone) hlarge hne
    rw [hscale] at hfirst
    obtain ⟨hbasis, hidentity⟩ := subspaceBasis_bounded hx (by norm_num)
    have hu := completeBasis_bounded hpq.1 hpq.2.2.1 hpq.2.2.2 (by norm_num) le_rfl hbasis hidentity
    have hafter := (hbounded.transformed hu hu (by norm_num) (by omega) (by omega)).clear q p 0 q
    have htested : Bounded 16 (k + 40)
        ⟨completeBasis (subspaceBasis (couplingSolution tol d).right 1),
          (transformed (completeBasis (subspaceBasis (couplingSolution tol d).right 1)) d
            (completeBasis (subspaceBasis (couplingSolution tol d).right 1))).clear q p 0 q⟩ :=
      ⟨hu, hafter.mono (by omega)⟩
    have hturned := htested.standardizeSize (by norm_num) (by norm_num) (by omega) (by omega) hfirst
    exact (hturned.standardizeSize (by norm_num) (by norm_num) (by omega) (by omega)
      hlast).isFinite

namespace PencilExchange

variable {x first : PencilExchange m Float}

/-- All entries of both factors and of both patches are finite numbers. -/
structure IsFinite (x : PencilExchange m Float) : Prop where
  left : x.left.IsFinite
  right : x.right.IsFinite
  s : x.s.IsFinite
  t : x.t.IsFinite

/-- The entries of both factors and of both patches are bounded. -/
structure Bounded (g e : ℤ) (x : PencilExchange m Float) : Prop where
  left : x.left.Bounded g
  right : x.right.Bounded g
  s : x.s.Bounded e
  t : x.t.Bounded e

/-- Bounded exchanges of pencils are finite. -/
theorem Bounded.isFinite (h : x.Bounded g e) : x.IsFinite :=
  ⟨h.left.isFinite, h.right.isFinite, h.s.isFinite, h.t.isFinite⟩

/-- Larger bounds hold as well. -/
theorem Bounded.mono {g' e' : ℤ} (h : x.Bounded g e) (hg : g ≤ g') (he : e ≤ e') :
    x.Bounded g' e' :=
  ⟨h.left.mono hg, h.right.mono hg, h.s.mono he, h.t.mono he⟩

/-- Making a block of a bounded patch diagonal. -/
theorem Bounded.diagonalizeSize {row l size : Nat} (hangles : size = 2 → Angles.Documented)
    (h : x.Bounded g e) (hg : 0 ≤ g) (hg' : g ≤ 100) (hlow : -500 ≤ e) (hhigh : e ≤ 480)
    (hok : x.diagonalizeSize row l size = .ok first) : first.Bounded (g + 5) (e + 10) := by
  unfold PencilExchange.diagonalizeSize at hok
  split_ifs at hok with htwo
  · obtain ⟨hd0, hd1, hleft, hright⟩ := diagonalize_bounded (hangles htwo) (h.t l l)
      (h.t l (l + 1)) (h.t (l + 1) l) (h.t (l + 1) (l + 1)) hlow hhigh
    have hturned {a : Mat m m Float} (ha : a.Bounded e) :=
      (ha.rotateRows hleft (by norm_num) (by omega) (by omega) l (l + 1)).rotateColumns hright
        (by norm_num) (by omega) (by omega) l (l + 1)
    unfold diagonalizeBlock at hok
    dsimp only at hok
    split at hok
    · cases hok
      refine ⟨(h.left.rotateColumns hleft (by norm_num) (by omega) (by omega) l (l + 1)).mono
          (by omega),
        (h.right.rotateColumns hright (by norm_num) (by omega) (by omega) l (l + 1)).mono
          (by omega),
        (hturned h.s).mono (by omega), Mat.bounded_ofFn fun r _ c _ => ?_⟩
      split_ifs
      · exact hd0.mono_two_zpow (by omega)
      · exact within_zero_two_zpow _
      · exact within_zero_two_zpow _
      · exact hd1.mono_two_zpow (by omega)
      · exact (hturned h.t r c).mono_two_zpow (by omega)
    · cases hok
  · cases hok
    exact h.mono (by omega) (by omega)

/-- The numbers of a pair of patches are moderate: no entry exceeds `2 ^ k` in magnitude, an entry
of a block of one of them is at least `2 ^ (-j)`, and there is room for the solution of the
Sylvester equations. -/
structure Moderate (tol : Tolerance Float) (k j : ℕ) (a b : Mat (p + q) (p + q) Float) : Prop where
  entriesS : a.AtMost k
  entriesT : b.AtMost k
  large : ∃ i c, a.LargeInBlock p j i c ∨ b.LargeInBlock p j i c
  room : HasRoom (p * q + p * q) tol.refinements k j

end PencilExchange

open PencilExchange in
/-- An accepted exchange turned the block pairs of the transformed patches. -/
theorem exists_of_exchangePencil {tol : Tolerance Float} {row : Nat}
    {a b : Mat (p + q) (p + q) Float} {x : PencilExchange (p + q) Float}
    (h : exchangePencil tol row a b = .ok x) :
    let solution := coupledSolution tol a b
    let right := completeBasis (subspaceBasis solution.right solution.scale)
    let left := completeBasis (subspaceBasis solution.left solution.scale)
    ∃ first, diagonalizeSize row 0 q ⟨left, right, (transformed left a right).clear q p 0 q,
        (transformed left b right).clear q p 0 q⟩ = .ok first ∧
      first.diagonalizeSize row q p = .ok x := by
  simp only [exchangePencil, checked_bind_eq_ok] at h
  obtain ⟨_, -, _, -, _, -, _, -, hturn⟩ := h
  exact hturn

/-- An accepted exchange of a moderate pair of patches is finite. -/
theorem PencilExchange.Moderate.isFinite {tol : Tolerance Float} {row : Nat}
    {a b : Mat (p + q) (p + q) Float} {x : PencilExchange (p + q) Float} (hp : p = 1 ∨ p = 2)
    (hq : q = 1 ∨ q = 2) (hab : Moderate tol k j a b) (hangles : p = 2 ∨ q = 2 → Angles.Documented)
    (h : exchangePencil tol row a b = .ok x) : x.IsFinite := by
  obtain ⟨hk, -⟩ := id hab.room
  have ha := hab.entriesS.bounded (by omega)
  have hb := hab.entriesT.bounded (by omega)
  obtain ⟨i, c, hlarge⟩ := hab.large
  have hn : p * q ≤ 2 * 2 := Nat.mul_le_mul (by omega) (by omega)
  have hsolution (first : Bool) := coupledSolution_bounded ha hb (show 0 < p by omega)
    (show 0 < q by omega) (by omega) hab.room first (i := i) (c := c)
  obtain ⟨hxr, hxl, hscale⟩ : (coupledSolution tol a b).right.Bounded 490 ∧
      (coupledSolution tol a b).left.Bounded 490 ∧ (coupledSolution tol a b).scale = 1 := by
    rcases hlarge with hlarge | hlarge
    · exact hsolution true hlarge
    · exact hsolution false hlarge
  have hbasis {v : Mat p q Float} (hv : v.Bounded 490) :
      (completeBasis (subspaceBasis v 1)).Bounded 16 := by
    obtain ⟨hbounded, hidentity⟩ := subspaceBasis_bounded hv (by norm_num)
    exact completeBasis_bounded (by omega) (by omega) (by omega) (by norm_num) le_rfl hbounded
      hidentity
  obtain ⟨first, hfirst, hlast⟩ := exists_of_exchangePencil h
  rw [hscale] at hfirst
  have hleft := hbasis hxl
  have hright := hbasis hxr
  have hafter {d : Mat (p + q) (p + q) Float} (hd : d.Bounded k) :=
    ((hd.transformed hleft hright (by norm_num) (by omega) (by omega)).clear q p 0 q).mono
      (show _ ≤ (k : ℤ) + 40 by omega)
  have htested : Bounded 16 (k + 40) ⟨_, _, _, _⟩ := ⟨hleft, hright, hafter ha, hafter hb⟩
  have hturned := htested.diagonalizeSize (fun hq => hangles (.inr hq)) (by norm_num) (by norm_num)
    (by omega) (by omega) hfirst
  exact (hturned.diagonalizeSize (fun hp => hangles (.inl hp)) (by norm_num) (by norm_num)
    (by omega) (by omega) hlast).isFinite

/-- An accepted exchange of moderate patches returns finite factors and finite patches. For blocks
of order two in a pencil this rests on what is documented of the angle functions. -/
theorem accepted_exchange_isFinite (tol : Tolerance Float) (row : Nat) {p q : Nat} (k j : ℕ)
    (hp : p = 1 ∨ p = 2) (hq : q = 1 ∨ q = 2) :
    (∀ (d : Mat (p + q) (p + q) Float) (x : StandardExchange (p + q) Float),
        StandardExchange.Moderate tol k j d → exchangeStandard tol row d = .ok x → x.IsFinite) ∧
      ∀ (a b : Mat (p + q) (p + q) Float) (x : PencilExchange (p + q) Float),
        PencilExchange.Moderate tol k j a b → (p = 2 ∨ q = 2 → Angles.Documented) →
          exchangePencil tol row a b = .ok x → x.IsFinite :=
  ⟨fun _ _ hd h => hd.isFinite hp hq h, fun _ _ _ hab hangles h => hab.isFinite hp hq hangles h⟩

end Accepted

/-- A block of order one and a conjugate pair are exchanged in a standard form and in a pencil whose
pair comes to a diagonal block, where the angle functions are asked for the angle zero. Both patches
are moderate, and both exchanges are accepted. -/
theorem accepted_exchange_isFinite_pair :
    let d : Mat (1 + 2) (1 + 2) Float := Mat.ofFn fun i j =>
      if i = 0 then if j = 0 then 2 else 1
      else if i = 1 ∧ j = 2 then 4 else if i = 2 ∧ j = 1 then -1 else 0
    let a : Mat (1 + 2) (1 + 2) Float := Mat.ofFn fun i j =>
      if i = 0 then if j = 2 then -4 else 2
      else if i = 1 ∧ j = 2 then 4 else if i = 2 ∧ j = 1 then -1 else 0
    let b : Mat (1 + 2) (1 + 2) Float := Mat.ofFn fun i j =>
      if i = j then if i = 1 then 2 else 1 else if i = 0 ∧ j = 1 then -1 else 0
    letI : Angles := .straight
    (∃ x, exchangeStandard Tolerance.standard 0 d = .ok x ∧ x.IsFinite) ∧
      ∃ x, exchangePencil Tolerance.standard 0 a b = .ok x ∧ x.IsFinite := by
  intro d a b
  let _ : Angles := .straight
  have hok {ε β : Type} {x : Except ε β} (h : x.toBool = true) : ∃ y, x = .ok y := by
    cases x with
    | error e => cases h
    | ok y => exact ⟨y, rfl⟩
  obtain ⟨x, hx⟩ := hok (x := exchangeStandard Tolerance.standard 0 d) (by decide +kernel)
  obtain ⟨y, hy⟩ := hok (x := exchangePencil Tolerance.standard 0 a b) (by decide +kernel)
  have hd : StandardExchange.Moderate Tolerance.standard 2 0 d :=
    { entries := by decide +kernel
      high := by norm_num
      large := fun _ =>
        ⟨2, 1, by norm_num, by norm_num, by norm_num, by norm_num, by decide +kernel⟩
      room := fun _ => by decide }
  have hab : PencilExchange.Moderate Tolerance.standard 2 0 a b :=
    { entriesS := by decide +kernel
      entriesT := by decide +kernel
      large := ⟨0, 0, .inl ⟨by norm_num, by norm_num, by norm_num, by decide +kernel⟩⟩
      room := by decide }
  exact ⟨⟨x, hx, (accepted_exchange_isFinite _ 0 2 0 (.inl rfl) (.inr rfl)).1 d x hd hx⟩,
    y, hy, (accepted_exchange_isFinite _ 0 2 0 (.inl rfl) (.inr rfl)).2 a b y hab
      (fun _ => Angles.straight_documented) hy⟩

/-- Finite entries and an admissible tolerance do not suffice. The large coupling overflows in the
length of the first reflection, the residuals are NaNs, which exceed no threshold, and an exchange
is accepted whose factor holds nothing but NaNs. -/
theorem accepted_exchange_largeCoupling :
    ∃ (tol : Tolerance Float) (d : Mat (1 + 2) (1 + 2) Float) (x : StandardExchange (1 + 2) Float),
      Tolerance.make? 20 2 = .ok tol ∧ d.IsFinite ∧ exchangeStandard tol 0 d = .ok x ∧
        (∀ i < 3, ∀ j < 3, (x.factor.get i j).isNaN = true) ∧ (x.after.get 0 0).isNaN = true := by
  let d : Mat (1 + 2) (1 + 2) Float := Mat.ofFn fun i j =>
    if i = 0 then if j = 0 then 1 else if j = 1 then 1e200 else 0
    else if i = 1 ∧ j = 2 then 1 else if i = 2 ∧ j = 1 then -1 else 0
  have hany {ε β : Type} {y : Except ε β} {f : β → Bool} (h : y.toOption.any f = true) :
      ∃ x, y = .ok x ∧ f x = true := by
    cases y with
    | error e => cases h
    | ok x => exact ⟨x, rfl, h⟩
  obtain ⟨x, hx, hnan⟩ := hany (y := exchangeStandard ⟨20, 2⟩ 0 d)
    (f := fun x : StandardExchange (1 + 2) Float =>
      decide (∀ i < (3 : Nat), ∀ j < (3 : Nat), (x.factor.get i j).isNaN = true) &&
        (x.after.get 0 0).isNaN)
    (by decide +kernel)
  rw [Bool.and_eq_true, decide_eq_true_iff] at hnan
  exact ⟨⟨20, 2⟩, d, x, by rfl, by decide +kernel, hx, hnan.1, hnan.2⟩

end SchurForm
