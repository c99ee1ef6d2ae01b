import SchurForm.Exchange.Standard
import SchurForm.Proofs.ExchangeResidual

/-!
# Exchanges in a standard form

Every exchange that is accepted, whatever the numbers, is a change of basis by an orthogonal factor
up to four thresholds, and leaves a cut behind its first block. If the Sylvester equation was solved
without a lifted pivot, or was not needed, an exchange is always accepted, nothing is lost, and the
blocks of the new patch are similar to those of the old one in the other order.
-/

namespace SchurForm

open Scalar Matrix
open scoped Matrix.Norms.Frobenius

variable {m p q : Nat}

/-- The Sylvester equation of an exchange had to be perturbed. Two blocks of order one are exchanged
without one. -/
noncomputable def exchangePerturbed (tol : Tolerance ℝ) (d : Mat (p + q) (p + q) ℝ) : Bool :=
  if p = 1 ∧ q = 1 then false else (couplingSolution tol d).perturbed

/-- The block of order two in row `k` has equal diagonal entries and off-diagonal entries of
opposite sign. -/
def Mat.StandardizedAt (a : Mat m m ℝ) (k : Nat) : Prop :=
  a.get k k = a.get (k + 1) (k + 1) ∧ a.get k (k + 1) * a.get (k + 1) k < 0

/-- Whether a block is standardized is seen from the block alone. -/
theorem Mat.StandardizedAt.of_block_eq {n : Nat} {a : Mat m m ℝ} {b : Mat n n ℝ} {i j : Nat}
    (h : (a.block i i : Mat 2 2 ℝ) = b.block j j) (hb : b.StandardizedAt j) :
    a.StandardizedAt i := by
  have h00 : a.get i i = b.get j j := Mat.get_of_block_eq h two_pos two_pos
  have h01 : a.get i (i + 1) = b.get j (j + 1) := Mat.get_of_block_eq h two_pos one_lt_two
  have h10 : a.get (i + 1) i = b.get (j + 1) j := Mat.get_of_block_eq h one_lt_two two_pos
  have h11 : a.get (i + 1) (i + 1) = b.get (j + 1) (j + 1) :=
    Mat.get_of_block_eq h one_lt_two one_lt_two
  rwa [StandardizedAt, h00, h01, h10, h11]

/-- A standardized block has a complex eigenvalue. -/
theorem Mat.StandardizedAt.pairAt_ne_none {a : Mat m m ℝ} {k : Nat} (h : a.StandardizedAt k) :
    pairAt a k ≠ none := by
  obtain ⟨hdiag, hneg⟩ := h
  rw [pairAt, complexEigenvalue?_eq, conjugatePair?_eq, if_pos]
  · exact Option.some_ne_none _
  · rw [hdiag]
    nlinarith

namespace StandardExchange

/-- What an accepted exchange guarantees. -/
structure Sound (tol : Tolerance ℝ) (d : Mat (p + q) (p + q) ℝ) (e : StandardExchange (p + q) ℝ) :
    Prop where
  orthogonal : e.factor.IsOrthogonal
  cut : e.after.IsCut q
  close : (e.after.sub (transformed e.factor d e.factor)).frobenius ≤ 4 * tol.threshold d.supNorm
  exact : exchangePerturbed tol d = false → e.after = transformed e.factor d e.factor

/-- Going back from an exchange without a perturbed equation gives the patch. -/
theorem Sound.rebuilt_eq {tol : Tolerance ℝ} {d : Mat (p + q) (p + q) ℝ}
    {e : StandardExchange (p + q) ℝ} (h : Sound tol d e)
    (hunperturbed : exchangePerturbed tol d = false) :
    rebuilt e.factor e.after e.factor = d := by
  rw [h.exact hunperturbed, Mat.rebuilt_transformed h.orthogonal h.orthogonal]

/-- An exchange whose blocks are in the order opposite to the patch. -/
structure Swaps (d : Mat (p + q) (p + q) ℝ) (e : StandardExchange (p + q) ℝ) : Prop where
  lead : Mat.SimilarAt q e.after 0 d p
  trail : Mat.SimilarAt p e.after q d 0

/-- One of the blocks of an exchange has been turned by a further rotation. -/
structure Turned (size k : Nat) (e e' : StandardExchange m ℝ) : Prop where
  factors : ∃ w : Mat m m ℝ, w.IsOrthogonal ∧ e'.factor = e.factor.mul w ∧
    e'.after = transformed w e.after w
  cut : ∀ t, t ≤ k ∨ k + size ≤ t → e.after.IsCut t → e'.after.IsCut t
  outside : ∀ i count, i + count ≤ k ∨ k + size ≤ i → i + count ≤ m →
    (e'.after.block i i : Mat count count ℝ) = e.after.block i i
  inside : Mat.SimilarAt size e'.after k e.after k

/-- Nothing is turned by the identity. -/
theorem Turned.refl (size k : Nat) (e : StandardExchange m ℝ) : Turned size k e e :=
  ⟨⟨Mat.identity, Mat.isOrthogonal_identity, (Mat.mul_identity _).symm,
      (Mat.transformed_identity _).symm⟩,
    fun _ _ h => h, fun _ _ _ _ => rfl, Mat.SimilarAt.of_eq rfl⟩

variable {e e' : StandardExchange m ℝ} {row k : Nat}

/-- An orthogonal factor of order two turns the block in row `k`. -/
theorem Turned.of_embed (hk : k + 2 ≤ m) {u : Mat 2 2 ℝ} (hu : u.IsOrthogonal)
    (e : StandardExchange m ℝ) : Turned 2 k e ⟨e.factor.mul (Mat.embed m k u),
      transformed (Mat.embed m k u) e.after (Mat.embed m k u)⟩ := by
  refine ⟨⟨Mat.embed m k u, hu.embed hk, rfl, rfl⟩, fun t ht hcut => ?_,
    fun i count hi him => ?_, ?_⟩
  · exact hcut.transformed_embed hk ht u u
  · exact Mat.block_transformed_embed_outside e.after hk hi him u u
  · exact Mat.SimilarAt.of_transformed hu (Mat.block_transformed_embed e.after hk u u)

/-- Standardizing succeeds if the block holds a pair, and is then a rotation of it. The entries that
are put into the block are those of the rotated patch. -/
theorem standardizeBlock_cases (row : Nat) (hk : k + 2 ≤ m) (e : StandardExchange m ℝ) :
    (∃ e', e.standardizeBlock row k = .ok e' ∧ Turned 2 k e e' ∧ e'.after.StandardizedAt k) ∨
      (e.standardizeBlock row k = .error (.pairSplit row) ∧ pairAt e.after k = none) := by
  set block := standardize (e.after.get k k) (e.after.get k (k + 1))
    (e.after.get (k + 1) k) (e.after.get (k + 1) (k + 1)) with hblock
  rcases standardize_cases (e.after.get k k) (e.after.get k (k + 1)) (e.after.get (k + 1) k)
    (e.after.get (k + 1) (k + 1)) with ⟨⟨hrot, hturns, hdiag, hneg⟩, hpair⟩ | ⟨hreal, hnone⟩
  · left
    rw [← hblock] at hrot hturns hdiag hneg hpair
    obtain ⟨h00, h01, h10, h11⟩ :=
      GivensRotation.get_rotate block.rotation block.rotation hk e.after
    obtain ⟨ha, hb, hc, hd⟩ := hturns
    set u := block.rotation.toMat with hu
    set turned := block.rotation.rotateColumns k (k + 1)
      (block.rotation.rotateRows k (k + 1) e.after) with hturned
    have hturn : turned = transformed (Mat.embed m k u) e.after (Mat.embed m k u) :=
      GivensRotation.rotate_eq_transformed _ _ hk e.after
    rw [hturn] at h00 h01 h10 h11
    replace h00 := h00.trans ha.symm
    replace h01 := h01.trans hb.symm
    replace h10 := h10.trans hc.symm
    replace h11 := h11.trans hd.symm
    have hafter := Mat.ofFn_block_eq h00 h01 h10 h11
    refine ⟨_, ?_, Turned.of_embed hk hrot.isOrthogonal e, h00.trans (hdiag.trans h11.symm),
      by rwa [h01, h10]⟩
    simp only [standardizeBlock, ← hblock, hpair, if_true, ← hturned, hturn, hafter,
      GivensRotation.rotateColumns_eq_mul block.rotation hk e.factor, ← hu]
  · right
    rw [← hblock] at hreal
    refine ⟨by simp only [standardizeBlock, ← hblock, hreal, Bool.false_eq_true, if_false], ?_⟩
    rw [pairAt, complexEigenvalue?_eq, hnone]

/-- Standardizing the block of either order turns it, and leaves a standardized block of order two.
-/
theorem standardizeSize_spec {size : Nat} (hsize : size = 1 ∨ size = 2) (hk : k + size ≤ m)
    (h : e.standardizeSize row k size = .ok e') :
    Turned size k e e' ∧ (size = 2 → e'.after.StandardizedAt k) := by
  rcases hsize with rfl | rfl
  · obtain rfl : e = e' := by simpa [standardizeSize] using h
    exact ⟨Turned.refl 1 k e, by simp⟩
  · rw [standardizeSize, if_pos rfl] at h
    rcases standardizeBlock_cases row hk e with ⟨next, hnext, hturned, hstandard⟩ | ⟨herror, -⟩
    · obtain rfl : next = e' := by simpa [hnext] using h
      exact ⟨hturned, fun _ => hstandard⟩
    · rw [herror] at h
      exact nomatch h

/-- A block that holds a pair, if it has order two, can be standardized. -/
theorem exists_standardizeSize (row : Nat) {size : Nat} (hsize : size = 1 ∨ size = 2)
    (hk : k + size ≤ m) (hpair : size = 2 → pairAt e.after k ≠ none) :
    ∃ e', e.standardizeSize row k size = .ok e' ∧ Turned size k e e' := by
  rcases hsize with rfl | rfl
  · exact ⟨e, by simp [standardizeSize], Turned.refl 1 k e⟩
  · rw [standardizeSize, if_pos rfl]
    rcases standardizeBlock_cases row hk e with ⟨next, hnext, hturned, -⟩ | ⟨-, hnone⟩
    · exact ⟨next, hnext, hturned⟩
    · exact absurd hnone (hpair rfl)

/-- Turning a block does not change what going back gives. -/
theorem Turned.rebuilt_eq {size : Nat} (h : Turned size k e e') :
    rebuilt e'.factor e'.after e'.factor = rebuilt e.factor e.after e.factor := by
  obtain ⟨w, hw, hfactor, hafter⟩ := h.factors
  rw [hfactor, hafter, ← Mat.rebuilt_rebuilt, Mat.rebuilt_transformed hw hw]

/-- Turning both blocks keeps what the tests have established. -/
theorem Turned.residual {sizes₁ sizes₂ k₁ k₂ : Nat} {first last : StandardExchange m ℝ}
    (h₁ : Turned sizes₁ k₁ e first) (h₂ : Turned sizes₂ k₂ first last)
    (horth : e.factor.IsOrthogonal) (d : Mat m m ℝ) :
    ∃ w : Mat m m ℝ, w.IsOrthogonal ∧ last.factor.IsOrthogonal ∧
      last.after = transformed w e.after w ∧
      transformed last.factor d last.factor =
        transformed w (transformed e.factor d e.factor) w := by
  obtain ⟨w₁, hw₁, hfactor₁, hafter₁⟩ := h₁.factors
  obtain ⟨w₂, hw₂, hfactor₂, hafter₂⟩ := h₂.factors
  have hfactor : last.factor = e.factor.mul (w₁.mul w₂) := by
    rw [hfactor₂, hfactor₁, Mat.mul_mul]
  refine ⟨w₁.mul w₂, hw₁.mul hw₂, hfactor ▸ horth.mul (hw₁.mul hw₂), ?_, ?_⟩
  · rw [hafter₂, hafter₁, Mat.transformed_transformed]
  · rw [hfactor, Mat.transformed_transformed]

end StandardExchange

open StandardExchange

/-- The rotation of two blocks of order one exchanges them exactly. -/
theorem exchangeReal_spec (tol : Tolerance ℝ) {d : Mat (1 + 1) (1 + 1) ℝ} (hcut : d.IsCut 1) :
    Sound tol d (exchangeReal d) ∧ Swaps d (exchangeReal d) := by
  obtain ⟨hrot, hf, hg⟩ := GivensRotation.annihilating_spec (d.get 0 1) (d.get 1 1 - d.get 0 0)
  set rot := (GivensRotation.annihilating (d.get 0 1) (d.get 1 1 - d.get 0 0)).1 with hrotDef
  set r := (GivensRotation.annihilating (d.get 0 1) (d.get 1 1 - d.get 0 0)).2
  have hfactor : (exchangeReal d).factor = rot.toMat :=
    Mat.ext_get fun i hi j hj => by
      rw [exchangeReal, Mat.get_ofFn, if_pos ⟨hi, hj⟩]
      rfl
  have hafter (i j : Nat) (hi : i < 1 + 1) (hj : j < 1 + 1) : (exchangeReal d).after.get i j =
      (Mat.ofRows2 (d.get 1 1) (d.get 0 1) 0 (d.get 0 0)).get i j := by
    rw [exchangeReal, Mat.get_ofFn, if_pos ⟨hi, hj⟩]
  have hunit : rot.c ^ 2 + rot.s ^ 2 = 1 := hrot
  have hlower : d.get 1 0 = 0 := hcut 1 0 le_rfl one_pos
  have hexact : (exchangeReal d).after =
      transformed (exchangeReal d).factor d (exchangeReal d).factor := by
    apply Mat.ext_get
    intro i hi j hj
    rw [hafter i j hi hj, hfactor, transformed, Mat.get_mul]
    simp only [Mat.get_mul, Finset.sum_range_succ, Finset.sum_range_zero, Mat.get_transpose]
    interval_cases i <;> interval_cases j <;>
      simp [GivensRotation.toMat, Mat.ofRows2, hlower]
    · linear_combination (-d.get 1 1) * hunit + rot.c ^ 2 * hg - rot.c * rot.s * hf
    · linear_combination (-d.get 0 1) * hunit + rot.s ^ 2 * hf - rot.c * rot.s * hg
    · linear_combination rot.s ^ 2 * hf - rot.c * rot.s * hg
    · linear_combination (-d.get 0 0) * hunit - rot.c ^ 2 * hg + rot.s * rot.c * hf
  have horth : (exchangeReal d).factor.IsOrthogonal := by
    rw [hfactor]
    exact hrot.isOrthogonal
  refine ⟨⟨horth, fun i j hi hj => ?_, ?_, fun _ => hexact⟩, ?_, ?_⟩
  · by_cases hin : i < 1 + 1
    · rw [hafter i j hin (by omega)]
      simp [Mat.ofRows2, show i = 1 by omega, show j = 0 by omega]
    · exact Mat.get_of_rows_le _ (Nat.le_of_not_lt hin) j
  · rw [Mat.frobenius_sub_eq_zero_iff.mpr hexact]
    exact mul_nonneg (by norm_num) (tol.threshold_pos _).le
  · refine Mat.SimilarAt.of_eq (Mat.ext_get fun i hi j hj => ?_)
    rw [Mat.get_block _ _ _ hi hj, Mat.get_block _ _ _ hi hj, hafter _ _ (by omega) (by omega)]
    simp [Mat.ofRows2, Nat.lt_one_iff.mp hi, Nat.lt_one_iff.mp hj]
  · refine Mat.SimilarAt.of_eq (Mat.ext_get fun i hi j hj => ?_)
    rw [Mat.get_block _ _ _ hi hj, Mat.get_block _ _ _ hi hj, hafter _ _ (by omega) (by omega)]
    simp [Mat.ofRows2, Nat.lt_one_iff.mp hi, Nat.lt_one_iff.mp hj]

variable {tol : Tolerance ℝ} {row : Nat} {d : Mat (p + q) (p + q) ℝ}

/-- The basis that an exchange completes. -/
noncomputable def exchangeBasis (tol : Tolerance ℝ) (d : Mat (p + q) (p + q) ℝ) :
    Mat (p + q) (p + q) ℝ :=
  completeBasis (subspaceBasis (couplingSolution tol d).right (couplingSolution tol d).scale)

/-- A general exchange passes two tests and turns two blocks. -/
theorem exchangeGeneral_eq_ok {e : StandardExchange (p + q) ℝ} :
    exchangeGeneral tol row d = .ok e ↔
      let u := exchangeBasis tol d
      let cleared := (transformed u d u).clear q p 0 q
      (lowerLeft (transformed u d u) p q).supNorm ≤ tol.threshold d.supNorm ∧
        (d.sub (rebuilt u cleared u)).supNorm ≤ tol.threshold d.supNorm ∧
        ∃ first, StandardExchange.standardizeSize row 0 q ⟨u, cleared⟩ = .ok first ∧
          first.standardizeSize row q p = .ok e := by
  simp only [exchangeGeneral, checked_bind_eq_ok, refuseAbove_eq_ok]
  constructor
  · rintro ⟨-, hlower, -, hback, hturn⟩
    exact ⟨hlower, hback, hturn⟩
  · rintro ⟨hlower, hback, hturn⟩
    exact ⟨(), hlower, (), hback, hturn⟩

/-- The Sylvester equation of a patch is solved exactly unless it was perturbed. -/
theorem couplingSolution_spec (hunperturbed : (couplingSolution tol d).perturbed = false) :
    let sol := couplingSolution tol d
    SolvesSylvester (d.block 0 0) (d.block p p) (d.block 0 p) sol.right sol.right sol.scale ∧
      0 < sol.scale :=
  solveSingleSylvester_spec (d.block 0 0) (d.block p p) (d.block 0 p) tol.refinements hunperturbed

/-- Without a perturbed equation the transformed patch is block triangular, with blocks that are
similar to those of the patch in the other order. -/
theorem transformed_exchangeBasis (hcut : d.IsCut p)
    (hunperturbed : (couplingSolution tol d).perturbed = false) :
    let u := exchangeBasis tol d
    (transformed u d u).IsCut q ∧ Mat.SimilarAt q (transformed u d u) 0 d p ∧
      Mat.SimilarAt p (transformed u d u) q d 0 := by
  intro u
  obtain ⟨hsolves, hscale⟩ := couplingSolution_spec hunperturbed
  have hadapted : IsAdapted u (couplingSolution tol d).right (couplingSolution tol d).scale :=
    isAdapted_completeBasis _ _
  obtain ⟨hblock, hlead⟩ := hadapted.transformed_lead hadapted hscale.ne' hcut hsolves
  exact ⟨hblock, ⟨_, hadapted.det_leadFactor_ne_zero hscale.ne', hlead⟩,
    ⟨_, hadapted.det_trailFactor_ne_zero hscale.ne',
      IsAdapted.transformed_trail hadapted.orthogonal hcut hblock⟩⟩

/-- An accepted exchange is a change of basis up to its allowance, and makes a cut. -/
theorem exchangeStandard_sound (hp : p = 1 ∨ p = 2) (hq : q = 1 ∨ q = 2) (hcut : d.IsCut p)
    {e : StandardExchange (p + q) ℝ} (h : exchangeStandard tol row d = .ok e) : Sound tol d e := by
  by_cases hone : p = 1 ∧ q = 1
  · obtain ⟨rfl, rfl⟩ := hone
    obtain rfl : exchangeReal d = e := by simpa [exchangeStandard] using h
    exact (exchangeReal_spec tol hcut).1
  · rw [exchangeStandard, if_neg hone] at h
    obtain ⟨-, hback, first, hfirst, hlast⟩ := exchangeGeneral_eq_ok.mp h
    set u := exchangeBasis tol d with hu
    have horth : u.IsOrthogonal := (isAdapted_completeBasis _ _).orthogonal
    obtain ⟨hturned₁, -⟩ := standardizeSize_spec hq (by omega) hfirst
    obtain ⟨hturned₂, -⟩ := standardizeSize_spec hp (by omega) hlast
    obtain ⟨w, hw, horthLast, hafter, htransformed⟩ := hturned₁.residual hturned₂ horth d
    refine ⟨horthLast, ?_, ?_, fun hexact => ?_⟩
    · exact hturned₂.cut q (Or.inl le_rfl)
        (hturned₁.cut q (Or.inr (by omega)) (Mat.isCut_clear _))
    · rw [hafter, htransformed, Mat.frobenius_transformed_sub hw hw]
      exact frobenius_cleared_le horth horth (by omega) (by omega) hback
    · rw [exchangePerturbed, if_neg hone] at hexact
      obtain ⟨hblock, -, -⟩ := transformed_exchangeBasis hcut hexact
      rw [hafter, htransformed, hblock.clear_eq]

/-- The blocks of order two of an accepted exchange are standardized. -/
theorem exchangeStandard_standardized (hp : p = 1 ∨ p = 2) (hq : q = 1 ∨ q = 2)
    {e : StandardExchange (p + q) ℝ} (h : exchangeStandard tol row d = .ok e) :
    (q = 2 → e.after.StandardizedAt 0) ∧ (p = 2 → e.after.StandardizedAt q) := by
  by_cases hone : p = 1 ∧ q = 1
  · omega
  · rw [exchangeStandard, if_neg hone] at h
    obtain ⟨-, -, first, hfirst, hlast⟩ := exchangeGeneral_eq_ok.mp h
    obtain ⟨-, hlead⟩ := standardizeSize_spec hq (by omega) hfirst
    obtain ⟨hturned, htrail⟩ := standardizeSize_spec hp (by omega) hlast
    refine ⟨fun htwo => ?_, htrail⟩
    exact (hlead htwo).of_block_eq (hturned.outside 0 2 (Or.inl (by omega)) (by omega))

/-- Going back from an accepted exchange gives the patch up to its threshold. -/
theorem exchangeStandard_rebuilt (hp : p = 1 ∨ p = 2) (hq : q = 1 ∨ q = 2) (hcut : d.IsCut p)
    {e : StandardExchange (p + q) ℝ} (h : exchangeStandard tol row d = .ok e) :
    (d.sub (rebuilt e.factor e.after e.factor)).supNorm ≤ tol.threshold d.supNorm := by
  by_cases hone : p = 1 ∧ q = 1
  · have hsound := exchangeStandard_sound hp hq hcut h
    rw [hsound.rebuilt_eq (by rw [exchangePerturbed, if_pos hone]),
      Mat.supNorm_le_iff (tol.threshold_pos _).le]
    intro i j
    rw [Mat.get_sub, sub_self, abs_zero]
    exact (tol.threshold_pos _).le
  · rw [exchangeStandard, if_neg hone] at h
    obtain ⟨-, hback, first, hfirst, hlast⟩ := exchangeGeneral_eq_ok.mp h
    obtain ⟨hturned₁, -⟩ := standardizeSize_spec hq (by omega) hfirst
    obtain ⟨hturned₂, -⟩ := standardizeSize_spec hp (by omega) hlast
    rw [hturned₂.rebuilt_eq, hturned₁.rebuilt_eq]
    exact hback

/-- An exchange of the blocks of a form whose equation was not perturbed is accepted. -/
theorem exchangeStandard_swaps (hp : p = 1 ∨ p = 2) (hq : q = 1 ∨ q = 2) (row : Nat)
    (hcut : d.IsCut p) (hunperturbed : exchangePerturbed tol d = false)
    (hupper : p = 2 → pairAt d 0 ≠ none) (hlower : q = 2 → pairAt d p ≠ none) :
    ∃ e, exchangeStandard tol row d = .ok e ∧ Swaps d e := by
  by_cases hone : p = 1 ∧ q = 1
  · obtain ⟨rfl, rfl⟩ := hone
    exact ⟨exchangeReal d, by simp [exchangeStandard], (exchangeReal_spec tol hcut).2⟩
  · rw [exchangePerturbed, if_neg hone] at hunperturbed
    set u := exchangeBasis tol d with hu
    obtain ⟨hblock, hlead, htrail⟩ := transformed_exchangeBasis hcut hunperturbed
    have horth : u.IsOrthogonal := (isAdapted_completeBasis _ _).orthogonal
    obtain ⟨hclear, htest, hback⟩ :=
      tests_of_isCut horth horth hblock (tol.threshold_pos d.supNorm)
    have hpair₁ : q = 2 → pairAt (transformed u d u) 0 ≠ none := by
      rintro rfl
      rw [hlead.pairAt_eq]
      exact hlower rfl
    obtain ⟨first, hfirst, hturned₁⟩ := exists_standardizeSize row
      (e := ⟨u, transformed u d u⟩) hq (show 0 + q ≤ p + q by omega) hpair₁
    have htrail₁ : Mat.SimilarAt p first.after q d 0 :=
      (Mat.SimilarAt.of_eq (hturned₁.outside q p (Or.inr (by omega)) (by omega))).trans htrail
    have hpair₂ : p = 2 → pairAt first.after q ≠ none := by
      rintro rfl
      rw [htrail₁.pairAt_eq]
      exact hupper rfl
    obtain ⟨e, he, hturned₂⟩ := exists_standardizeSize row hp
      (show q + p ≤ p + q by omega) hpair₂
    refine ⟨e, ?_, ?_, hturned₂.inside.trans htrail₁⟩
    · rw [exchangeStandard, if_neg hone]
      refine exchangeGeneral_eq_ok.mpr ?_
      simp only [← hu, hclear]
      exact ⟨htest, hback, first, hfirst, he⟩
    · exact ((Mat.SimilarAt.of_eq (hturned₂.outside 0 q (Or.inl (by omega)) (by omega))).trans
        hturned₁.inside).trans hlead

end SchurForm
