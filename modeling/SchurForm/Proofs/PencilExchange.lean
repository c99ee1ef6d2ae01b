import SchurForm.Exchange.Pencil
import SchurForm.Proofs.ExchangeResidual

/-!
# Exchanges in a pencil

As in a standard form, with two factors: an accepted exchange is a change of basis of both matrices
by the same pair of orthogonal factors, up to four thresholds of each matrix. If the coupled
Sylvester equations were solved without a lifted pivot, an exchange of the block pairs of a form is
always accepted, nothing is lost, and the new block pairs are equivalent to the old ones in the
other order, with diagonal blocks of the second matrix.
-/

namespace SchurForm

open Scalar Matrix
open scoped Matrix.Norms.Frobenius

variable {m n p q : Nat}

/-- Whether a block is diagonal is seen from the block alone. -/
theorem Mat.DiagonalAt.of_block_eq {t : Mat m m ℝ} {t' : Mat n n ℝ} {i j : Nat}
    (h : (t.block i i : Mat 2 2 ℝ) = t'.block j j) (ht' : t'.DiagonalAt j) : t.DiagonalAt i := by
  exact ⟨(Mat.get_of_block_eq h two_pos one_lt_two).trans ht'.1,
    (Mat.get_of_block_eq h one_lt_two two_pos).trans ht'.2⟩

namespace PencilExchange

/-- What an accepted exchange guarantees. -/
structure Sound (tol : Tolerance ℝ) (a b : Mat (p + q) (p + q) ℝ) (e : PencilExchange (p + q) ℝ) :
    Prop where
  left_orthogonal : e.left.IsOrthogonal
  right_orthogonal : e.right.IsOrthogonal
  cut_s : e.s.IsCut q
  cut_t : e.t.IsCut q
  close_s : (e.s.sub (transformed e.left a e.right)).frobenius ≤ 4 * tol.threshold a.supNorm
  close_t : (e.t.sub (transformed e.left b e.right)).frobenius ≤ 4 * tol.threshold b.supNorm
  exact : (coupledSolution tol a b).perturbed = false →
    e.s = transformed e.left a e.right ∧ e.t = transformed e.left b e.right

/-- Going back from an exchange without perturbed equations gives both patches. -/
theorem Sound.rebuilt_eq {tol : Tolerance ℝ} {a b : Mat (p + q) (p + q) ℝ}
    {e : PencilExchange (p + q) ℝ} (h : Sound tol a b e)
    (hunperturbed : (coupledSolution tol a b).perturbed = false) :
    rebuilt e.left e.s e.right = a ∧ rebuilt e.left e.t e.right = b := by
  obtain ⟨hs, ht⟩ := h.exact hunperturbed
  rw [hs, ht, Mat.rebuilt_transformed h.left_orthogonal h.right_orthogonal,
    Mat.rebuilt_transformed h.left_orthogonal h.right_orthogonal]
  exact ⟨rfl, rfl⟩

/-- An exchange whose block pairs are in the order opposite to the patch. -/
structure Swaps (a b : Mat (p + q) (p + q) ℝ) (e : PencilExchange (p + q) ℝ) : Prop where
  lead : Mat.EquivalentAt q e.s e.t 0 a b p
  trail : Mat.EquivalentAt p e.s e.t q a b 0
  lead_diagonal : q = 2 → e.t.DiagonalAt 0
  trail_diagonal : p = 2 → e.t.DiagonalAt q

/-- One of the block pairs of an exchange has been turned by a further pair of rotations, after
which the block of the second matrix is diagonal. -/
structure Turned (size k : Nat) (e e' : PencilExchange m ℝ) : Prop where
  factors : ∃ w w' : Mat m m ℝ, w.IsOrthogonal ∧ w'.IsOrthogonal ∧
    e'.left = e.left.mul w ∧ e'.right = e.right.mul w' ∧
    e'.s = transformed w e.s w' ∧ e'.t = transformed w e.t w'
  cut : ∀ t, t ≤ k ∨ k + size ≤ t →
    (e.s.IsCut t → e'.s.IsCut t) ∧ (e.t.IsCut t → e'.t.IsCut t)
  outside : ∀ i count, i + count ≤ k ∨ k + size ≤ i → i + count ≤ m →
    (e'.s.block i i : Mat count count ℝ) = e.s.block i i ∧
      (e'.t.block i i : Mat count count ℝ) = e.t.block i i
  inside : Mat.EquivalentAt size e'.s e'.t k e.s e.t k
  diagonal : size = 2 → e'.t.DiagonalAt k

/-- A block pair of order one is left as it is. -/
theorem Turned.refl (k : Nat) (e : PencilExchange m ℝ) : Turned 1 k e e :=
  ⟨⟨Mat.identity, Mat.identity, Mat.isOrthogonal_identity, Mat.isOrthogonal_identity,
      (Mat.mul_identity _).symm, (Mat.mul_identity _).symm, (Mat.transformed_identity _).symm,
      (Mat.transformed_identity _).symm⟩,
    fun _ _ => ⟨id, id⟩, fun _ _ _ _ => ⟨rfl, rfl⟩, Mat.EquivalentAt.of_eq rfl rfl,
    fun h => absurd h (by norm_num)⟩

variable {e e' : PencilExchange m ℝ} {row k : Nat}

/-- Two orthogonal factors of order two that make the block of the second matrix in row `k` diagonal
turn the block pair. -/
theorem Turned.of_embed (hk : k + 2 ≤ m) {u v : Mat 2 2 ℝ} (hu : u.IsOrthogonal)
    (hv : v.IsOrthogonal) (e : PencilExchange m ℝ)
    (hdiagonal : (transformed (Mat.embed m k u) e.t (Mat.embed m k v)).DiagonalAt k) :
    Turned 2 k e ⟨e.left.mul (Mat.embed m k u), e.right.mul (Mat.embed m k v),
      transformed (Mat.embed m k u) e.s (Mat.embed m k v),
      transformed (Mat.embed m k u) e.t (Mat.embed m k v)⟩ := by
  refine ⟨⟨Mat.embed m k u, Mat.embed m k v, hu.embed hk, hv.embed hk, rfl, rfl, rfl, rfl⟩,
    fun c hc => ?_, fun i count hi him => ?_, ?_, fun _ => hdiagonal⟩
  · exact ⟨fun hcut => hcut.transformed_embed hk hc u v,
      fun hcut => hcut.transformed_embed hk hc u v⟩
  · exact ⟨Mat.block_transformed_embed_outside e.s hk hi him u v,
      Mat.block_transformed_embed_outside e.t hk hi him u v⟩
  · exact Mat.EquivalentAt.of_transformed hu hv (Mat.block_transformed_embed e.s hk u v)
      (Mat.block_transformed_embed e.t hk u v)

/-- Diagonalizing turns a block pair, and is refused only if the turned pair has no complex
eigenvalue. The entries that are put into the second matrix are those of the turned patch. -/
theorem exists_diagonalizeBlock (row : Nat) (hk : k + 2 ≤ m) (e : PencilExchange m ℝ) :
    ∃ e', Turned 2 k e e' ∧ e.diagonalizeBlock row k =
      if pencilPairAt e'.s e'.t k = none then .error (.pairSplit row) else .ok e' := by
  set block := diagonalize (e.t.get k k) (e.t.get k (k + 1)) (e.t.get (k + 1) k)
    (e.t.get (k + 1) (k + 1)) with hblock
  obtain ⟨hleft, hright, h00, h01, h10, h11⟩ := diagonalize_spec (e.t.get k k) (e.t.get k (k + 1))
    (e.t.get (k + 1) k) (e.t.get (k + 1) (k + 1))
  rw [← hblock] at hleft hright h00 h01 h10 h11
  obtain ⟨g00, g01, g10, g11⟩ := GivensRotation.get_rotate block.left block.right hk e.t
  set u := block.left.toMat with hu
  set v := block.right.toMat with hv
  set turned := block.right.rotateColumns k (k + 1) (block.left.rotateRows k (k + 1) e.t)
    with hturned
  set t := transformed (Mat.embed m k u) e.t (Mat.embed m k v) with ht
  have hturn : turned = t := GivensRotation.rotate_eq_transformed _ _ hk e.t
  rw [hturn] at g00 g01 g10 g11
  have hd0 : t.get k k = block.d0 := by
    rw [g00, ← h00]
    ring
  have hd01 : t.get k (k + 1) = 0 := by
    rw [g01, ← h01]
    ring
  have hd10 : t.get (k + 1) k = 0 := by
    rw [g10, ← h10]
    ring
  have hd1 : t.get (k + 1) (k + 1) = block.d1 := by
    rw [g11, ← h11]
    ring
  have hafter := Mat.ofFn_block_eq hd0 hd01 hd10 hd1
  refine ⟨_, Turned.of_embed hk hleft.isOrthogonal hright.isOrthogonal e ⟨hd01, hd10⟩, ?_⟩
  simp only [diagonalizeBlock, ← hblock, ← hturned, hturn, hafter,
    GivensRotation.rotateColumns_eq_mul block.left hk e.left,
    GivensRotation.rotateColumns_eq_mul block.right hk e.right,
    GivensRotation.rotate_eq_transformed block.left block.right hk e.s, ← hu, ← hv]
  rw [pencilPairAt, hd0, hd1]
  split
  · rename_i heq
    rw [if_neg (by rw [heq]; exact Option.some_ne_none _)]
  · rename_i heq
    rw [if_pos heq]

/-- Diagonalizing the block pair of either order turns it. -/
theorem diagonalizeSize_turned {size : Nat} (hsize : size = 1 ∨ size = 2) (hk : k + size ≤ m)
    (h : e.diagonalizeSize row k size = .ok e') : Turned size k e e' := by
  rcases hsize with rfl | rfl
  · obtain rfl : e = e' := by simpa [diagonalizeSize] using h
    exact Turned.refl k e
  · obtain ⟨next, hturned, hnext⟩ := exists_diagonalizeBlock row hk e
    rw [diagonalizeSize, if_pos rfl, hnext] at h
    split at h
    · exact nomatch h
    · obtain rfl : next = e' := by simpa using h
      exact hturned

/-- A block pair that is equivalent to one with a complex eigenvalue over a diagonal block, if it
has order two, can be diagonalized. -/
theorem exists_diagonalizeSize (row : Nat) {size : Nat} (hsize : size = 1 ∨ size = 2)
    (hk : k + size ≤ m) {a b : Mat n n ℝ} {j : Nat}
    (hequivalent : Mat.EquivalentAt size e.s e.t k a b j)
    (hpair : size = 2 → b.DiagonalAt j ∧ pencilPairAt a b j ≠ none) :
    ∃ e', e.diagonalizeSize row k size = .ok e' ∧ Turned size k e e' := by
  rcases hsize with rfl | rfl
  · exact ⟨e, by simp [diagonalizeSize], Turned.refl k e⟩
  · obtain ⟨next, hturned, hnext⟩ := exists_diagonalizeBlock row hk e
    obtain ⟨hdiagonal, hcomplex⟩ := hpair rfl
    refine ⟨next, ?_, hturned⟩
    rw [diagonalizeSize, if_pos rfl, hnext, if_neg]
    rw [(hturned.inside.trans hequivalent).pencilPairAt_eq (hturned.diagonal rfl) hdiagonal]
    exact hcomplex

/-- Turning a block pair does not change what going back gives. -/
theorem Turned.rebuilt_eq {size : Nat} (h : Turned size k e e') :
    rebuilt e'.left e'.s e'.right = rebuilt e.left e.s e.right ∧
      rebuilt e'.left e'.t e'.right = rebuilt e.left e.t e.right := by
  obtain ⟨w, w', hw, hw', hleft, hright, hs, ht⟩ := h.factors
  rw [hleft, hright, hs, ht, ← Mat.rebuilt_rebuilt, ← Mat.rebuilt_rebuilt,
    Mat.rebuilt_transformed hw hw', Mat.rebuilt_transformed hw hw']
  exact ⟨rfl, rfl⟩

/-- Turning both block pairs keeps what the tests have established. -/
theorem Turned.residual {size₁ size₂ k₁ k₂ : Nat} {first last : PencilExchange m ℝ}
    (h₁ : Turned size₁ k₁ e first) (h₂ : Turned size₂ k₂ first last)
    (hleft : e.left.IsOrthogonal) (hright : e.right.IsOrthogonal) :
    ∃ w w' : Mat m m ℝ, w.IsOrthogonal ∧ w'.IsOrthogonal ∧
      last.left.IsOrthogonal ∧ last.right.IsOrthogonal ∧
      last.s = transformed w e.s w' ∧ last.t = transformed w e.t w' ∧
      ∀ d : Mat m m ℝ, transformed last.left d last.right =
        transformed w (transformed e.left d e.right) w' := by
  obtain ⟨w₁, w₁', hw₁, hw₁', hleft₁, hright₁, hs₁, ht₁⟩ := h₁.factors
  obtain ⟨w₂, w₂', hw₂, hw₂', hleft₂, hright₂, hs₂, ht₂⟩ := h₂.factors
  rw [hleft₁, Mat.mul_mul] at hleft₂
  rw [hright₁, Mat.mul_mul] at hright₂
  refine ⟨w₁.mul w₂, w₁'.mul w₂', hw₁.mul hw₂, hw₁'.mul hw₂', hleft₂ ▸ hleft.mul (hw₁.mul hw₂),
    hright₂ ▸ hright.mul (hw₁'.mul hw₂'), ?_, ?_, fun d => ?_⟩
  · rw [hs₂, hs₁, Mat.transformed_transformed]
  · rw [ht₂, ht₁, Mat.transformed_transformed]
  · rw [hleft₂, hright₂, Mat.transformed_transformed]

end PencilExchange

open PencilExchange

variable {tol : Tolerance ℝ} {row : Nat} {a b : Mat (p + q) (p + q) ℝ}

/-- The basis that an exchange completes on the left. -/
noncomputable def pencilLeftBasis (tol : Tolerance ℝ) (a b : Mat (p + q) (p + q) ℝ) :
    Mat (p + q) (p + q) ℝ :=
  completeBasis (subspaceBasis (coupledSolution tol a b).left (coupledSolution tol a b).scale)

/-- The basis that an exchange completes on the right. -/
noncomputable def pencilRightBasis (tol : Tolerance ℝ) (a b : Mat (p + q) (p + q) ℝ) :
    Mat (p + q) (p + q) ℝ :=
  completeBasis (subspaceBasis (coupledSolution tol a b).right (coupledSolution tol a b).scale)

/-- An exchange passes two tests for each matrix and turns two block pairs. -/
theorem exchangePencil_eq_ok {e : PencilExchange (p + q) ℝ} :
    exchangePencil tol row a b = .ok e ↔
      let u := pencilLeftBasis tol a b
      let v := pencilRightBasis tol a b
      let s := (transformed u a v).clear q p 0 q
      let t := (transformed u b v).clear q p 0 q
      (lowerLeft (transformed u a v) p q).supNorm ≤ tol.threshold a.supNorm ∧
        (lowerLeft (transformed u b v) p q).supNorm ≤ tol.threshold b.supNorm ∧
        (a.sub (rebuilt u s v)).supNorm ≤ tol.threshold a.supNorm ∧
        (b.sub (rebuilt u t v)).supNorm ≤ tol.threshold b.supNorm ∧
        ∃ first, PencilExchange.diagonalizeSize row 0 q ⟨u, v, s, t⟩ = .ok first ∧
          first.diagonalizeSize row q p = .ok e := by
  simp only [exchangePencil, checked_bind_eq_ok, refuseAbove_eq_ok]
  constructor
  · rintro ⟨-, hlowerS, -, hlowerT, -, hbackS, -, hbackT, hturn⟩
    exact ⟨hlowerS, hlowerT, hbackS, hbackT, hturn⟩
  · rintro ⟨hlowerS, hlowerT, hbackS, hbackT, hturn⟩
    exact ⟨(), hlowerS, (), hlowerT, (), hbackS, (), hbackT, hturn⟩

/-- Without perturbed equations both transformed patches are block triangular, with block pairs that
are equivalent to those of the patches in the other order. -/
theorem transformed_pencilBases (hcutA : a.IsCut p) (hcutB : b.IsCut p)
    (hunperturbed : (coupledSolution tol a b).perturbed = false) :
    let u := pencilLeftBasis tol a b
    let v := pencilRightBasis tol a b
    (transformed u a v).IsCut q ∧ (transformed u b v).IsCut q ∧
      Mat.EquivalentAt q (transformed u a v) (transformed u b v) 0 a b p ∧
      Mat.EquivalentAt p (transformed u a v) (transformed u b v) q a b 0 := by
  intro u v
  obtain ⟨hsolvesA, hsolvesB, hscale⟩ := solveCoupledSylvester_spec (a.block 0 0) (a.block p p)
    (a.block 0 p) (b.block 0 0) (b.block p p) (b.block 0 p) tol.refinements hunperturbed
  have hu : IsAdapted u (coupledSolution tol a b).left (coupledSolution tol a b).scale :=
    isAdapted_completeBasis _ _
  have hv : IsAdapted v (coupledSolution tol a b).right (coupledSolution tol a b).scale :=
    isAdapted_completeBasis _ _
  obtain ⟨hblockA, hleadA⟩ := hu.transformed_lead hv hscale.ne' hcutA hsolvesA
  obtain ⟨hblockB, hleadB⟩ := hu.transformed_lead hv hscale.ne' hcutB hsolvesB
  exact ⟨hblockA, hblockB,
    ⟨_, _, hu.det_leadFactor_ne_zero hscale.ne', hv.det_leadFactor_ne_zero hscale.ne',
      hleadA, hleadB⟩,
    ⟨_, _, hu.det_trailFactor_ne_zero hscale.ne', hv.det_trailFactor_ne_zero hscale.ne',
      IsAdapted.transformed_trail hv.orthogonal hcutA hblockA,
      IsAdapted.transformed_trail hv.orthogonal hcutB hblockB⟩⟩

/-- An accepted exchange is a change of basis up to the thresholds, and makes a cut. -/
theorem exchangePencil_sound (hp : p = 1 ∨ p = 2) (hq : q = 1 ∨ q = 2) (hcutA : a.IsCut p)
    (hcutB : b.IsCut p) {e : PencilExchange (p + q) ℝ} (h : exchangePencil tol row a b = .ok e) :
    Sound tol a b e := by
  obtain ⟨-, -, hbackS, hbackT, first, hfirst, hlast⟩ := exchangePencil_eq_ok.mp h
  set u := pencilLeftBasis tol a b with hu
  set v := pencilRightBasis tol a b with hv
  have horthU : u.IsOrthogonal := (isAdapted_completeBasis _ _).orthogonal
  have horthV : v.IsOrthogonal := (isAdapted_completeBasis _ _).orthogonal
  have hturned₁ := diagonalizeSize_turned hq (by omega) hfirst
  have hturned₂ := diagonalizeSize_turned hp (by omega) hlast
  obtain ⟨w, w', hw, hw', hleft, hright, hs, ht, htransformed⟩ :=
    hturned₁.residual hturned₂ horthU horthV
  have hcut₁ := hturned₁.cut q (Or.inr (by omega))
  have hcut₂ := hturned₂.cut q (Or.inl le_rfl)
  refine ⟨hleft, hright, hcut₂.1 (hcut₁.1 (Mat.isCut_clear _)),
    hcut₂.2 (hcut₁.2 (Mat.isCut_clear _)), ?_, ?_, fun hexact => ?_⟩
  · rw [hs, htransformed, Mat.frobenius_transformed_sub hw hw']
    exact frobenius_cleared_le horthU horthV (by omega) (by omega) hbackS
  · rw [ht, htransformed, Mat.frobenius_transformed_sub hw hw']
    exact frobenius_cleared_le horthU horthV (by omega) (by omega) hbackT
  · obtain ⟨hblockA, hblockB, -, -⟩ := transformed_pencilBases hcutA hcutB hexact
    rw [hs, ht, htransformed, htransformed, hblockA.clear_eq, hblockB.clear_eq]
    exact ⟨rfl, rfl⟩

/-- Going back from an accepted exchange gives both patches up to their thresholds. -/
theorem exchangePencil_rebuilt (hp : p = 1 ∨ p = 2) (hq : q = 1 ∨ q = 2)
    {e : PencilExchange (p + q) ℝ} (h : exchangePencil tol row a b = .ok e) :
    (a.sub (rebuilt e.left e.s e.right)).supNorm ≤ tol.threshold a.supNorm ∧
      (b.sub (rebuilt e.left e.t e.right)).supNorm ≤ tol.threshold b.supNorm := by
  obtain ⟨-, -, hbackS, hbackT, first, hfirst, hlast⟩ := exchangePencil_eq_ok.mp h
  obtain ⟨hs₁, ht₁⟩ := (diagonalizeSize_turned hq (by omega) hfirst).rebuilt_eq
  obtain ⟨hs₂, ht₂⟩ := (diagonalizeSize_turned hp (by omega) hlast).rebuilt_eq
  rw [hs₂, ht₂, hs₁, ht₁]
  exact ⟨hbackS, hbackT⟩

/-- An exchange of the block pairs of a form whose equations were not perturbed is accepted. -/
theorem exchangePencil_swaps (hp : p = 1 ∨ p = 2) (hq : q = 1 ∨ q = 2) (row : Nat)
    (hcutA : a.IsCut p) (hcutB : b.IsCut p)
    (hunperturbed : (coupledSolution tol a b).perturbed = false)
    (hupper : p = 2 → b.DiagonalAt 0 ∧ pencilPairAt a b 0 ≠ none)
    (hlower : q = 2 → b.DiagonalAt p ∧ pencilPairAt a b p ≠ none) :
    ∃ e, exchangePencil tol row a b = .ok e ∧ Swaps a b e := by
  obtain ⟨hblockA, hblockB, hlead, htrail⟩ := transformed_pencilBases hcutA hcutB hunperturbed
  set u := pencilLeftBasis tol a b with hu
  set v := pencilRightBasis tol a b with hv
  have horthU : u.IsOrthogonal := (isAdapted_completeBasis _ _).orthogonal
  have horthV : v.IsOrthogonal := (isAdapted_completeBasis _ _).orthogonal
  obtain ⟨hclearA, htestA, hbackA⟩ :=
    tests_of_isCut horthU horthV hblockA (tol.threshold_pos a.supNorm)
  obtain ⟨hclearB, htestB, hbackB⟩ :=
    tests_of_isCut horthU horthV hblockB (tol.threshold_pos b.supNorm)
  obtain ⟨first, hfirst, hturned₁⟩ := exists_diagonalizeSize row
    (e := ⟨u, v, transformed u a v, transformed u b v⟩) hq (show 0 + q ≤ p + q by omega)
    hlead hlower
  have hsame (count : Nat) (hcount : count ≤ p) := hturned₁.outside q count (Or.inr (by omega))
    (by omega)
  have htrail₁ : Mat.EquivalentAt p first.s first.t q a b 0 :=
    (Mat.EquivalentAt.of_eq (hsame p le_rfl).1 (hsame p le_rfl).2).trans htrail
  obtain ⟨e, he, hturned₂⟩ := exists_diagonalizeSize row hp
    (show q + p ≤ p + q by omega) htrail₁ hupper
  have hkept (count : Nat) (hcount : count ≤ q) := hturned₂.outside 0 count (Or.inl (by omega))
    (by omega)
  refine ⟨e, ?_, ?_, hturned₂.inside.trans htrail₁, fun hq => ?_, hturned₂.diagonal⟩
  · refine exchangePencil_eq_ok.mpr ?_
    simp only [← hu, ← hv, hclearA, hclearB]
    exact ⟨htestA, htestB, hbackA, hbackB, first, hfirst, he⟩
  · exact ((Mat.EquivalentAt.of_eq (hkept q le_rfl).1 (hkept q le_rfl).2).trans
      hturned₁.inside).trans hlead
  · exact Mat.DiagonalAt.of_block_eq (hkept 2 hq.ge).2 (hturned₁.diagonal hq)

/-- The eigenvalue zero and the infinite eigenvalue are exchanged without a lifted pivot. -/
theorem coupledSolution_zero_infinity (tol : Tolerance ℝ) :
    (coupledSolution (p := 1) (q := 1) tol (Mat.ofRows2 0 1 0 1) (Mat.ofRows2 1 0 0 0)).perturbed =
      false := by
  have hsystem : (coupledSolution (p := 1) (q := 1) tol (Mat.ofRows2 0 1 0 1)
      (Mat.ofRows2 1 0 0 0)).perturbed =
        (PivotedFactors.ofMat (Mat.ofRows2 0 (-1) 1 0 : Mat 2 2 ℝ)).perturbed := by
    refine congrArg (fun m : Mat 2 2 ℝ => (PivotedFactors.ofMat m).perturbed)
      (Mat.ext_get fun i hi j hj => ?_)
    rw [Mat.get_ofFn, if_pos ⟨hi, hj⟩]
    interval_cases i <;> interval_cases j <;>
      simp [leftCoefficient, rightCoefficient, Mat.block, Mat.ofRows2]
  rw [hsystem]
  exact PivotedFactors.perturbed_quarterTurn

end SchurForm
