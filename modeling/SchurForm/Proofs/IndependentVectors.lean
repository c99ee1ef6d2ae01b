import SchurForm.Proofs.PackedBatches
import SchurForm.Proofs.PencilEigenvectors
import SchurForm.Proofs.ShiftedNorms

/-!
# The columns of a batch are linearly independent

Repeated and defective eigenvalues do not have enough eigenvectors, so independence does not come
from the eigenvalue equation. It comes from the shape of the vectors: the vector of a block ends
with the block, and in the rows of the block it is, up to one positive factor, the starting vector,
which is one for a real eigenvalue and has independent real and imaginary parts for a pair.
Perturbed pivots and rescaling on the way up change none of this.
-/

namespace SchurForm

open Scalar Block Matrix

variable {n rows : Nat}

section Multiples

/-- From row `first` on the vector is a positive multiple of another one. -/
def LeadingVector.IsMultipleFrom (first : Nat) (y x : LeadingVector rows ℝ) : Prop :=
  ∃ factor : ℝ, 0 < factor ∧ ∀ i, first ≤ i → y.entry i = factor * x.entry i

/-- A vector is a multiple of itself. -/
theorem LeadingVector.IsMultipleFrom.refl (first : Nat) (x : LeadingVector rows ℝ) :
    x.IsMultipleFrom first x :=
  ⟨1, one_pos, fun i _ => by rw [Complex.ofReal_one, one_mul]⟩

/-- A multiple of a multiple is a multiple. -/
theorem LeadingVector.IsMultipleFrom.trans {first : Nat} {x y z : LeadingVector rows ℝ}
    (h : z.IsMultipleFrom first y) (h' : y.IsMultipleFrom first x) : z.IsMultipleFrom first x := by
  obtain ⟨factor, hpos, hentry⟩ := h
  obtain ⟨factor', hpos', hentry'⟩ := h'
  refine ⟨factor * factor', mul_pos hpos hpos', fun i hi => ?_⟩
  rw [hentry i hi, hentry' i hi, Complex.ofReal_mul, mul_assoc]

/-- Steps for blocks above a row only multiply the vector from that row on. -/
theorem LeadingVector.IsMultipleFrom.foldl {σ : Type} (vector : σ → LeadingVector rows ℝ)
    {step : σ → Block ℝ → σ} {above : List (Block ℝ)} {first : Nat}
    (habove : ∀ c ∈ above, c.stop ≤ first)
    (hstep : ∀ c ∈ above, ∀ st, (vector (step st c)).IsMultipleFrom c.stop (vector st)) (st : σ) :
    (vector (above.foldl step st)).IsMultipleFrom first (vector st) := by
  induction above generalizing st with
  | nil => exact .refl _ _
  | cons c above ih =>
    obtain ⟨factor, hpos, hentry⟩ := hstep c List.mem_cons_self st
    have hfirst : (vector (step st c)).IsMultipleFrom first (vector st) :=
      ⟨factor, hpos, fun i hi => hentry i ((habove c List.mem_cons_self).trans hi)⟩
    exact (ih (fun d hd => habove d (List.mem_cons_of_mem c hd))
      (fun d hd => hstep d (List.mem_cons_of_mem c hd)) (step st c)).trans hfirst

/-- Whatever stands on the right-hand side, the scale of a solution is positive. -/
theorem ShiftedEquation.scale_solve_pos {p : Nat} (hp : p = 1 ∨ p = 2) (eqn : ShiftedEquation p ℝ)
    (right : Mat 2 2 ℝ) : 0 < (eqn.solve right).scale := by
  obtain ⟨e, hsolved⟩ := exists_solvedNear hp eqn (readPart_real (b := right))
  rw [← solve_readPart hp]
  exact hsolved.scale_pos

/-- A step for a block multiplies everything behind the block. -/
theorem StandardSweep.isMultipleFrom_step (sweep : StandardSweep n ℝ) (shiftRe shiftIm floor : ℝ)
    (x : LeadingVector rows ℝ) {c : Block ℝ} (hrows : c.stop ≤ rows) :
    (sweep.step shiftRe shiftIm floor x c).IsMultipleFrom c.stop x := by
  have hscale := ShiftedEquation.scale_solve_pos c.size_cases
    (sweep.equation shiftRe shiftIm floor c.start c.size) (x.rowsOf c.start c.size)
  obtain ⟨shrink, solved, hshrink, -, houtside, hupdate, -⟩ := sweep.exists_step_eq hrows rfl
  refine ⟨_, mul_pos hscale hshrink, fun i hi => ?_⟩
  rw [hupdate, if_neg (by rw [stop] at hi; omega), houtside i (Or.inr hi)]

/-- Entering the solution for a block multiplies everything behind the block. -/
theorem PencilSweep.isMultipleFrom_withSolution (x : LeadingVector rows ℝ) (c : Block ℝ)
    {solution : ShiftedSolution ℝ} (hscale : 0 < solution.scale) :
    (withSolution x c solution).IsMultipleFrom c.stop x := by
  have hkept (i : Nat) (hi : c.stop ≤ i) :=
    (if solution.scale < 1 then x.scaledBy solution.scale else x).entry_setRows_outside
      solution.x (Or.inr hi : i < c.start ∨ c.start + c.size ≤ i)
  by_cases hsmall : solution.scale < 1
  · refine ⟨solution.scale, hscale, fun i hi => (hkept i hi).trans ?_⟩
    rw [if_pos hsmall]
    exact x.entry_times solution.scale i
  · refine ⟨1, one_pos, fun i hi => (hkept i hi).trans ?_⟩
    rw [if_neg hsmall, Complex.ofReal_one, one_mul]

/-- A step for a block multiplies everything behind the block. -/
theorem PencilSweep.isMultipleFrom_step (sweep : PencilSweep n ℝ) (shift : PencilShift ℝ)
    (floor : ℝ) (st : Rising rows ℝ) {c : Block ℝ} (hrows : c.stop ≤ rows) :
    (sweep.step shift floor st c).x.IsMultipleFrom c.stop st.x := by
  have hscale := ShiftedEquation.scale_solve_pos c.size_cases
    (sweep.equation shift floor c.start c.size) (st.x.rowsOf c.start c.size)
  obtain ⟨shrink, shrunk, hshrink, hshrunk, hupdate, -⟩ := sweep.exists_step_eq hrows rfl
  have hshrunk : (sweep.step shift floor st c).x.IsMultipleFrom c.stop
      (withSolution st.x c _) := ⟨shrink, hshrink, fun i hi => by
    rw [hupdate, if_neg (by rw [stop] at hi; omega), hshrunk]⟩
  exact hshrunk.trans (isMultipleFrom_withSolution st.x c hscale)

end Multiples

section Pieces

/-- In the rows of its block a vector is not singular: the entry for a real eigenvalue is not zero,
and the real and imaginary parts for a pair are independent. -/
def LeadingVector.NonsingularAt (x : LeadingVector rows ℝ) : Block ℝ → Prop
  | .real k => x.re.get k ≠ 0
  | .pair k _ _ => x.re.get k * x.im.get (k + 1) - x.re.get (k + 1) * x.im.get k ≠ 0

/-- A multiple of a vector is nonsingular in the rows of a block if the vector is. -/
theorem LeadingVector.NonsingularAt.of_isMultipleFrom {x y : LeadingVector rows ℝ} {b : Block ℝ}
    (hx : x.NonsingularAt b) (h : y.IsMultipleFrom b.start x) : y.NonsingularAt b := by
  obtain ⟨factor, hpos, hentry⟩ := h
  have hre (i : Nat) (hi : b.start ≤ i) : y.re.get i = factor * x.re.get i := by
    simpa [entry] using congrArg Complex.re (hentry i hi)
  have him (i : Nat) (hi : b.start ≤ i) : y.im.get i = factor * x.im.get i := by
    simpa [entry] using congrArg Complex.im (hentry i hi)
  cases b with
  | real k =>
    change y.re.get k ≠ 0
    rw [hre k le_rfl]
    exact mul_ne_zero hpos.ne' hx
  | pair k _ _ =>
    change y.re.get k * y.im.get (k + 1) - y.re.get (k + 1) * y.im.get k ≠ 0
    have hbehind : k ≤ k + 1 := Nat.le_succ k
    rw [hre k le_rfl, him k le_rfl, hre _ hbehind, him _ hbehind]
    have hproduct : factor * x.re.get k * (factor * x.im.get (k + 1)) -
        factor * x.re.get (k + 1) * (factor * x.im.get k) = factor ^ 2 *
          (x.re.get k * x.im.get (k + 1) - x.re.get (k + 1) * x.im.get k) := by ring
    rw [hproduct]
    exact mul_ne_zero (pow_ne_zero 2 hpos.ne') hx

/-- A complex null vector of a real entry and one that is not real has independent parts. -/
theorem Ascent.nonsingularAt_pair {m : Nat → Nat → ℂ} {real : Prop} {bound re im upper : ℝ}
    {k : Nat} {x : LeadingVector (k + 2) ℝ} (h : Ascent m real bound [] k x 0)
    (hdiagonal : (m k k).im ≠ 0) (hupper : m k (k + 1) = upper) (hne : upper ≠ 0) :
    x.NonsingularAt (.pair k re im) := by
  have hrow := h.solved k le_rfl (by omega)
  rw [Finset.sum_Ico_succ_top (by omega), Finset.sum_Ico_succ_top (by omega), Finset.Ico_self,
    Finset.sum_empty, zero_add, hupper] at hrow
  have hrow_re := congrArg Complex.re hrow
  have hrow_im := congrArg Complex.im hrow
  simp [LeadingVector.entry] at hrow_re hrow_im
  -- A vanishing determinant makes the first row vanish, and with it the second one.
  intro hzero
  have hfirst : x.re.get k = 0 ∧ x.im.get k = 0 := by
    have hsquares : (m k k).im * (x.re.get k ^ 2 + x.im.get k ^ 2) = 0 := by
      linear_combination x.re.get k * hrow_im - x.im.get k * hrow_re - upper * hzero
    have hsum := (mul_eq_zero.mp hsquares).resolve_left hdiagonal
    exact ⟨pow_eq_zero_iff two_ne_zero |>.mp (by nlinarith [sq_nonneg (x.im.get k)]),
      pow_eq_zero_iff two_ne_zero |>.mp (by nlinarith [sq_nonneg (x.re.get k)])⟩
  have hsecond : x.re.get (k + 1) = 0 ∧ x.im.get (k + 1) = 0 := by
    simpa [hfirst.1, hfirst.2, hne] using And.intro hrow_re hrow_im
  obtain ⟨i, hi, hentry⟩ := h.nonzero
  refine hentry ?_
  rcases (by omega : i = k ∨ i = k + 1 ∨ k + 2 ≤ i) with rfl | rfl | hi
  · exact Complex.ext hfirst.1 hfirst.2
  · exact Complex.ext hsecond.1 hsecond.2
  · exact x.entry_of_le hi

end Pieces

section Engines

variable {front back : List (Block ℝ)} {b : Block ℝ}

/-- The vector of a block of a standard form is not singular in the rows of the block. -/
theorem StandardSweep.nonsingularAt_vector (sweep : StandardSweep n ℝ)
    (h : sweep.s.Classified (front ++ b :: back)) :
    (sweep.vector b front.reverse).NonsingularAt b := by
  have habove : ∀ c ∈ front.reverse, c.stop ≤ b.start :=
    fun c hc => h.tiles.stop_le_start (List.mem_reverse.mp hc)
  have hclimb (shiftRe shiftIm : ℝ) (start : LeadingVector b.stop ℝ) :
      (sweep.climb shiftRe shiftIm start front.reverse).IsMultipleFrom b.start start :=
    LeadingVector.IsMultipleFrom.foldl id habove (fun c hc x =>
      sweep.isMultipleFrom_step _ _ _ x ((habove c hc).trans (Nat.le_add_right _ _))) start
  cases b with
  | real k =>
    refine LeadingVector.NonsingularAt.of_isMultipleFrom ?_ (hclimb (sweep.s.get k k) 0 _)
    change (startReal sweep.s k).re.get k ≠ 0
    simp [startReal]
  | pair k re im =>
    refine LeadingVector.NonsingularAt.of_isMultipleFrom ?_ (hclimb re im _)
    have hpair : pairAt sweep.s k = some (re, im) := h.pairs (.pair k re im) (by simp)
    obtain ⟨him, -⟩ := characteristic_of_complexEigenvalue? hpair
    have hproduct := offDiagonal_ne_zero_of_complexEigenvalue? hpair
    refine (startPair_ascent le_rfl hpair).nonsingularAt_pair ?_ (shiftedEntry_of_ne _ _ ?_) ?_
    · simpa [shiftedEntry_self] using him.ne'
    · omega
    · exact_mod_cast left_ne_zero_of_mul hproduct

/-- The vector of a block of a pencil is not singular in the rows of the block. -/
theorem PencilSweep.Normed.nonsingularAt_vector {sweep : PencilSweep n ℝ} (hnormed : sweep.Normed)
    (h : sweep.s.PencilClassified sweep.t (front ++ b :: back)) :
    (sweep.vector b front.reverse).NonsingularAt b := by
  have habove : ∀ c ∈ front.reverse, c.stop ≤ b.start :=
    fun c hc => h.tiles.stop_le_start (List.mem_reverse.mp hc)
  have hclimb (shift : PencilShift ℝ) (start : Rising b.stop ℝ) :
      (sweep.climb shift start front.reverse).IsMultipleFrom b.start start.x :=
    LeadingVector.IsMultipleFrom.foldl Rising.x habove (fun c hc st =>
      sweep.isMultipleFrom_step _ _ st ((habove c hc).trans (Nat.le_add_right _ _))) start
  cases b with
  | real k =>
    by_cases hdegenerate : sweep.degenerate k = true
    · have hvector : sweep.vector (.real k) front.reverse = unitVector k := if_pos hdegenerate
      rw [hvector]
      change (unitVector k : LeadingVector (k + 1) ℝ).re.get k ≠ 0
      simp [unitVector]
    · have hvector : sweep.vector (.real k) front.reverse =
          sweep.climb (sweep.shiftOfRealAt k) (sweep.startReal (sweep.shiftOfRealAt k) k)
            front.reverse := if_neg hdegenerate
      rw [hvector]
      refine LeadingVector.NonsingularAt.of_isMultipleFrom ?_ (hclimb _ _)
      change (sweep.startReal _ k).x.re.get k ≠ 0
      simp [startReal]
  | pair k re im =>
    refine LeadingVector.NonsingularAt.of_isMultipleFrom ?_ (hclimb (sweep.shiftOfPair re im) _)
    have hpair : pencilPairAt sweep.s sweep.t k = some (re, im) :=
      h.pairs (.pair k re im) (by simp)
    have hfound : pencilPairAt sweep.s sweep.t k ≠ none := hpair.trans_ne (Option.some_ne_none _)
    have hdiagonal := h.diagonal (.pair k re im) (by simp) rfl
    have hstands := hnormed.standsFor_shiftOfPair hpair
    obtain ⟨h0, -⟩ := diagonal_ne_zero_of_pencilPairAt hfound
    have hproduct := offDiagonal_ne_zero_of_complexEigenvalue?
      ((pencilPairAt_eq_complexEigenvalue? hfound).symm.trans hpair)
    have hupper : sweep.entry (sweep.shiftOfPair re im) k (k + 1) =
        (((sweep.shiftOfPair re im).a * sweep.s.get k (k + 1) : ℝ) : ℂ) := by
      rw [entry, show sweep.t.get k (k + 1) = 0 from hdiagonal.1]
      simp
    refine (startPair_ascent hstands hdiagonal hpair le_rfl).nonsingularAt_pair ?_ hupper ?_
    · simpa [entry, PencilShift.b] using ⟨im_ne_zero_of_pair hstands, h0⟩
    · have hquotient : sweep.s.get k (k + 1) / sweep.t.get k k ≠ 0 := by
        exact_mod_cast left_ne_zero_of_mul hproduct
      exact mul_ne_zero hstands.2.1.ne' (div_ne_zero_iff.mp hquotient).1

end Engines

section Coordinates

/-- Vectors that a linear map sends to zero stay independent together with vectors whose images are
independent. -/
theorem linearIndepOn_union_of_map {ι V W : Type} [AddCommGroup V] [Module ℝ V] [AddCommGroup W]
    [Module ℝ W] {v : ι → V} {s t : Set ι} {f : V →ₗ[ℝ] W} (hs : LinearIndepOn ℝ v s)
    (hzero : ∀ i ∈ s, f (v i) = 0) (ht : LinearIndepOn ℝ (f ∘ v) t) :
    LinearIndepOn ℝ v (s ∪ t) := by
  have hkernel : Submodule.span ℝ (v '' s) ≤ LinearMap.ker f :=
    Submodule.span_le.mpr (Set.image_subset_iff.mpr hzero)
  refine hs.union ht.of_comp (Disjoint.mono_left hkernel ?_)
  simpa [Set.image_eq_range] using (Submodule.range_ker_disjoint ht).symm

/-- What an invertible factor expands can be read off again. -/
theorem exists_coordinates {factor : Option (Mat n n ℝ)}
    (hfactor : ∀ q ∈ factor, IsUnit q.toMatrix) :
    ∃ coordinates : (Fin n → ℝ) →ₗ[ℝ] (Fin n → ℝ), ∀ (rows : Nat) (x : Vec rows ℝ), rows ≤ n →
      coordinates (fun i => (inAllRows factor x : Vec n ℝ).get i) = fun i : Fin n => x.get i := by
  cases factor with
  | none => exact ⟨LinearMap.id, fun rows x _ => funext fun i => by simp [inAllRows]⟩
  | some q =>
    refine ⟨q.toMatrix⁻¹.mulVecLin, fun rows x hrows => ?_⟩
    have hexpanded : (fun i : Fin n => (inAllRows (some q) x : Vec n ℝ).get i) =
        q.toMatrix *ᵥ fun i => x.get i := funext (get_inAllRows_some q x hrows)
    have hunit : IsUnit q.toMatrix.det := (Matrix.isUnit_iff_isUnit_det _).mp (hfactor q rfl)
    rw [hexpanded, Matrix.mulVecLin_apply, Matrix.mulVec_mulVec, Matrix.nonsing_inv_mul _ hunit,
      Matrix.one_mulVec]

end Coordinates

section Batches

variable {blocks front back : List (Block ℝ)} {b : Block ℝ} {selected : List Bool}

/-- The positions of the columns of a block in a batch. -/
def Block.columnPlaces (selected : List Bool) (b : Block ℝ) : Set Nat :=
  Set.Ico ((selected.take b.start).count true) ((selected.take b.start).count true + b.size)

/-- The positions of the columns that hold vectors: those of the selected blocks that have not
failed. -/
def Eigenvectors.vectorPlaces (r : Eigenvectors n ℝ) (blocks : List (Block ℝ))
    (selected : List Bool) : Set Nat :=
  {j | ∃ b ∈ blocks, flagAt selected b.start = true ∧ b.start ∉ r.failed ∧
    j ∈ b.columnPlaces selected}

/-- A column of a block is a column of the batch. -/
theorem Eigenvectors.getElem?_columnsOf {r : Eigenvectors n ℝ} {c : Nat} {column : Vec n ℝ}
    (h : (r.columnsOf selected b)[c]? = some column) :
    r.columns[(selected.take b.start).count true + c]? = some column := by
  rw [columnsOf, List.getElem?_take, Option.ite_none_right_eq_some, List.getElem?_drop] at h
  exact h.2

/-- The columns of a batch, in coordinates in which they are triangular by blocks: those of a block
are, up to one factor, the parts of its vector, which end with the block and are not singular in its
rows. -/
def Eigenvectors.TriangularIn (r : Eigenvectors n ℝ) (blocks : List (Block ℝ))
    (selected : List Bool) (coordinates : (Fin n → ℝ) →ₗ[ℝ] (Fin n → ℝ)) : Prop :=
  ∀ b ∈ blocks, flagAt selected b.start = true → b.start ∉ r.failed →
    ∃ (x : LeadingVector b.stop ℝ) (size : ℝ), x.NonsingularAt b ∧ size ≠ 0 ∧
      ∀ (c : Nat) (part : Vec b.stop ℝ), (x.parts b.isPair)[c]? = some part →
        coordinates (fun i => r.matrix.get i ((selected.take b.start).count true + c)) =
          fun i : Fin n => part.get i / size

/-- The columns for two lists of blocks are those of either list. -/
theorem Eigenvectors.vectorPlaces_append (r : Eigenvectors n ℝ) :
    r.vectorPlaces (front ++ back) selected =
      r.vectorPlaces front selected ∪ r.vectorPlaces back selected := by
  ext j
  simp [vectorPlaces, or_and_right, exists_or]

/-- A real eigenvalue has one column, behind those of the selected rows above it. -/
theorem Block.columnPlaces_real (k : Nat) :
    (Block.real k : Block ℝ).columnPlaces selected = {(selected.take k).count true} := by
  ext j
  simp only [columnPlaces, start, size, Set.mem_Ico, Set.mem_singleton_iff]
  omega

/-- A pair has two columns, behind those of the selected rows above it. -/
theorem Block.columnPlaces_pair (k : Nat) (re im : ℝ) :
    (Block.pair k re im).columnPlaces selected =
      {(selected.take k).count true, (selected.take k).count true + 1} := by
  ext j
  simp only [columnPlaces, start, size, Set.mem_Ico, Set.mem_insert_iff, Set.mem_singleton_iff]
  omega

/-- Every column of a batch belongs to a selected block. -/
theorem exists_mem_columnPlaces {position count j : Nat} (htiles : Tiles 0 blocks n)
    (hselected : checkSelection blocks selected position = .ok count)
    (hj : j < selected.count true) :
    ∃ b ∈ blocks, flagAt selected b.start = true ∧ j ∈ b.columnPlaces selected := by
  obtain ⟨hlength, hpairs⟩ := checkSelection_fits htiles hselected
  rw [← totalSize_selected htiles hselected, ← Nat.zero_add (totalSize _)] at hj
  obtain ⟨⟨row, b⟩, hplace, hfirst, hlast⟩ := exists_placed_row (Nat.zero_le j) hj
  obtain ⟨chosen, rest, hchosen, hrow⟩ := exists_split_of_mem_placed hplace
  -- The blocks above `b` are those that the chosen ones were filtered from.
  obtain ⟨above, behind, rfl, habove, hbehind⟩ := List.filter_eq_append_iff.mp hchosen
  obtain ⟨skipped, below, rfl, hskipped, hflag, -⟩ := List.filter_eq_cons_iff.mp hbehind
  have hsplit : above ++ (skipped ++ b :: below) = (above ++ skipped) ++ b :: below := by simp
  have hoffset : (selected.take b.start).count true = row := by
    rw [hsplit] at htiles hpairs
    rw [count_take_start htiles hpairs hlength, List.filter_append, habove,
      List.filter_eq_nil_iff.mpr hskipped]
    simpa using hrow.symm
  exact ⟨b, by simp, hflag, by rw [columnPlaces, hoffset]; exact ⟨hfirst, hlast⟩⟩

/-- If no block has failed, independence of the vectors is independence of all columns. -/
theorem linearIndependent_of_isComplete {r : Eigenvectors n ℝ} {position count : Nat}
    (htiles : Tiles 0 blocks n) (hselected : checkSelection blocks selected position = .ok count)
    (hwidth : r.columns.length = selected.count true) (hcomplete : r.isComplete = true)
    (h : LinearIndepOn ℝ (fun (j : Nat) (i : Fin n) => r.matrix.get i j)
      (r.vectorPlaces blocks selected)) :
    LinearIndependent ℝ fun (j : Fin r.columns.length) (i : Fin n) => r.matrix.get i j := by
  have hfailed : r.failed = [] := List.isEmpty_iff.mp hcomplete
  have hplace (j : Fin r.columns.length) : j.val ∈ r.vectorPlaces blocks selected := by
    obtain ⟨b, hb, hflag, hj⟩ := exists_mem_columnPlaces htiles hselected
      (j.isLt.trans_eq hwidth)
    exact ⟨b, hb, hflag, by simp [hfailed], hj⟩
  have hinjective : Function.Injective fun j : Fin r.columns.length =>
      (⟨j, hplace j⟩ : r.vectorPlaces blocks selected) :=
    fun _ _ hj => Fin.ext (congrArg Subtype.val hj)
  exact (LinearIndependent.comp h _ hinjective :)

/-- The entries of a vector from row `first` on. -/
def rowsFrom (first : Nat) : (Fin n → ℝ) →ₗ[ℝ] ({i : Fin n // first ≤ i} → ℝ) :=
  LinearMap.funLeft ℝ ℝ Subtype.val

namespace Eigenvectors.TriangularIn

variable {r : Eigenvectors n ℝ} {coordinates : (Fin n → ℝ) →ₗ[ℝ] (Fin n → ℝ)}

/-- The columns of a block end with it. -/
theorem rowsFrom_eq_zero (h : r.TriangularIn blocks selected coordinates) (hb : b ∈ blocks)
    (hflag : flagAt selected b.start = true) (hfailed : b.start ∉ r.failed) {j first : Nat}
    (hj : j ∈ b.columnPlaces selected) (hfirst : b.stop ≤ first) :
    rowsFrom first (coordinates fun i => r.matrix.get i j) = 0 := by
  obtain ⟨x, size, -, -, hcolumns⟩ := h b hb hflag hfailed
  obtain ⟨c, rfl⟩ := Nat.exists_eq_add_of_le hj.1
  have hlength : (x.parts b.isPair).length = b.size := by cases b <;> rfl
  have hc : c < (x.parts b.isPair).length := by have := hj.2; omega
  rw [hcolumns c _ (List.getElem?_eq_getElem hc)]
  funext i
  change Vec.get _ _ / size = 0
  rw [Vec.get_of_le _ (hfirst.trans i.2), zero_div]

/-- In the rows from its first one on the columns of a block are independent. -/
theorem linearIndepOn_block (h : r.TriangularIn blocks selected coordinates) (hb : b ∈ blocks)
    (hstop : b.stop ≤ n) (hflag : flagAt selected b.start = true) (hfailed : b.start ∉ r.failed) :
    LinearIndepOn ℝ (((rowsFrom b.start).comp coordinates) ∘
      fun (j : Nat) (i : Fin n) => r.matrix.get i j) (b.columnPlaces selected) := by
  obtain ⟨x, size, hnonsingular, hsize, hcolumns⟩ := h b hb hflag hfailed
  cases b with
  | real k =>
    rw [columnPlaces_real, linearIndepOn_singleton_iff]
    intro hzero
    have hrow := congrFun hzero ⟨⟨k, hstop⟩, le_rfl⟩
    have hentry : x.re.get k / size = 0 :=
      (congrFun (hcolumns 0 x.re rfl) ⟨k, hstop⟩).symm.trans hrow
    exact hnonsingular ((div_eq_zero_iff.mp hentry).resolve_right hsize)
  | pair k re im =>
    rw [columnPlaces_pair, LinearIndepOn.pair_iff _ (Nat.succ_ne_self _).symm]
    intro c d hzero
    have hrows : k + 2 ≤ n := hstop
    -- Both rows of the block give an equation for the coefficients; its determinant is not zero.
    have hrow (i : Nat) (hi : i < n) (hk : k ≤ i) : c * x.re.get i + d * x.im.get i = 0 := by
      have hcombined : c * (x.re.get i / size) + d * (x.im.get i / size) = 0 :=
        (congrArg₂ (fun u v => c * u + d * v) (congrFun (hcolumns 0 x.re rfl) ⟨i, hi⟩)
          (congrFun (hcolumns 1 x.im rfl) ⟨i, hi⟩)).symm.trans (congrFun hzero ⟨⟨i, hi⟩, hk⟩)
      simpa [mul_div_assoc', ← add_div, hsize] using hcombined
    have hfirst := hrow k (by omega) le_rfl
    have hsecond := hrow (k + 1) (by omega) (Nat.le_succ k)
    constructor
    · refine (mul_eq_zero.mp ?_).resolve_right hnonsingular
      linear_combination x.im.get (k + 1) * hfirst - x.im.get k * hsecond
    · refine (mul_eq_zero.mp ?_).resolve_right hnonsingular
      linear_combination x.re.get k * hsecond - x.re.get (k + 1) * hfirst

/-- The columns of all blocks are independent. -/
theorem linearIndepOn {last : Nat} (h : r.TriangularIn blocks selected coordinates)
    (htiles : Tiles 0 blocks last) (hlast : last ≤ n) :
    LinearIndepOn ℝ (fun (j : Nat) (i : Fin n) => r.matrix.get i j)
      (r.vectorPlaces blocks selected) := by
  -- Seen from the first row of the last block on, the columns of the blocks above it vanish.
  induction blocks using List.reverseRecOn generalizing last with
  | nil => simp [vectorPlaces]
  | append_singleton front b ih =>
    obtain ⟨hfront, hstart, -⟩ := htiles.append
    have hb : b ∈ front ++ [b] := by simp
    have hstop : b.stop ≤ n := (htiles.stop_le hb).trans hlast
    have habove : LinearIndepOn ℝ (fun (j : Nat) (i : Fin n) => r.matrix.get i j)
        (r.vectorPlaces front selected) := by
      refine ih (fun c hc => h c (List.mem_append_left _ hc)) (hstart ▸ hfront) ?_
      rw [stop] at hstop
      omega
    rw [vectorPlaces_append]
    refine linearIndepOn_union_of_map (f := (rowsFrom b.start).comp coordinates) habove ?_ ?_
    · rintro j ⟨c, hc, hflag, hfailed, hj⟩
      exact h.rowsFrom_eq_zero (List.mem_append_left _ hc) hflag hfailed hj
        (htiles.stop_le_start hc)
    · rcases (r.vectorPlaces [b] selected).eq_empty_or_nonempty with
        hnone | ⟨_, c, hc, hflag, hfailed, -⟩
      · rw [hnone]
        exact linearIndepOn_empty _ _
      · obtain rfl := List.mem_singleton.mp hc
        refine (h.linearIndepOn_block hb hstop hflag hfailed).mono ?_
        rintro j ⟨d, hd, -, -, hj⟩
        exact List.mem_singleton.mp hd ▸ hj

end Eigenvectors.TriangularIn

/-- A batch of vectors that end with their blocks and are not singular there is triangular in the
coordinates of the form. -/
theorem exists_triangularIn_packColumns {position count : Nat} (norm : Normalization)
    {factor : Option (Mat n n ℝ)} (vector : (b : Block ℝ) → List (Block ℝ) → LeadingVector b.stop ℝ)
    (htiles : Tiles 0 blocks n) (hselected : checkSelection blocks selected position = .ok count)
    (hfactor : ∀ q ∈ factor, IsUnit q.toMatrix)
    (hnonsingular : ∀ front b back, blocks = front ++ b :: back →
      (vector b front.reverse).NonsingularAt b) :
    ∃ coordinates, (packColumns (fun b above => (vector b above).eigenvector? norm factor b.isPair)
      (selectedWithAbove blocks selected)).TriangularIn blocks selected coordinates := by
  obtain ⟨hlength, hpairs⟩ := checkSelection_fits htiles hselected
  obtain ⟨coordinates, hcoordinates⟩ := exists_coordinates hfactor
  refine ⟨coordinates, fun b hb hflag hfailed => ?_⟩
  obtain ⟨front, back, hsplit⟩ := List.append_of_mem hb
  obtain ⟨v, hfind⟩ := Option.ne_none_iff_exists'.mp
    (mt (start_mem_failed htiles hsplit hflag).mpr hfailed)
  obtain ⟨size, hsize, -, hcolumns⟩ := LeadingVector.exists_columns_eq hfind
  have hown : (packColumns (fun b above => (vector b above).eigenvector? norm factor b.isPair)
      (selectedWithAbove blocks selected)).columnsOf selected b = v.columns := by
    rw [columnsOf_eq (fun _ _ _ => LeadingVector.length_columns_eq_size) htiles hpairs hlength
      hsplit hflag, hfind]
  refine ⟨vector b front.reverse, size, hnonsingular front b back hsplit, hsize, fun c part hpart =>
    ?_⟩
  have hcolumn := congrArg (fun columns => columns[c]?) (hown.trans hcolumns)
  simp only [List.getElem?_map, hpart, Option.map_some] at hcolumn
  have hdivided : (fun i : Fin n => (packColumns (fun b above =>
        (vector b above).eigenvector? norm factor b.isPair)
          (selectedWithAbove blocks selected)).matrix.get i
            ((selected.take b.start).count true + c)) =
      size⁻¹ • fun i : Fin n => (inAllRows factor part : Vec n ℝ).get i := by
    funext i
    rw [Eigenvectors.get_matrix (Eigenvectors.getElem?_columnsOf hcolumn)]
    simp [div_eq_inv_mul]
  rw [hdivided, map_smul, hcoordinates _ part (htiles.stop_le hb)]
  funext i
  exact (div_eq_inv_mul _ _).symm

end Batches

/-- The columns of the blocks that have not failed are linearly independent, and these are all
columns if the batch is complete. This holds for every selection that fits a standard form or a
pencil, either normalization, and no factor or one that is invertible; eigenvalues may be repeated,
defective or infinite, and pivots may have been perturbed. -/
theorem eigenvectors_linearIndependent (norm : Normalization) :
    (∀ (form : StandardForm n ℝ) (blocks : List (Block ℝ)) (selected : List Bool) (count : Nat),
      diagonalBlocks form.s = .ok blocks → checkSelection blocks selected 2 = .ok count →
      (∀ q ∈ form.q, IsUnit q.toMatrix) →
      ∃ r, form.eigenvectors norm selected = .ok r ∧
        LinearIndepOn ℝ (fun (j : Nat) (i : Fin n) => r.matrix.get i j)
          (r.vectorPlaces blocks selected) ∧
        (r.isComplete = true →
          LinearIndependent ℝ fun (j : Fin r.columns.length) (i : Fin n) => r.matrix.get i j)) ∧
    (∀ (form : PencilForm n ℝ) (blocks : List (Block ℝ)) (selected : List Bool) (count : Nat),
      pencilBlocks form.s form.t = .ok blocks → checkSelection blocks selected 2 = .ok count →
      (∀ z ∈ form.z, IsUnit z.toMatrix) →
      ∃ r, form.eigenvectors norm selected = .ok r ∧
        LinearIndepOn ℝ (fun (j : Nat) (i : Fin n) => r.matrix.get i j)
          (r.vectorPlaces blocks selected) ∧
        (r.isComplete = true →
          LinearIndependent ℝ fun (j : Fin r.columns.length) (i : Fin n) => r.matrix.get i j)) := by
  refine ⟨fun form blocks selected count hblocks hselected hfactor => ?_,
    fun form blocks selected count hblocks hselected hfactor => ?_⟩
  · have hclassified := classified_of_diagonalBlocks hblocks
    obtain ⟨coordinates, htriangular⟩ := exists_triangularIn_packColumns norm
      (StandardSweep.vector ⟨form.s, sumsAboveBlocks form.s blocks⟩) hclassified.tiles hselected
      hfactor fun front b back hsplit =>
        StandardSweep.nonsingularAt_vector _ (hsplit ▸ hclassified)
    have hr : form.eigenvectors norm selected = _ :=
      StandardForm.eigenvectors_eq_ok hblocks hselected
    have hindependent := htriangular.linearIndepOn hclassified.tiles le_rfl
    exact ⟨_, hr, hindependent, fun hcomplete =>
      linearIndependent_of_isComplete hclassified.tiles hselected
        (StandardForm.width_eigenvectors hr) hcomplete hindependent⟩
  · have hclassified := classified_of_pencilBlocks hblocks
    obtain ⟨coordinates, htriangular⟩ := exists_triangularIn_packColumns norm
      (PencilSweep.vector (PencilSweep.ofPencil form.s form.t blocks)) hclassified.tiles hselected
      hfactor fun front b back hsplit =>
        (PencilSweep.normed_ofPencil form.s form.t blocks).nonsingularAt_vector
          (hsplit ▸ hclassified)
    have hr : form.eigenvectors norm selected = _ :=
      PencilForm.eigenvectors_eq_ok hblocks hselected
    have hindependent := htriangular.linearIndepOn hclassified.tiles le_rfl
    exact ⟨_, hr, hindependent, fun hcomplete =>
      linearIndependent_of_isComplete hclassified.tiles hselected
        (PencilForm.width_eigenvectors hr) hcomplete hindependent⟩

/-- A defective eigenvalue of a matrix and a double infinite eigenvalue of a pencil: there is only
one eigenvector, and what is returned is independent all the same. -/
theorem eigenvectors_linearIndependent_defective :
    (∃ r, StandardForm.eigenvectors .maxAbs ⟨Mat.ofRows2 (1 : ℝ) 1 0 1, some Mat.identity⟩
        [true, true] = .ok r ∧ 0 ∈ r.vectorPlaces [.real 0, .real 1] [true, true] ∧
      LinearIndepOn ℝ (fun (j : Nat) (i : Fin 2) => r.matrix.get i j)
        (r.vectorPlaces [.real 0, .real 1] [true, true])) ∧
    ∃ r, PencilForm.eigenvectors .euclidean
        ⟨Mat.ofRows2 (1 : ℝ) 1 0 1, Mat.ofRows2 0 1 0 0, none, some Mat.identity⟩ [true, true] =
          .ok r ∧
      LinearIndepOn ℝ (fun (j : Nat) (i : Fin 2) => r.matrix.get i j)
        (r.vectorPlaces [.real 0, .real 1] [true, true]) := by
  obtain ⟨_, hselected⟩ := exists_checkSelection_two true true
  have hfactor : ∀ q ∈ some (Mat.identity : Mat 2 2 ℝ), IsUnit q.toMatrix := by
    rintro _ ⟨⟩
    rw [Mat.toMatrix_identity]
    exact isUnit_one
  have hblocks := diagonalBlocks_triangular_two 1 1 1
  obtain ⟨r, hr, hindependent, -⟩ := (eigenvectors_linearIndependent (n := 2) .maxAbs).1
    ⟨Mat.ofRows2 (1 : ℝ) 1 0 1, some Mat.identity⟩ _ _ _ hblocks hselected hfactor
  obtain ⟨r', hr', hindependent', -⟩ := (eigenvectors_linearIndependent (n := 2) .euclidean).2
    ⟨Mat.ofRows2 (1 : ℝ) 1 0 1, Mat.ofRows2 0 1 0 0, none, some Mat.identity⟩ _ _ _
    (pencilBlocks_triangular_two 1 1 1 0 1 0) hselected hfactor
  refine ⟨⟨r, hr, ?_, hindependent⟩, r', hr', hindependent'⟩
  -- The vector of the first block is the first unit vector.
  rw [StandardForm.eigenvectors_eq_ok hblocks hselected, Except.ok.injEq] at hr
  refine ⟨.real 0, by simp, rfl, ?_, by simp [columnPlaces, start, size]⟩
  have hsplit : [.real 0, .real 1] = [] ++ (Block.real 0 : Block ℝ) :: [.real 1] := rfl
  rw [← hr, start_mem_failed (tiles_of_diagonalBlocks hblocks) hsplit rfl]
  change ¬ (startReal (Mat.ofRows2 (1 : ℝ) 1 0 1) 0).eigenvector? .maxAbs (some Mat.identity)
    false = none
  have hscale : ¬ (1 : ℝ) < minPositive := by linarith [minPositive_le]
  simp [LeadingVector.eigenvector?, LeadingVector.isLost, startReal, hscale, Vec.allFinite,
    Eigenvector.ofReal?, usableSize, inAllRows, sumTo, Normalization.sizeOfReal, Vec.supNorm, maxTo,
    Mat.identity]

end SchurForm
