import SchurForm.Proofs.ShiftedElimination
import SchurForm.Proofs.RecognizedForm
import SchurForm.Eigenvector.Standard

/-!
# Back-substitution through diagonal blocks

A null vector of a block triangular matrix is found upwards from one of its diagonal blocks.
`Raised` says what a single block contributes: everything found so far is multiplied by one positive
factor, the rows of the block are solved up to a perturbation of the block, and their contribution
is subtracted from the rows above. `Ascent` is the state on the way: the rows from `first` on are
solved, and the rows above hold their right-hand sides. Both are about complex vectors; a sweep with
a real shift keeps everything real.
-/

namespace SchurForm

open Block

variable {rows first : Nat}

/-- A component of a vector as a complex number. -/
noncomputable def LeadingVector.entry (x : LeadingVector rows ℝ) (i : Nat) : ℂ :=
  ⟨x.re.get i, x.im.get i⟩

/-- All components of a vector are real. -/
def LeadingVector.IsReal (x : LeadingVector rows ℝ) : Prop :=
  ∀ i, x.im.get i = 0

/-- The entries of a matrix below and left of a position vanish. -/
def CutAt (m : Nat → Nat → ℂ) (t : Nat) : Prop :=
  ∀ i c, t ≤ i → c < t → m i c = 0

/-- One block of the system `m` is solved for: `y` comes from `x` by multiplying with a positive
factor, solving the rows of the block with `e` added to the block, and updating the rows above. -/
structure Raised (m : Nat → Nat → ℂ) (real : Prop) (bound : ℝ) (b : Block ℝ)
    (x y : LeadingVector rows ℝ) (factor : ℝ) (e : Nat → Nat → ℂ) : Prop where
  factor_pos : 0 < factor
  below : ∀ i, b.stop ≤ i → y.entry i = factor * x.entry i
  inside : ∀ i < b.size, ∑ c ∈ Finset.range b.size,
    (m (b.start + i) (b.start + c) + e i c) * y.entry (b.start + c) =
      factor * x.entry (b.start + i)
  above : ∀ i < b.start, y.entry i =
    factor * x.entry i - ∑ c ∈ Finset.range b.size, m i (b.start + c) * y.entry (b.start + c)
  bounded : ∀ i c, magnitude (e i c) ≤ bound
  unperturbed : y.perturbed = false → x.perturbed = false ∧ ∀ i c, e i c = 0
  real : real → y.IsReal ∧ ∀ i c, (e i c).im = 0

/-- A vector of which the rows from `first` on solve the system `m` with `e` added to the given
blocks, while the rows above `first` hold the right-hand sides that are left for them. -/
structure Ascent (m : Nat → Nat → ℂ) (real : Prop) (bound : ℝ) (blocks : List (Block ℝ))
    (first : Nat) (x : LeadingVector rows ℝ) (e : Nat → Nat → ℂ) : Prop where
  nonzero : ∃ i, first ≤ i ∧ x.entry i ≠ 0
  pending : ∀ i < first, x.entry i = -∑ c ∈ Finset.Ico first rows, m i c * x.entry c
  solved : ∀ i, first ≤ i → i < rows →
    ∑ c ∈ Finset.Ico first rows, (m i c + e i c) * x.entry c = 0
  behind : ∀ b ∈ blocks, first ≤ b.start
  support : ∀ i c, e i c ≠ 0 → ∃ b ∈ blocks, b.covers i = true ∧ b.covers c = true
  bounded : ∀ i c, magnitude (e i c) ≤ bound
  unperturbed : x.perturbed = false → ∀ i c, e i c = 0
  real : real → x.IsReal ∧ ∀ i c, (e i c).im = 0

variable {m : Nat → Nat → ℂ} {real : Prop} {bound : ℝ}

/-- A block covers the rows from its start to its end. -/
theorem Block.covers_iff {b : Block ℝ} {i : Nat} :
    b.covers i = true ↔ b.start ≤ i ∧ i < b.stop := by
  simp [covers]

section Step

variable {b : Block ℝ} {blocks : List (Block ℝ)} {x y : LeadingVector rows ℝ} {factor : ℝ}
  {e e' : Nat → Nat → ℂ}

/-- A perturbation with one more block. -/
noncomputable def withBlock (b : Block ℝ) (inside e : Nat → Nat → ℂ) (i c : Nat) : ℂ :=
  if b.covers i = true ∧ b.covers c = true then inside (i - b.start) (c - b.start) else e i c

/-- A perturbation of a block keeps what stands behind the block. -/
theorem withBlock_of_behind {i c : Nat} (h : b.stop ≤ i ∨ b.stop ≤ c) :
    withBlock b e' e i c = e i c := by
  rw [withBlock, if_neg]
  rw [covers_iff, covers_iff]
  omega

/-- A perturbation of a block holds the new entries inside the block. -/
theorem withBlock_of_inside {i c : Nat} (hi : i < b.size) (hc : c < b.size) :
    withBlock b e' e (b.start + i) (b.start + c) = e' i c := by
  rw [withBlock, if_pos, Nat.add_sub_cancel_left, Nat.add_sub_cancel_left]
  rw [covers_iff, covers_iff, stop]
  omega

/-- The perturbation is confined to the blocks that have been solved for. -/
theorem Ascent.eq_zero (h : Ascent m real bound blocks first x e) {i c : Nat}
    (hic : i < first ∨ c < first) : e i c = 0 := by
  by_contra hne
  obtain ⟨b, hb, hi, hc⟩ := h.support i c hne
  have hbehind := h.behind b hb
  rw [covers_iff] at hi hc
  omega

/-- The sum over the rows of a block and the rows behind it. -/
theorem sum_Ico_block (b : Block ℝ) (hrows : b.stop ≤ rows) (f : Nat → ℂ) :
    ∑ c ∈ Finset.Ico b.start rows, f c =
      ∑ c ∈ Finset.range b.size, f (b.start + c) + ∑ c ∈ Finset.Ico b.stop rows, f c := by
  have hstart : b.start ≤ b.stop := Nat.le_add_right _ _
  rw [← Finset.sum_Ico_consecutive f hstart hrows, Finset.sum_Ico_eq_sum_range, stop,
    Nat.add_sub_cancel_left]

/-- What the rows behind a block contribute is only multiplied by the factor. -/
theorem Raised.sum_behind (h : Raised m real bound b x y factor e') (a : Nat → ℂ) :
    ∑ c ∈ Finset.Ico b.stop rows, a c * y.entry c =
      factor * ∑ c ∈ Finset.Ico b.stop rows, a c * x.entry c := by
  rw [Finset.mul_sum]
  refine Finset.sum_congr rfl fun c hc => ?_
  rw [h.below c (Finset.mem_Ico.mp hc).1]
  ring

section Solved

variable (h : Ascent m real bound blocks b.stop x e) (hraised : Raised m real bound b x y factor e')
  (hrows : b.stop ≤ rows)

include h hraised hrows

/-- The rows of the block that was solved for. -/
theorem Ascent.solved_inside {r : Nat} (hr : r < b.size) : ∑ c ∈ Finset.Ico b.start rows,
    (m (b.start + r) c + withBlock b e' e (b.start + r) c) * y.entry c = 0 := by
  have hrow : b.start + r < b.stop := Nat.add_lt_add_left hr _
  have hbehind : ∑ c ∈ Finset.Ico b.stop rows,
      (m (b.start + r) c + withBlock b e' e (b.start + r) c) * y.entry c =
        ∑ c ∈ Finset.Ico b.stop rows, m (b.start + r) c * y.entry c := by
    refine Finset.sum_congr rfl fun c hc => ?_
    rw [withBlock_of_behind (Or.inr (Finset.mem_Ico.mp hc).1), h.eq_zero (Or.inl hrow), add_zero]
  have hblock : ∑ c ∈ Finset.range b.size, (m (b.start + r) (b.start + c) +
      withBlock b e' e (b.start + r) (b.start + c)) * y.entry (b.start + c) =
        factor * x.entry (b.start + r) := by
    rw [← hraised.inside r hr]
    exact Finset.sum_congr rfl fun c hc => by rw [withBlock_of_inside hr (Finset.mem_range.mp hc)]
  rw [sum_Ico_block b hrows, hblock, hbehind, hraised.sum_behind, h.pending _ hrow]
  ring

/-- The rows that had been solved before. -/
theorem Ascent.solved_behind (hcut : CutAt m b.stop) {i : Nat} (hi : b.stop ≤ i)
    (hirows : i < rows) :
    ∑ c ∈ Finset.Ico b.start rows, (m i c + withBlock b e' e i c) * y.entry c = 0 := by
  have hblock : ∑ c ∈ Finset.range b.size,
      (m i (b.start + c) + withBlock b e' e i (b.start + c)) * y.entry (b.start + c) = 0 := by
    refine Finset.sum_eq_zero fun c hc => ?_
    have hc : b.start + c < b.stop := Nat.add_lt_add_left (Finset.mem_range.mp hc) _
    rw [withBlock_of_behind (Or.inl hi), hcut _ _ hi hc, h.eq_zero (Or.inr hc), add_zero, zero_mul]
  have hkept : ∑ c ∈ Finset.Ico b.stop rows, (m i c + withBlock b e' e i c) * y.entry c =
      ∑ c ∈ Finset.Ico b.stop rows, (m i c + e i c) * y.entry c :=
    Finset.sum_congr rfl fun c _ => by rw [withBlock_of_behind (Or.inl hi)]
  rw [sum_Ico_block b hrows, hblock, hkept, hraised.sum_behind, h.solved i hi hirows, mul_zero,
    add_zero]

end Solved

/-- Solving for one more block leads one block further up. -/
theorem Ascent.step (h : Ascent m real bound blocks b.stop x e)
    (hraised : Raised m real bound b x y factor e') (hrows : b.stop ≤ rows)
    (hcut : CutAt m b.stop) :
    Ascent m real bound (b :: blocks) b.start y (withBlock b e' e) where
  nonzero := by
    obtain ⟨i, hi, hne⟩ := h.nonzero
    have hfactor : (factor : ℂ) ≠ 0 := by exact_mod_cast hraised.factor_pos.ne'
    refine ⟨i, (Nat.le_add_right _ _).trans hi, ?_⟩
    rw [hraised.below i hi]
    exact mul_ne_zero hfactor hne
  pending i hi := by
    rw [hraised.above i hi, h.pending i (hi.trans_le (Nat.le_add_right _ _)), sum_Ico_block b hrows,
      hraised.sum_behind]
    ring
  solved i hi hirows := by
    by_cases hib : i < b.stop
    · obtain ⟨r, rfl⟩ := Nat.exists_eq_add_of_le hi
      exact h.solved_inside hraised hrows (Nat.lt_of_add_lt_add_left hib)
    · exact h.solved_behind hraised hrows hcut (Nat.le_of_not_lt hib) hirows
  behind b' hb' := by
    rcases List.mem_cons.mp hb' with rfl | hb'
    · exact le_rfl
    · exact (Nat.le_add_right _ _).trans (h.behind b' hb')
  support i c hne := by
    rw [withBlock] at hne
    split at hne
    · exact ⟨b, List.mem_cons_self, ‹_›⟩
    · obtain ⟨b', hb', hcovers⟩ := h.support i c hne
      exact ⟨b', List.mem_cons_of_mem b hb', hcovers⟩
  bounded i c := by
    rw [withBlock]
    split
    · exact hraised.bounded _ _
    · exact h.bounded _ _
  unperturbed hperturbed i c := by
    obtain ⟨hx, he'⟩ := hraised.unperturbed hperturbed
    rw [withBlock, he', h.unperturbed hx, ite_self]
  real hreal := by
    obtain ⟨hy, he'⟩ := hraised.real hreal
    refine ⟨hy, fun i c => ?_⟩
    rw [withBlock]
    split
    · exact he' _ _
    · exact (h.real hreal).2 _ _

end Step

/-- A null vector of the last block, with the right-hand sides that it gives the rows above. -/
theorem Ascent.start {b : Block ℝ} {x : LeadingVector rows ℝ} (hrows : b.stop = rows)
    (hbound : 0 ≤ bound)
    (hnonzero : ∃ r < b.size, x.entry (b.start + r) ≠ 0)
    (hpending : ∀ i < b.start,
      x.entry i = -∑ c ∈ Finset.range b.size, m i (b.start + c) * x.entry (b.start + c))
    (hnull : ∀ r < b.size,
      ∑ c ∈ Finset.range b.size, m (b.start + r) (b.start + c) * x.entry (b.start + c) = 0)
    (hreal : real → x.IsReal) : Ascent m real bound [] b.start x 0 where
  nonzero := by
    obtain ⟨r, -, hr⟩ := hnonzero
    exact ⟨b.start + r, Nat.le_add_right _ _, hr⟩
  pending i hi := by
    rw [sum_Ico_block b hrows.le, hrows, Finset.Ico_self, Finset.sum_empty, add_zero, hpending i hi]
  solved i hi hirows := by
    rw [← hrows] at hirows
    obtain ⟨r, rfl⟩ := Nat.exists_eq_add_of_le hi
    simp only [Pi.zero_apply, add_zero]
    rw [sum_Ico_block b hrows.le, hrows, Finset.Ico_self, Finset.sum_empty, add_zero,
      hnull r (Nat.lt_of_add_lt_add_left hirows)]
  behind _ h := absurd h List.not_mem_nil
  support i c h := absurd rfl h
  bounded i c := by simpa using hbound
  unperturbed _ _ _ := rfl
  real h := ⟨hreal h, fun _ _ => rfl⟩

/-- A non-zero vector that a matrix of order two takes to zero. -/
structure NullVectorTwo (m00 m01 m10 m11 x y : ℂ) : Prop where
  ne_zero : x ≠ 0 ∨ y ≠ 0
  upper : m00 * x + m01 * y = 0
  lower : m10 * x + m11 * y = 0

section NullVectorTwo

variable {m00 m01 m10 m11 : ℂ} (hdet : m00 * m11 = m01 * m10)

include hdet

/-- The upper row of a singular matrix gives a null vector for every first component. -/
theorem NullVectorTwo.of_upper (hne : m01 ≠ 0) {x : ℂ} (hx : x ≠ 0) :
    NullVectorTwo m00 m01 m10 m11 x (-(m00 * x) / m01) where
  ne_zero := Or.inl hx
  upper := by
    field_simp
    ring
  lower := by
    field_simp
    linear_combination -x * hdet

/-- The lower row of a singular matrix gives a null vector for every second component. -/
theorem NullVectorTwo.of_lower (hne : m10 ≠ 0) {y : ℂ} (hy : y ≠ 0) :
    NullVectorTwo m00 m01 m10 m11 (-(m11 * y) / m10) y where
  ne_zero := Or.inr hy
  upper := by
    field_simp
    linear_combination -y * hdet
  lower := by
    field_simp
    ring

end NullVectorTwo

/-- A null vector of a last block of order two, with the right-hand sides that it gives the rows
above. -/
theorem Ascent.start_pair {k : Nat} {x : LeadingVector (k + 2) ℝ} (hbound : 0 ≤ bound)
    (hnull : NullVectorTwo (m k k) (m k (k + 1)) (m (k + 1) k) (m (k + 1) (k + 1)) (x.entry k)
      (x.entry (k + 1)))
    (hpending : ∀ i < k, x.entry i = -(m i k * x.entry k + m i (k + 1) * x.entry (k + 1)))
    (hreal : ¬ real) : Ascent m real bound [] k x 0 := by
  have hsum (i : Nat) : ∑ c ∈ Finset.range 2, m i (k + c) * x.entry (k + c) =
      m i k * x.entry k + m i (k + 1) * x.entry (k + 1) := by
    rw [Finset.sum_range_succ, Finset.sum_range_one, Nat.add_zero]
  refine Ascent.start (b := .pair k 0 0) rfl hbound ?_ (fun i hi => ?_) (fun r hr => ?_)
    fun h => absurd h hreal
  · rcases hnull.ne_zero with hne | hne
    · exact ⟨0, two_pos, hne⟩
    · exact ⟨1, one_lt_two, hne⟩
  · exact (hpending i hi).trans (congrArg _ (hsum i).symm)
  · refine (hsum (k + r)).trans ?_
    have hr : r < 2 := hr
    interval_cases r
    · exact hnull.upper
    · exact hnull.lower

/-- Solving for all blocks above leads to the first row. The sweep may keep data beside the
vector. -/
theorem Ascent.run {σ : Type} {vector : σ → LeadingVector rows ℝ} {step : σ → Block ℝ → σ}
    {above done : List (Block ℝ)} {st : σ} {e : Nat → Nat → ℂ}
    (hstep : ∀ b ∈ above, ∀ st, (real → (vector st).IsReal) →
      ∃ factor e, Raised m real bound b (vector st) (vector (step st b)) factor e)
    (htiles : Tiles 0 above.reverse first) (hrows : first ≤ rows) (hcut : CutAt m first)
    (hcuts : ∀ b ∈ above, CutAt m b.start) (h : Ascent m real bound done first (vector st) e) :
    ∃ e', Ascent m real bound (above.reverse ++ done) 0 (vector (above.foldl step st)) e' := by
  induction above generalizing first done st e with
  | nil =>
    obtain rfl : 0 = first := htiles
    exact ⟨e, h⟩
  | cons b above ih =>
    rw [List.reverse_cons] at htiles
    obtain ⟨htop, hstart, hstop⟩ := htiles.append
    obtain rfl : b.stop = first := hstop
    obtain ⟨factor, e', hraised⟩ := hstep b List.mem_cons_self st fun hreal => (h.real hreal).1
    have hnext := h.step hraised hrows hcut
    have hbound : b.start ≤ rows := (Nat.le_add_right _ _).trans hrows
    rw [← hstart] at htop
    obtain ⟨e'', hlast⟩ := ih (fun b' hb' => hstep b' (List.mem_cons_of_mem b hb')) htop hbound
      (hcuts b List.mem_cons_self) (fun b' hb' => hcuts b' (List.mem_cons_of_mem b hb')) hnext
    refine ⟨e'', ?_⟩
    rwa [List.reverse_cons, List.append_assoc, List.singleton_append, List.foldl_cons]

section Operations

variable (x : LeadingVector rows ℝ)

/-- The entries behind a leading vector are zero. -/
theorem LeadingVector.entry_of_le {i : Nat} (hi : rows ≤ i) : x.entry i = 0 := by
  rw [entry, Vec.get_of_le _ hi, Vec.get_of_le _ hi]
  rfl

/-- An entry of a multiple. -/
theorem LeadingVector.entry_times (factor : ℝ) (i : Nat) :
    (x.times factor).entry i = factor * x.entry i := by
  by_cases hi : i < rows
  · apply Complex.ext <;> simp [entry, times, hi, mul_comm]
  · have hi := Nat.le_of_not_lt hi
    rw [entry_of_le _ hi, entry_of_le _ hi, mul_zero]

/-- The rows that are replaced. -/
theorem LeadingVector.entry_setRows_inside (values : Mat 2 2 ℝ) {j size r : Nat} (hr : r < size)
    (hrow : j + r < rows) : (x.setRows j size values).entry (j + r) = values.complexRow r := by
  have hmem : j ≤ j + r ∧ j + r < j + size := by omega
  apply Complex.ext <;> simp [entry, setRows, hrow, hmem, Mat.complexRow]

/-- The rows that stay as they are. -/
theorem LeadingVector.entry_setRows_outside (values : Mat 2 2 ℝ) {j size i : Nat}
    (hi : i < j ∨ j + size ≤ i) : (x.setRows j size values).entry i = x.entry i := by
  by_cases hrow : i < rows
  · have hmem : ¬ (j ≤ i ∧ i < j + size) := by omega
    apply Complex.ext <;> simp [entry, setRows, hrow, hmem]
  · have hrow := Nat.le_of_not_lt hrow
    rw [entry_of_le _ hrow, entry_of_le _ hrow]

/-- The right-hand side of a block holds its entries. -/
theorem LeadingVector.complexRow_rowsOf {j size r : Nat} (hr : r < size) (hsize : size ≤ 2) :
    (x.rowsOf j size).complexRow r = x.entry (j + r) := by
  have hr2 : r < 2 := hr.trans_le hsize
  simp [Mat.complexRow, rowsOf, entry, hr, hr2]

/-- A real vector gives a right-hand side without imaginary part. -/
theorem LeadingVector.IsReal.rowsOf {x : LeadingVector rows ℝ} (h : x.IsReal) (j size i : Nat) :
    (x.rowsOf j size).get i 1 = 0 := by
  simp [LeadingVector.rowsOf, h (j + i)]

/-- Dividing all values divides the complex numbers in the rows. -/
theorem complexRow_map_div (values : Mat 2 2 ℝ) (size : ℝ) {r : Nat} (hr : r < 2) :
    (values.map fun v => v / size).complexRow r = (size⁻¹ : ℝ) * values.complexRow r := by
  apply Complex.ext
  · rw [Complex.re_ofReal_mul]
    simp [Mat.complexRow, Mat.map, hr, div_eq_inv_mul]
  · rw [Complex.im_ofReal_mul]
    simp [Mat.complexRow, Mat.map, hr, div_eq_inv_mul]

/-- Subtracting columns one after the other, each from the rows above `j`, subtracts their sum: the
columns themselves stand in later rows, which do not change. -/
theorem entry_foldl_subtract {subtract : LeadingVector rows ℝ → Nat → LeadingVector rows ℝ}
    {j : Nat} (hsubtract : ∀ x c i, (subtract x c).entry i =
      if i < j then x.entry i - m i c * x.entry c else x.entry i) (size i : Nat) :
    ((List.range size).foldl (fun y r => subtract y (j + r)) x).entry i =
      if i < j then x.entry i - ∑ r ∈ Finset.range size, m i (j + r) * x.entry (j + r)
      else x.entry i := by
  induction size generalizing i with
  | zero => simp
  | succ size ih =>
    rw [List.range_succ, List.foldl_append, List.foldl_cons, List.foldl_nil, hsubtract, ih, ih,
      if_neg (Nat.not_lt.mpr (Nat.le_add_right j size)), Finset.sum_range_succ]
    split
    · ring
    · rfl

/-- Subtracting columns does not touch the flag. -/
theorem perturbed_foldl_subtract (subtract : LeadingVector rows ℝ → Nat → LeadingVector rows ℝ)
    (hsubtract : ∀ x c, (subtract x c).perturbed = x.perturbed) (columns : List Nat) :
    (columns.foldl subtract x).perturbed = x.perturbed := by
  induction columns generalizing x with
  | nil => rfl
  | cons c columns ih => rw [List.foldl_cons, ih, hsubtract]

end Operations

/-- A step of a sweep: it solves the equation of its block, multiplies the whole vector by the scale
of the solution and by one more factor `shrink`, and subtracts the contribution of the solved rows
from the rows above. -/
theorem Raised.of_solvedNear {b : Block ℝ} {x solved y : LeadingVector rows ℝ} {shrink : ℝ}
    {e : Nat → Nat → ℂ} {eqn : ShiftedEquation b.size ℝ} {solution : ShiftedSolution ℝ}
    (h : eqn.SolvedNear (x.rowsOf b.start b.size) e solution) (hshrink : 0 < shrink)
    (hcoefficient : ∀ i < b.size, ∀ c < b.size,
      eqn.coefficient i c = m (b.start + i) (b.start + c))
    (hreal : eqn.shiftIm = 0 → x.IsReal ∧ ∀ i c, (m i c).im = 0)
    (hinside : ∀ r < b.size, solved.entry (b.start + r) = shrink * solution.x.complexRow r)
    (houtside : ∀ i, i < b.start ∨ b.stop ≤ i →
      solved.entry i = (solution.scale * shrink : ℝ) * x.entry i)
    (hupdate : ∀ i, y.entry i = if i < b.start then solved.entry i -
      ∑ c ∈ Finset.range b.size, m i (b.start + c) * solved.entry (b.start + c) else solved.entry i)
    (hperturbed : y.perturbed = (x.perturbed || solution.perturbed)) :
    Raised m (eqn.shiftIm = 0) (2 * eqn.effectiveFloor) b x y (solution.scale * shrink) e := by
  have hblock (r : Nat) (hr : r < b.size) :
      y.entry (b.start + r) = shrink * solution.x.complexRow r := by
    rw [hupdate, if_neg (Nat.not_lt.mpr (Nat.le_add_right _ _)), hinside r hr]
  have hbelow (i : Nat) (hi : b.stop ≤ i) :
      y.entry i = (solution.scale * shrink : ℝ) * x.entry i := by
    rw [hupdate, if_neg (Nat.not_lt.mpr ((Nat.le_add_right _ _).trans hi)), houtside i (Or.inr hi)]
  have habove (i : Nat) (hi : i < b.start) : y.entry i = (solution.scale * shrink : ℝ) * x.entry i -
      ∑ c ∈ Finset.range b.size, m i (b.start + c) * y.entry (b.start + c) := by
    rw [hupdate, if_pos hi, houtside i (Or.inl hi)]
    exact congrArg _ (Finset.sum_congr rfl fun c hc => by
      rw [hblock c (Finset.mem_range.mp hc), hinside c (Finset.mem_range.mp hc)])
  refine ⟨mul_pos h.scale_pos hshrink, hbelow, fun i hi => ?_, habove, h.bounded, fun hy => ?_,
    fun hshift => ?_⟩
  · have hsize : b.size ≤ 2 := by rcases b.size_cases with hb | hb <;> omega
    have hsolves := h.solves i hi
    rw [x.complexRow_rowsOf hi hsize] at hsolves
    have hterm : ∀ c ∈ Finset.range b.size,
        (m (b.start + i) (b.start + c) + e i c) * y.entry (b.start + c) =
          shrink * ((eqn.coefficient i c + e i c) * solution.x.complexRow c) := by
      intro c hc
      have hc := Finset.mem_range.mp hc
      rw [hcoefficient i hi c hc, hblock c hc]
      ring
    rw [Finset.sum_congr rfl hterm, ← Finset.mul_sum, hsolves]
    push_cast
    ring
  · rw [hperturbed, Bool.or_eq_false_iff] at hy
    exact ⟨hy.1, h.unperturbed hy.2⟩
  · obtain ⟨hx, hm⟩ := hreal hshift
    obtain ⟨he, hvalues⟩ := h.real hshift
    have hblock_im (r : Nat) (hr : r < b.size) : (y.entry (b.start + r)).im = 0 := by
      rw [hblock r hr, Complex.im_ofReal_mul]
      exact mul_eq_zero_of_right _ (hvalues r)
    have hscaled (i : Nat) : ((solution.scale * shrink : ℝ) * x.entry i).im = 0 := by
      rw [Complex.im_ofReal_mul]
      exact mul_eq_zero_of_right _ (hx i)
    refine ⟨fun i => ?_, he⟩
    change (y.entry i).im = 0
    rcases lt_or_ge i b.start with hi | hi
    · rw [habove i hi, Complex.sub_im, hscaled, Complex.im_sum, Finset.sum_eq_zero, sub_zero]
      intro c hc
      rw [Complex.mul_im, hm, hblock_im c (Finset.mem_range.mp hc), mul_zero, zero_mul, add_zero]
    · rcases lt_or_ge i b.stop with hstop | hstop
      · obtain ⟨r, rfl⟩ := Nat.exists_eq_add_of_le hi
        exact hblock_im r (Nat.lt_of_add_lt_add_left hstop)
      · rw [hbelow i hstop, hscaled]

end SchurForm
