import SchurForm.Proofs.RecognizedForm
import SchurForm.Proofs.StorageOperations

/-!
# A standard form as a pencil

Multiplying the rows of a matrix by numbers that are not zero, and taking the diagonal matrix of
these numbers for the second matrix, gives a pencil with the eigenvalues of the matrix. The two
paths through recognition, eigenvalue lists and selection then agree: the pencil is recognized
exactly if the matrix is, with the same blocks; its eigenvalues have the magnitudes of the numbers
for denominators; and the predicates of pencils, which compare without dividing, answer as the plain
ones do.
-/

namespace SchurForm

open Scalar Block

variable {m n : Nat}

/-- A diagonal matrix without a zero on its diagonal. -/
structure Mat.IsScaling (t : Mat n n ℝ) : Prop where
  off_diagonal : ∀ i j, i ≠ j → t.get i j = 0
  diagonal : ∀ i < n, t.get i i ≠ 0

namespace Mat.IsScaling

variable {s t : Mat n n ℝ} (ht : t.IsScaling)

include ht

/-- A scaling multiplies the rows. -/
theorem get_mul (s : Mat n n ℝ) (i j : Nat) : (t.mul s).get i j = t.get i i * s.get i j := by
  rw [Mat.get_mul, Finset.sum_eq_single i (fun r _ hr => ?_) fun hout => ?_]
  · rw [ht.off_diagonal i r (Ne.symm hr), zero_mul]
  · rw [t.get_of_rows_le (Nat.le_of_not_lt (mt Finset.mem_range.mpr hout)), zero_mul]

/-- A scaling keeps the zeros and makes no others. -/
theorem get_mul_eq_zero_iff (s : Mat n n ℝ) (i j : Nat) :
    (t.mul s).get i j = 0 ↔ s.get i j = 0 := by
  by_cases hi : i < n
  · rw [ht.get_mul, mul_eq_zero, or_iff_right (ht.diagonal i hi)]
  · rw [get_of_rows_le _ (Nat.le_of_not_lt hi), get_of_rows_le _ (Nat.le_of_not_lt hi)]

/-- A scaled block has over the scaling the eigenvalue that it had. -/
theorem pencilPairAt_eq {k : Nat} (hk : k + 1 < n) : pencilPairAt (t.mul s) t k = pairAt s k := by
  have h0 := ht.diagonal k (by omega)
  have h1 := ht.diagonal (k + 1) hk
  simp only [pencilPairAt, pencilComplexEigenvalue?, ht.get_mul, mul_div_cancel_left₀ _ h0,
    mul_div_cancel_left₀ _ h1, beq_real, h0, h1, decide_false, Bool.or_self, Bool.false_eq_true,
    if_false, pairAt]

end Mat.IsScaling

/-- The eigenvalue that a scan needs is found in the pencil exactly if it is found in the matrix. -/
theorem Mat.IsScaling.requirePencilPair_eq_ok_iff {s t : Mat n n ℝ} (ht : t.IsScaling) {k : Nat}
    (hk : s.get (k + 1) k ≠ 0) (value : ℝ × ℝ) :
    requirePencilPair (t.mul s) t k = .ok value ↔ requirePair s k = .ok value := by
  have hin : k + 1 < n := by
    by_contra hout
    exact hk (s.get_of_rows_le (Nat.le_of_not_lt hout) k)
  rw [requirePencilPair, requirePair, ht.pencilPairAt_eq hin,
    ht.off_diagonal k (k + 1) (Nat.lt_succ_self k).ne]
  cases pairAt s k <;> simp

section Scan

variable {s : Mat m m ℝ} {s' : Mat n n ℝ} {pair pair' : Nat → Except (FormError ℝ) (ℝ × ℝ)}

/-- Two scans find the same blocks if they meet the same zeros and are supplied with the same
eigenvalues. -/
theorem scanBlocks_eq_ok_of_agree (hzero : ∀ k, s'.get (k + 1) k = 0 ↔ s.get (k + 1) k = 0)
    (hpair : ∀ k, s.get (k + 1) k ≠ 0 → ∀ value, pair k = .ok value → pair' k = .ok value)
    {left k : Nat} {blocks : List (Block ℝ)} (h : scanBlocks s pair left k = .ok blocks) :
    scanBlocks s' pair' left k = .ok blocks := by
  -- The cases of the scan are those of `tiles_of_scanBlocks`.
  fun_induction scanBlocks s pair left k generalizing blocks with
  | case1 k => exact h
  | case2 k => exact h
  | case3 => cases h
  | case4 left k hnonzero hnext ih =>
    obtain ⟨value, hvalue, h⟩ := checked_bind_eq_ok.mp h
    obtain ⟨rest, hrest, h⟩ := checked_bind_eq_ok.mp h
    have hnonzero : s.get (k + 1) k ≠ 0 := by simpa using hnonzero
    rw [scanBlocks, if_pos (by simpa using mt (hzero k).mp hnonzero), if_neg]
    · exact checked_bind_eq_ok.mpr ⟨value, hpair k hnonzero value hvalue,
        checked_bind_eq_ok.mpr ⟨rest, ih hrest, h⟩⟩
    · simpa [hzero (k + 1)] using hnext
  | case5 left k hzeroBelow ih =>
    obtain ⟨rest, hrest, h⟩ := checked_bind_eq_ok.mp h
    rw [scanBlocks, if_neg (by simpa [hzero k] using hzeroBelow)]
    exact checked_bind_eq_ok.mpr ⟨rest, ih hrest, h⟩

end Scan

section Agreement

variable {s t : Mat n n ℝ} {blocks : List (Block ℝ)}

/-- The pencil is recognized exactly if the matrix is, with the same blocks. -/
theorem Mat.IsScaling.pencilBlocks_eq_ok_iff (ht : t.IsScaling) :
    pencilBlocks (t.mul s) t = .ok blocks ↔ diagonalBlocks s = .ok blocks := by
  have hzero (k : Nat) := ht.get_mul_eq_zero_iff s (k + 1) k
  constructor
  · intro h
    obtain ⟨_, hsubdiagonal, h⟩ := checked_bind_eq_ok.mp h
    obtain ⟨_, -, hscan⟩ := checked_bind_eq_ok.mp h
    refine checked_bind_eq_ok.mpr ⟨(), checkSubdiagonal_of_zero fun i j hij => ?_,
      scanBlocks_eq_ok_of_agree (fun k => (hzero k).symm) (fun k hk value => ?_) hscan⟩
    · exact (ht.get_mul_eq_zero_iff s i j).mp (checkSubdiagonal_eq_ok hsubdiagonal i j hij)
    · exact (ht.requirePencilPair_eq_ok_iff (mt (hzero k).mpr hk) value).mp
  · intro h
    obtain ⟨_, hsubdiagonal, hscan⟩ := checked_bind_eq_ok.mp h
    refine checked_bind_eq_ok.mpr ⟨(), checkSubdiagonal_of_zero fun i j hij => ?_,
      checked_bind_eq_ok.mpr ⟨(), checkTriangular_of_zero fun i j hij => ?_,
        scanBlocks_eq_ok_of_agree hzero (fun k hk value => ?_) hscan⟩⟩
    · exact (ht.get_mul_eq_zero_iff s i j).mpr (checkSubdiagonal_eq_ok hsubdiagonal i j hij)
    · exact ht.off_diagonal i j (by omega)
    · exact (ht.requirePencilPair_eq_ok_iff hk value).mpr

/-- A block gives the pencil its eigenvalue times the magnitude of the scaling. -/
theorem Mat.IsScaling.pencilEigenvalueAt_eq (ht : t.IsScaling) (s : Mat n n ℝ) (b : Block ℝ)
    {i : Nat} (hi : i < b.size) : b.pencilEigenvalueAt (t.mul s) t (b.start + i) =
      (|t.get (b.start + i) (b.start + i)| * (b.eigenvalueAt s (b.start + i)).1,
        |t.get (b.start + i) (b.start + i)| * (b.eigenvalueAt s (b.start + i)).2,
        |t.get (b.start + i) (b.start + i)|) := by
  cases b with
  | real k =>
    obtain rfl : i = 0 := Nat.lt_one_iff.mp hi
    simp only [pencilEigenvalueAt, eigenvalueAt, start, Nat.add_zero, ht.get_mul, mul_zero]
    split
    · rw [abs_of_neg ‹_›, neg_one_mul, neg_one_mul, neg_mul]
    · rw [abs_of_nonneg (not_lt.mp ‹_›), one_mul, one_mul]
  | pair k re im =>
    by_cases hfirst : i = 0 <;>
      simp [pencilEigenvalueAt, eigenvalueAt, start, abs_real, hfirst, mul_comm]

/-- The eigenvalue list of the pencil is that of the matrix over the magnitudes of the scaling. -/
theorem Mat.IsScaling.pencilEigenvalues_at (ht : t.IsScaling)
    (hblocks : diagonalBlocks s = .ok blocks) (row : Nat) :
    (pencilEigenvalues (t.mul s) t blocks).at row =
      (|t.get row row| * ((eigenvalues s blocks).at row).1,
        |t.get row row| * ((eigenvalues s blocks).at row).2, |t.get row row|) := by
  have htiles := tiles_of_diagonalBlocks hblocks
  have hrows : totalSize blocks = n := by simpa using htiles.last_eq.symm
  by_cases hin : row < n
  · obtain ⟨place, hplace, hfirst, hlast⟩ :=
      exists_placed_row (Nat.zero_le row) (by rwa [Nat.zero_add, hrows])
    have hstart := htiles.start_eq_of_mem_placed hplace
    obtain ⟨i, rfl⟩ := Nat.exists_eq_add_of_le (hstart ▸ hfirst)
    have hi : i < place.2.size := by omega
    have hcovers := htiles.blockAt (mem_of_mem_placed hplace) hi
    rw [SchurForm.pencilEigenvalues_at hin hcovers, eigenvalues_at hin hcovers,
      ht.pencilEigenvalueAt_eq s place.2 hi]
  · have hout := Nat.le_of_not_lt hin
    simp only [PencilEigenvalues.at, Vec.get_of_le _ hout, t.get_of_rows_le hout, abs_zero,
      zero_mul]

end Agreement

/-- A predicate of pencils answers for a positive denominator as the plain predicate does. -/
theorem Selector.acceptsPencil_scaled (selector : Selector) {beta : ℝ} (hbeta : 0 < beta)
    (re im : ℝ) : selector.acceptsPencil (beta * re) (beta * im) beta = selector.accepts re im := by
  have hne : beta ≠ 0 := hbeta.ne'
  cases selector with
  | all => rfl
  | leftHalfPlane =>
    simp [acceptsPencil, accepts, hne, mul_neg_iff, hbeta, hbeta.not_gt]
  | insideUnitCircle =>
    have hlength : √((beta * re) ^ 2 + (beta * im) ^ 2) = beta * √(re ^ 2 + im ^ 2) := by
      rw [mul_pow, mul_pow, ← mul_add, Real.sqrt_mul (sq_nonneg beta), Real.sqrt_sq hbeta.le]
    simp [acceptsPencil, accepts, hne, hlength, mul_lt_iff_lt_one_right hbeta]
  | real => simp [acceptsPencil, accepts, hne]
  | complex => simp [acceptsPencil, accepts, hne]

/-- Two questions that are answered alike for every block give the same selection. -/
theorem askEach_congr {α β γ : Type} {M : Type → Type} [Monad M] {ask : β → M Bool}
    {ask' : γ → M Bool} {offer : Block α → β} {offer' : Block α → γ} {blocks : List (Block α)}
    (h : ∀ b ∈ blocks, ask (offer b) = ask' (offer' b)) :
    askEach ask (blocks.map fun b => (b, offer b)) =
      askEach ask' (blocks.map fun b => (b, offer' b)) := by
  induction blocks with
  | nil => rfl
  | cons b rest ih =>
    simp only [List.map_cons, askEach, h b List.mem_cons_self,
      ih fun c hc => h c (List.mem_cons_of_mem b hc)]

/-- The value that a block of a recognized form offers to a predicate stands in the eigenvalue list.
-/
theorem eigenvalues_at_start {s : Mat n n ℝ} {blocks : List (Block ℝ)}
    (htiles : Tiles 0 blocks n) {b : Block ℝ} (hb : b ∈ blocks) :
    (eigenvalues s blocks).at b.start = b.offer s := by
  have hstop := htiles.stop_le hb
  have hsize := b.size_pos
  have hcovers : blockAt blocks b.start = some b := htiles.blockAt hb hsize
  rw [eigenvalues_at (by rw [stop] at hstop; omega) hcovers]
  cases b with
  | real k => rfl
  | pair k re im => simp [eigenvalueAt, offer, start]

/-- A standard form and the pencil that a diagonal matrix without zeros makes of it are treated
alike. One is recognized exactly if the other is, with the same blocks. The eigenvalues of the
pencil are those of the form over the magnitudes of the diagonal entries. Every predicate that has a
name selects the same eigenvalues of both. -/
theorem scaledPencil_agrees {s t : Mat n n ℝ} (ht : t.IsScaling) :
    (∀ blocks, pencilBlocks (t.mul s) t = .ok blocks ↔ diagonalBlocks s = .ok blocks) ∧
    (∀ blocks, diagonalBlocks s = .ok blocks →
      let e := eigenvalues s blocks
      let scaled := pencilEigenvalues (t.mul s) t blocks
      ∀ k, scaled.beta.get k = |t.get k k| ∧
        scaled.real.get k = scaled.beta.get k * e.real.get k ∧
        scaled.imag.get k = scaled.beta.get k * e.imag.get k) ∧
    ∀ (selector : Selector) (selection : Selection),
      selectPencilBy (t.mul s) t (fun v => selector.acceptsPencil v.1 v.2.1 v.2.2) =
          .ok selection ↔
        selectBy s (fun v => selector.accepts v.1 v.2) = .ok selection := by
  have hvalues {blocks : List (Block ℝ)} (hblocks : diagonalBlocks s = .ok blocks) (k : Nat) :
      (pencilEigenvalues (t.mul s) t blocks).beta.get k = |t.get k k| ∧
        (pencilEigenvalues (t.mul s) t blocks).real.get k =
          |t.get k k| * (eigenvalues s blocks).real.get k ∧
        (pencilEigenvalues (t.mul s) t blocks).imag.get k =
          |t.get k k| * (eigenvalues s blocks).imag.get k := by
    have hat := ht.pencilEigenvalues_at hblocks k
    simp only [PencilEigenvalues.at, Eigenvalues.at, Prod.mk.injEq] at hat
    exact ⟨hat.2.2, hat.1, hat.2.1⟩
  refine ⟨fun blocks => ht.pencilBlocks_eq_ok_iff, ?_, fun selector selection => ?_⟩
  · intro blocks hblocks e scaled k
    obtain ⟨hbeta, hreal, himag⟩ := hvalues hblocks k
    exact ⟨hbeta, hbeta ▸ hreal, hbeta ▸ himag⟩
  · rw [selectPencilBy_eq_ok, selectBy_eq_ok]
    refine exists_congr fun blocks => ?_
    rw [ht.pencilBlocks_eq_ok_iff]
    refine and_congr_right fun hblocks => ?_
    have htiles := tiles_of_diagonalBlocks hblocks
    rw [selectPencilBlocks, selectBlocks, askEach_congr fun b hb => ?_]
    obtain ⟨hbeta, hreal, himag⟩ := hvalues hblocks b.start
    have hstop := htiles.stop_le hb
    have hsize := b.size_pos
    have hpos : 0 < |t.get b.start b.start| :=
      abs_pos.mpr (ht.diagonal _ (by rw [stop] at hstop; omega))
    rw [← eigenvalues_at_start htiles hb, hbeta, hreal, himag, selector.acceptsPencil_scaled hpos]
    rfl

/-- A quarter turn and a scaling with entries of both signs. The pair of the turn keeps its sign in
the pencil, and the complex eigenvalues that are selected are both. -/
theorem scaledPencil_agrees_turn :
    let s : Mat 2 2 ℝ := Mat.ofRows2 0 1 (-1) 0
    let t : Mat 2 2 ℝ := Mat.ofRows2 1 0 0 (-2)
    let scaled := pencilEigenvalues (t.mul s) t [.pair 0 0 1]
    t.IsScaling ∧ pencilBlocks (t.mul s) t = .ok [.pair 0 0 1] ∧
      (scaled.beta.get 1 = 2 ∧ scaled.real.get 1 = 0 ∧ scaled.imag.get 1 = -2) ∧
      selectPencilBy (t.mul s) t (fun v => Selector.complex.acceptsPencil v.1 v.2.1 v.2.2) =
        .ok ⟨[true, true], 2⟩ := by
  intro s t scaled
  have ht : t.IsScaling := by
    refine ⟨fun i j hij => ?_, fun i hi => ?_⟩
    · simp only [t, Mat.ofRows2, Mat.get_ofFn]
      split_ifs <;> first | rfl | omega
    · interval_cases i <;> simp [t, Mat.ofRows2]
  have hs : diagonalBlocks s = .ok [.pair 0 0 1] := by
    simp [s, diagonalBlocks, checkSubdiagonal, firstNonzeroBelow, positionsBelow, scanBlocks,
      requirePair, pairAt, complexEigenvalue?_quarterTurn, Mat.ofRows2, List.range_succ, Bind.bind,
      Except.bind, pure, Except.pure]
  obtain ⟨hblocks, hvalues, hselect⟩ := scaledPencil_agrees (s := s) ht
  obtain ⟨hbeta, hreal, himag⟩ := hvalues _ hs 1
  have hmagnitude : |t.get 1 1| = 2 := by simp [t, Mat.ofRows2]
  rw [hmagnitude] at hbeta
  refine ⟨ht, (hblocks _).mpr hs, ⟨hbeta, ?_, ?_⟩, (hselect _ _).mpr ?_⟩
  · rw [hreal]
    simp [eigenvalues, blockAt, covers, stop, start, size, eigenvalueAt]
  · rw [himag, hbeta]
    simp [eigenvalues, blockAt, covers, stop, start, size, eigenvalueAt]
  · rw [selectBy_eq_ok]
    refine ⟨_, hs, ?_⟩
    simp [selectBlocks, askEach, offer, Selector.accepts, size]

end SchurForm
