import SchurForm.Block.Recognition
import SchurForm.Proofs.BlockLayout
import SchurForm.Proofs.ExchangeResidual

/-!
# Forms cut by their blocks

A matrix is in the form described by an order of blocks if it has a cut in front of each of them.
Recognition establishes this, together with the eigenvalue of every block of order two, and an
exchange of adjacent blocks keeps it: a block triangular patch makes the one cut that is new.
-/

namespace SchurForm

open Scalar Block

variable {m n : Nat}

namespace Mat

/-- A matrix has a cut in front of every block of an order, laid out from the first row. -/
def CutBy (a : Mat n n ℝ) (order : List (Block ℝ)) : Prop :=
  ∀ place ∈ placed 0 order, a.IsCut place.1

/-- There is always a cut behind the last row. -/
theorem isCut_order (a : Mat n n ℝ) : a.IsCut n :=
  fun _ c hr _ => a.get_of_rows_le hr c

/-- There is a cut behind any leading blocks. -/
theorem CutBy.isCut {a : Mat n n ℝ} {front back : List (Block ℝ)} (h : a.CutBy (front ++ back))
    (hrows : totalSize (front ++ back) = n) : a.IsCut (totalSize front) := by
  cases back with
  | nil =>
    rw [List.append_nil] at hrows
    rw [hrows]
    exact a.isCut_order
  | cons b back =>
    refine h (totalSize front, b) ?_
    simp [placed_append, placed]

/-- A patch has the cuts of the matrix. -/
theorem IsCut.block {a : Mat n n ℝ} {row t : Nat} (h : a.IsCut (row + t)) :
    (a.block row row : Mat m m ℝ).IsCut t := by
  intro r c hr hc
  rw [Mat.block, get_ofFn]
  split
  · exact h _ _ (by omega) (by omega)
  · rfl

end Mat

/-- Where blocks stand, two neighbours among them named. -/
theorem mem_placed_pair {above below : List (Block ℝ)} {b c : Block ℝ} {place : Nat × Block ℝ} :
    place ∈ placed 0 (above ++ b :: c :: below) ↔
      place ∈ placed 0 above ∨ place = (totalSize above, b) ∨
        place = (totalSize above + b.size, c) ∨
        place ∈ placed (totalSize above + (b.size + c.size)) below := by
  simp [placed_append, placed, Nat.add_assoc]

/-- Exchanging neighbours keeps the places of all other blocks. -/
theorem mem_placed_exchange {above below : List (Block ℝ)} {upper lower : Block ℝ}
    {place : Nat × Block ℝ} (h : place ∈ placed 0 (above ++ lower :: upper :: below)) :
    place = (totalSize above, lower) ∨ place = (totalSize above + lower.size, upper) ∨
      place ∈ placed 0 (above ++ upper :: lower :: below) ∧
        (place.1 + place.2.size ≤ totalSize above ∨
          totalSize above + (upper.size + lower.size) ≤ place.1) := by
  rcases mem_placed_pair.mp h with h | h | h | h
  · have hbound := (placed_bounds h).2
    rw [Nat.zero_add] at hbound
    exact Or.inr (Or.inr ⟨mem_placed_pair.mpr (Or.inl h), Or.inl hbound⟩)
  · exact Or.inl h
  · exact Or.inr (Or.inl h)
  · rw [Nat.add_comm lower.size] at h
    exact Or.inr (Or.inr ⟨mem_placed_pair.mpr (Or.inr (Or.inr (Or.inr h))),
      Or.inr (placed_bounds h).1⟩)

section Exchange

variable {a : Mat n n ℝ} {above below : List (Block ℝ)} {upper lower : Block ℝ}
  (hcuts : a.CutBy (above ++ upper :: lower :: below))
  (hrows : totalSize (above ++ upper :: lower :: below) = n)

include hrows in
/-- The patch of two neighbours lies inside the matrix. -/
theorem patch_le : totalSize above + (upper.size + lower.size) ≤ n := by
  rw [← hrows]
  simp only [totalSize_append, totalSize_cons]
  omega

include hcuts hrows

/-- There are cuts in front of, inside and behind the patch of two neighbours. -/
theorem Mat.CutBy.patch_cuts : a.IsCut (totalSize above) ∧ a.IsCut (totalSize above + upper.size) ∧
    a.IsCut (totalSize above + (upper.size + lower.size)) := by
  refine ⟨hcuts.isCut hrows, ?_, ?_⟩
  · exact hcuts _ (mem_placed_pair.mpr (Or.inr (Or.inr (Or.inl rfl))))
  · have hbehind : above ++ upper :: lower :: below = (above ++ [upper, lower]) ++ below := by simp
    rw [hbehind] at hcuts hrows
    simpa using hcuts.isCut hrows

/-- A block triangular patch in place of two neighbours cuts the matrix by the exchanged order. -/
theorem Mat.CutBy.exchange
    {left right patch : Mat (upper.size + lower.size) (upper.size + lower.size) ℝ}
    (hpatch : patch.IsCut lower.size) :
    (a.transformPatch (totalSize above) left right patch).CutBy
      (above ++ lower :: upper :: below) := by
  obtain ⟨hfirst, -, hlast⟩ := hcuts.patch_cuts hrows
  intro place hplace
  rcases mem_placed_exchange hplace with rfl | rfl | ⟨hold, hout⟩
  · exact hfirst.transformPatch (Or.inl le_rfl) left right patch
  · exact hfirst.transformPatch_inside hlast (Nat.le_add_left _ _) left right hpatch
  · refine (hcuts place hold).transformPatch ?_ left right patch
    have hsize := place.2.size_pos
    omega

end Exchange

/-- A block of order two holds the eigenvalue that it names. -/
def Block.HasPair (find : Nat → Option (ℝ × ℝ)) : Block ℝ → Prop
  | .real _ => True
  | .pair k re im => find k = some (re, im)

/-- There is an eigenvalue for a block of order two. -/
theorem Block.HasPair.ne_none {find : Nat → Option (ℝ × ℝ)} {b : Block ℝ} (h : b.HasPair find)
    (hsize : b.size = 2) : find b.start ≠ none := by
  cases b with
  | real k => exact absurd hsize (by simp [size])
  | pair k re im =>
    have hfound : find k = some (re, im) := h
    rw [start, hfound]
    exact Option.some_ne_none _

/-- What recognition establishes for a standard form. -/
structure Mat.Classified (s : Mat n n ℝ) (blocks : List (Block ℝ)) : Prop where
  tiles : Tiles 0 blocks n
  cuts : s.CutBy blocks
  pairs : ∀ b ∈ blocks, b.HasPair (pairAt s)

/-- What recognition establishes for a pencil. -/
structure Mat.PencilClassified (s t : Mat n n ℝ) (blocks : List (Block ℝ)) : Prop where
  tiles : Tiles 0 blocks n
  cuts_s : s.CutBy blocks
  cuts_t : t.CutBy blocks
  pairs : ∀ b ∈ blocks, b.HasPair (pencilPairAt s t)
  diagonal : ∀ b ∈ blocks, b.size = 2 → t.DiagonalAt b.start

/-- A matrix without a non-zero entry from some diagonal on is zero there. -/
theorem firstNonzeroBelow_eq_none {a : Mat n n ℝ} {gap : Nat} (h : firstNonzeroBelow a gap = none)
    {i j : Nat} (hij : j + gap ≤ i) : a.get i j = 0 := by
  by_cases hi : i < n
  · have hmem : (i, j) ∈ positionsBelow n gap := by
      simp only [positionsBelow, List.mem_flatMap, List.mem_range, List.mem_map, Prod.mk.injEq]
      exact ⟨j, by omega, i - (j + gap), by omega, by omega, rfl⟩
    simpa using List.find?_eq_none.mp h (i, j) hmem
  · exact a.get_of_rows_le (Nat.le_of_not_lt hi) j

/-- What a scan of the diagonal from row `k` on finds: every further block begins under a zero, and
the eigenvalue of every block of order two was asked for. -/
structure Scanned (s : Mat n n ℝ) (pair : Nat → Except (FormError ℝ) (ℝ × ℝ)) (k : Nat)
    (blocks : List (Block ℝ)) : Prop where
  zeros : ∀ b ∈ blocks, b.start = k ∨ k < b.start ∧ s.get b.start (b.start - 1) = 0
  pairs : ∀ b ∈ blocks, b.HasPair fun row => (pair row).toOption

/-- One more block above those that have been found. -/
theorem Scanned.cons {s : Mat n n ℝ} {pair : Nat → Except (FormError ℝ) (ℝ × ℝ)}
    {b : Block ℝ} {rest : List (Block ℝ)} (h : Scanned s pair b.stop rest)
    (hpair : b.HasPair fun row => (pair row).toOption)
    (hzero : rest ≠ [] → s.get b.stop (b.stop - 1) = 0) :
    Scanned s pair b.start (b :: rest) := by
  have hsize := b.size_pos
  refine ⟨fun c hc => ?_, List.forall_mem_cons.mpr ⟨hpair, h.pairs⟩⟩
  rcases List.mem_cons.mp hc with rfl | hc
  · exact Or.inl rfl
  · right
    rcases h.zeros c hc with hstart | ⟨hstart, hc⟩
    · refine ⟨by rw [hstart, stop]; omega, ?_⟩
      rw [hstart]
      exact hzero (List.ne_nil_of_mem hc)
    · exact ⟨by rw [stop] at hstart; omega, hc⟩

/-- A scan finds what it looks for. -/
theorem scanned_of_scanBlocks {s : Mat n n ℝ} {pair : Nat → Except (FormError ℝ) (ℝ × ℝ)}
    {left k : Nat} {blocks : List (Block ℝ)} (h : scanBlocks s pair left k = .ok blocks) :
    Scanned s pair k blocks := by
  -- The cases of the scan are those of `tiles_of_scanBlocks`.
  fun_induction scanBlocks s pair left k generalizing blocks with
  | case1 k =>
    obtain rfl : [] = blocks := by simpa using h
    exact ⟨by simp, by simp⟩
  | case2 k =>
    obtain rfl : [Block.real k] = blocks := by simpa using h
    exact ⟨by simp [start], by simp [HasPair]⟩
  | case3 => cases h
  | case4 left k hnonzero hnext ih =>
    obtain ⟨⟨re, im⟩, hpair, h⟩ := checked_bind_eq_ok.mp h
    obtain ⟨rest, hrest, h⟩ := checked_bind_eq_ok.mp h
    obtain rfl : Block.pair k re im :: rest = blocks := by simpa [pure, Except.pure] using h
    refine Scanned.cons (b := .pair k re im) (ih hrest)
      (by simp [HasPair, hpair, Except.toOption]) fun hne => ?_
    have hleft : 0 < left := by
      rcases Nat.eq_zero_or_pos left with rfl | hleft
      · obtain rfl : [] = rest := by simpa [scanBlocks] using hrest
        exact absurd rfl hne
      · exact hleft
    simpa [stop, start, size, hleft] using hnext
  | case5 left k hzeroBelow ih =>
    obtain ⟨rest, hrest, h⟩ := checked_bind_eq_ok.mp h
    obtain rfl : Block.real k :: rest = blocks := by simpa [pure, Except.pure] using h
    refine Scanned.cons (b := .real k) (ih hrest) trivial fun _ => ?_
    simpa [stop, start, size] using hzeroBelow

/-- A quasi-triangular matrix has a cut in every row that begins under a zero. -/
theorem Mat.isCut_of_subdiagonal {s : Mat n n ℝ} (hbelow : ∀ i j, j + 2 ≤ i → s.get i j = 0)
    {t : Nat}
    (ht : t = 0 ∨ 0 < t ∧ s.get t (t - 1) = 0) : s.IsCut t := by
  intro r c hr hc
  by_cases hrc : c + 2 ≤ r
  · exact hbelow r c hrc
  · rcases ht with rfl | ⟨-, hzero⟩
    · exact absurd hc c.not_lt_zero
    · rwa [show r = t by omega, show c = t - 1 by omega]

/-- The scan of a quasi-triangular matrix finds the blocks that cut it. -/
theorem cutBy_of_scanBlocks {s : Mat n n ℝ} {pair : Nat → Except (FormError ℝ) (ℝ × ℝ)}
    {blocks : List (Block ℝ)} (hbelow : ∀ i j, j + 2 ≤ i → s.get i j = 0)
    (h : scanBlocks s pair n 0 = .ok blocks) : s.CutBy blocks := by
  intro place hplace
  rw [← (tiles_of_scanBlocks h).start_eq_of_mem_placed hplace]
  exact Mat.isCut_of_subdiagonal hbelow
    ((scanned_of_scanBlocks h).zeros _ (mem_of_mem_placed hplace))

/-- A matrix that passes the check has zeros below its subdiagonal. -/
theorem checkSubdiagonal_eq_ok {s : Mat n n ℝ} {u : Unit} (h : checkSubdiagonal s = .ok u) :
    ∀ i j, j + 2 ≤ i → s.get i j = 0 := by
  rw [checkSubdiagonal] at h
  split at h
  · cases h
  · exact fun i j hij => firstNonzeroBelow_eq_none ‹_› hij

/-- A matrix that passes the check has zeros below its diagonal. -/
theorem checkTriangular_eq_ok {t : Mat n n ℝ} {u : Unit} (h : checkTriangular t = .ok u) :
    ∀ i j, j + 1 ≤ i → t.get i j = 0 := by
  rw [checkTriangular] at h
  split at h
  · cases h
  · exact fun i j hij => firstNonzeroBelow_eq_none ‹_› hij

/-- The recognized blocks of a standard form. -/
theorem classified_of_diagonalBlocks {s : Mat n n ℝ} {blocks : List (Block ℝ)}
    (h : diagonalBlocks s = .ok blocks) : s.Classified blocks := by
  obtain ⟨_, hsubdiagonal, hscan⟩ := checked_bind_eq_ok.mp h
  have hcuts := cutBy_of_scanBlocks (checkSubdiagonal_eq_ok hsubdiagonal) hscan
  refine ⟨tiles_of_diagonalBlocks h, hcuts, fun b hb => ?_⟩
  have hpair := (scanned_of_scanBlocks hscan).pairs b hb
  cases b with
  | real k => trivial
  | pair k re im =>
    simp only [HasPair, requirePair] at hpair ⊢
    split at hpair
    · rwa [‹pairAt s k = some _›]
    · cases hpair

/-- The recognized blocks of a pencil. -/
theorem classified_of_pencilBlocks {s t : Mat n n ℝ} {blocks : List (Block ℝ)}
    (h : pencilBlocks s t = .ok blocks) : s.PencilClassified t blocks := by
  have htiles := tiles_of_pencilBlocks h
  obtain ⟨_, hsubdiagonal, h⟩ := checked_bind_eq_ok.mp h
  obtain ⟨_, htriangular, hscan⟩ := checked_bind_eq_ok.mp h
  have hcuts := cutBy_of_scanBlocks (checkSubdiagonal_eq_ok hsubdiagonal) hscan
  have hlower := checkTriangular_eq_ok htriangular
  have hfound (b : Block ℝ) (hb : b ∈ blocks) :
      b.HasPair (pencilPairAt s t) ∧ (b.size = 2 → t.DiagonalAt b.start) := by
    have hpair := (scanned_of_scanBlocks hscan).pairs b hb
    cases b with
    | real k => exact ⟨trivial, fun hsize => absurd hsize (by simp [size])⟩
    | pair k re im =>
      simp only [HasPair, requirePencilPair] at hpair ⊢
      split at hpair
      · cases hpair
      · rename_i hupper
        split at hpair
        · refine ⟨by rwa [‹pencilPairAt s t k = some _›], fun _ => ⟨?_, hlower _ _ le_rfl⟩⟩
          simpa [start] using hupper
        · cases hpair
  exact ⟨htiles, hcuts, fun place _ r c hr hc => hlower r c (by omega),
    fun b hb => (hfound b hb).1, fun b hb => (hfound b hb).2⟩

/-- A triangular matrix of order two has two blocks of order one. -/
theorem diagonalBlocks_triangular_two (a b d : ℝ) :
    diagonalBlocks (Mat.ofRows2 a b 0 d) = .ok [.real 0, .real 1] := by
  simp [diagonalBlocks, checkSubdiagonal, firstNonzeroBelow, positionsBelow, scanBlocks,
    Mat.ofRows2, List.range_succ, Bind.bind, Except.bind, pure, Except.pure]

/-- A triangular pencil of order two has two block pairs of order one. -/
theorem pencilBlocks_triangular_two (a b d a' b' d' : ℝ) :
    pencilBlocks (Mat.ofRows2 a b 0 d) (Mat.ofRows2 a' b' 0 d') = .ok [.real 0, .real 1] := by
  simp [pencilBlocks, checkSubdiagonal, checkTriangular, firstNonzeroBelow, positionsBelow,
    scanBlocks, Mat.ofRows2, List.range_succ, Bind.bind, Except.bind, pure, Except.pure]

/-- Any two flags select among two blocks of order one. -/
theorem exists_checkSelection_two (first second : Bool) : ∃ count,
    checkSelection ([.real 0, .real 1] : List (Block ℝ)) [first, second] 2 = .ok count := by
  simp [checkSelection, blocksEnd, firstHalfSelected, stop, start, size, isPair]

/-- A real eigenvalue above the conjugate pair of a quarter turn. -/
def turnBelowReal : Mat 3 3 ℝ :=
  Mat.ofFn fun i j => if i = 1 ∧ j = 2 then 1 else if i = 2 ∧ j = 1 then -1 else if i = 0 then 5
    else 0

/-- A quarter turn below a real eigenvalue is recognized as a conjugate pair. -/
theorem diagonalBlocks_turnBelowReal :
    diagonalBlocks turnBelowReal = .ok [.real 0, .pair 1 0 1] := by
  simp [diagonalBlocks, checkSubdiagonal, firstNonzeroBelow, positionsBelow, scanBlocks,
    turnBelowReal, requirePair, pairAt, complexEigenvalue?_quarterTurn, List.range_succ,
    Bind.bind, Except.bind, pure, Except.pure]

/-- The pair may be selected with or without the real eigenvalue. -/
theorem checkSelection_turnBelowReal {first : Bool} {position : Nat} :
    checkSelection ([.real 0, .pair 1 0 1] : List (Block ℝ)) [first, true, true] position =
      .ok (if first then 3 else 2) := by
  cases first <;> simp [checkSelection, blocksEnd, stop, start, size, firstHalfSelected, isPair,
    flagAt, selectedSize]

end SchurForm
