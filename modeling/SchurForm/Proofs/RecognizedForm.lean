import SchurForm.Proofs.EigenvalueLayout

/-!
# Forms that are recognized

The converse of what recognition establishes. A matrix that is cut by an order of blocks, with a
complex eigenvalue in every block of order two, is recognized, and the blocks that are found are
those of the order, laid out and read again from the matrix. For a pencil the second matrix has to
be diagonal in every block of order two as well.

A selection of the leading blocks of such a form is valid.
-/

namespace SchurForm

open Scalar Block

variable {n : Nat}

namespace Block

variable {α : Type}

/-- A placed block stands behind the blocks in front of it. -/
theorem exists_split_of_mem_placed {first : Nat} {order : List (Block α)} {place : Nat × Block α}
    (h : place ∈ placed first order) :
    ∃ front back, order = front ++ place.2 :: back ∧ place.1 = first + totalSize front := by
  induction order generalizing first with
  | nil => simp [placed] at h
  | cons b order ih =>
    rcases List.mem_cons.mp h with rfl | h
    · exact ⟨[], order, rfl, rfl⟩
    · obtain ⟨front, back, rfl, hrow⟩ := ih h
      exact ⟨b :: front, back, rfl, by rw [hrow, totalSize_cons, Nat.add_assoc]⟩

/-- Every row that is laid out lies in a placed block. -/
theorem exists_placed_row {first row : Nat} {order : List (Block α)} (hfirst : first ≤ row)
    (hlast : row < first + totalSize order) :
    ∃ place ∈ placed first order, place.1 ≤ row ∧ row < place.1 + place.2.size := by
  induction order generalizing first with
  | nil => exact absurd hlast (by simpa using hfirst)
  | cons b order ih =>
    by_cases hb : row < first + b.size
    · exact ⟨(first, b), List.mem_cons_self, hfirst, hb⟩
    · have hnext : first + b.size ≤ row := Nat.le_of_not_lt hb
      obtain ⟨place, hplace, hrow⟩ := ih hnext (by rw [totalSize_cons] at hlast; omega)
      exact ⟨place, List.mem_cons_of_mem _ hplace, hrow⟩

/-- Reading blocks again keeps a tiling. -/
theorem Tiles.map_reread {first last : Nat} {blocks : List (Block α)} (h : Tiles first blocks last)
    (find : Nat → Option (α × α)) : Tiles first (blocks.map (reread find)) last := by
  induction blocks generalizing first with
  | nil => exact h
  | cons b blocks ih =>
    obtain ⟨hstart, hsize⟩ := start_size_reread find b
    obtain ⟨rfl, hrest⟩ := h
    refine ⟨hstart, ?_⟩
    rw [stop, hstart, hsize]
    exact ih hrest

/-- Reading blocks again keeps their orders. -/
theorem map_size_reread (find : Nat → Option (α × α)) (blocks : List (Block α)) :
    (blocks.map (reread find)).map size = blocks.map size := by
  rw [List.map_map]
  exact List.map_congr_left fun b _ => (start_size_reread find b).2

/-- Laying out blocks keeps their orders. -/
theorem map_size_layOut (first : Nat) (order : List (Block α)) :
    (layOut first order).map size = order.map size := by
  induction order generalizing first with
  | nil => rfl
  | cons b order ih => simp [ih]

/-- Reading a block twice is reading it once. -/
theorem reread_reread (find : Nat → Option (α × α)) (b : Block α) :
    (b.reread find).reread find = b.reread find := by
  cases b with
  | real k => rfl
  | pair k re im => cases h : find k <;> simp [reread, h]

end Block

section Zeros

/-- There is nothing to find below a zero part. -/
theorem firstNonzeroBelow_of_zero {a : Mat n n ℝ} {gap : Nat}
    (h : ∀ i j, j + gap ≤ i → a.get i j = 0) : firstNonzeroBelow a gap = none := by
  rw [firstNonzeroBelow, List.find?_eq_none]
  rintro ⟨i, j⟩ hmem
  simp only [positionsBelow, List.mem_flatMap, List.mem_range, List.mem_map, Prod.mk.injEq] at hmem
  obtain ⟨j', -, i', -, rfl, rfl⟩ := hmem
  simp [h (j' + gap + i') j' (Nat.le_add_right _ _)]

/-- A matrix with zeros below its subdiagonal passes the check. -/
theorem checkSubdiagonal_of_zero {s : Mat n n ℝ} (h : ∀ i j, j + 2 ≤ i → s.get i j = 0) :
    checkSubdiagonal s = .ok () := by
  rw [checkSubdiagonal, firstNonzeroBelow_of_zero h]

/-- A matrix with zeros below its diagonal passes the check. -/
theorem checkTriangular_of_zero {t : Mat n n ℝ} (h : ∀ i j, j + 1 ≤ i → t.get i j = 0) :
    checkTriangular t = .ok () := by
  rw [checkTriangular, firstNonzeroBelow_of_zero h]

variable {a : Mat n n ℝ} {order : List (Block ℝ)} (hcuts : a.CutBy order)
  (hrows : totalSize order = n)

include hcuts hrows

/-- There is a cut behind every block. -/
theorem Mat.CutBy.isCut_behind {place : Nat × Block ℝ} (hplace : place ∈ placed 0 order) :
    a.IsCut (place.1 + place.2.size) := by
  obtain ⟨front, back, rfl, hrow⟩ := exists_split_of_mem_placed hplace
  rw [List.append_cons] at hcuts hrows
  simpa [hrow] using hcuts.isCut hrows

/-- A matrix is zero below its blocks. -/
theorem Mat.CutBy.get_eq_zero {i j : Nat}
    (hout : ∀ place ∈ placed 0 order, place.1 ≤ j → j < place.1 + place.2.size →
      place.1 + place.2.size ≤ i) : a.get i j = 0 := by
  by_cases hj : j < n
  · obtain ⟨place, hplace, hfirst, hlast⟩ :=
      exists_placed_row (Nat.zero_le j) (by rwa [Nat.zero_add, hrows])
    exact hcuts.isCut_behind hrows hplace i j (hout place hplace hfirst hlast) hlast
  · exact a.get_of_cols_le i (Nat.le_of_not_lt hj)

/-- Blocks have order two at most, so nothing stands further below the diagonal. -/
theorem Mat.CutBy.quasiTriangular {i j : Nat} (hij : j + 2 ≤ i) : a.get i j = 0 := by
  refine hcuts.get_eq_zero hrows fun place _ hfirst hlast => ?_
  have hsize := place.2.size_cases
  omega

/-- A matrix whose blocks of order two are diagonal is triangular. -/
theorem Mat.CutBy.triangular
    (hdiagonal : ∀ place ∈ placed 0 order, place.2.size = 2 → a.DiagonalAt place.1) {i j : Nat}
    (hij : j + 1 ≤ i) : a.get i j = 0 := by
  by_cases hin : ∃ place ∈ placed 0 order, place.2.size = 2 ∧ place.1 = j ∧ i = j + 1
  · obtain ⟨place, hplace, hsize, rfl, rfl⟩ := hin
    exact (hdiagonal place hplace hsize).2
  · refine hcuts.get_eq_zero hrows fun place hplace hfirst hlast => ?_
    by_contra hlow
    have hsize := place.2.size_cases
    exact hin ⟨place, hplace, by omega, by omega, by omega⟩

end Zeros

/-- The second matrix of a recognized pencil is triangular, and its blocks under conjugate pairs are
diagonal and not singular. -/
theorem Mat.PencilClassified.triangular {s t : Mat n n ℝ} {blocks : List (Block ℝ)}
    (h : s.PencilClassified t blocks) : (∀ i j, j < i → t.get i j = 0) ∧
      ∀ b ∈ blocks, b.size = 2 → t.DiagonalAt b.start ∧ t.get b.start b.start ≠ 0 ∧
        t.get (b.start + 1) (b.start + 1) ≠ 0 := by
  have hrows : totalSize blocks = n := by simpa using h.tiles.last_eq.symm
  refine ⟨fun i j hij => h.cuts_t.triangular hrows (fun place hplace hsize => ?_) hij,
    fun b hb hsize => ?_⟩
  · rw [← h.tiles.start_eq_of_mem_placed hplace]
    exact h.diagonal _ (mem_of_mem_placed hplace) hsize
  · have hdiagonal := h.diagonal b hb hsize
    exact ⟨hdiagonal, diagonal_ne_zero_of_pencilPairAt ((h.pairs b hb).ne_none hsize)⟩

section Scan

variable {s t : Mat n n ℝ} {pair : Nat → Except (FormError ℝ) (ℝ × ℝ)}

/-- A scan finds the blocks of a tiling that has zeros between its blocks and whose blocks of order
two are supplied with the eigenvalues that they name. -/
theorem scanBlocks_of_tiles {left k : Nat} {blocks : List (Block ℝ)}
    (htiles : Tiles k blocks (k + left))
    (hzeros : ∀ b ∈ blocks, s.get b.stop (b.stop - 1) = 0)
    (hpairs : ∀ b ∈ blocks, b.size = 2 → s.get (b.start + 1) b.start ≠ 0)
    (hfound : ∀ b ∈ blocks, b.HasPair fun row => (pair row).toOption) :
    scanBlocks s pair left k = .ok blocks := by
  induction blocks generalizing left k with
  | nil =>
    obtain rfl : left = 0 := by
      have hlast : k = k + left := htiles
      omega
    rfl
  | cons b rest ih =>
    have hleft := htiles.last_eq
    have hzero := hzeros b List.mem_cons_self
    have hpair := hpairs b List.mem_cons_self
    have hhas := hfound b List.mem_cons_self
    obtain ⟨rfl, hrest⟩ := htiles
    have hcontinue (more : Nat) (hmore : b.start + left = b.stop + more) :
        scanBlocks s pair more b.stop = .ok rest :=
      ih (hmore ▸ hrest) (fun c hc => hzeros c (List.mem_cons_of_mem b hc))
        (fun c hc => hpairs c (List.mem_cons_of_mem b hc))
        fun c hc => hfound c (List.mem_cons_of_mem b hc)
    rw [totalSize_cons] at hleft
    cases b with
    | real k =>
      simp only [start, stop, size, Nat.add_sub_cancel] at hleft hzero hcontinue ⊢
      cases rest with
      | nil =>
        obtain rfl : left = 1 := by simpa using hleft
        rfl
      | cons c rest =>
        have hc := c.size_pos
        rw [totalSize_cons] at hleft
        obtain ⟨more, rfl⟩ : ∃ more, left = more + 2 := ⟨left - 2, by omega⟩
        rw [scanBlocks, hzero, hcontinue (more + 1) (by omega)]
        simp [Bind.bind, Except.bind, pure, Except.pure]
    | pair k re im =>
      simp only [start, stop, size] at hleft hzero hcontinue hpair ⊢
      obtain ⟨more, rfl⟩ : ∃ more, left = more + 2 := ⟨left - 2, by omega⟩
      have hvalue : pair k = .ok (re, im) := by
        simp only [HasPair] at hhas
        cases hk : pair k with
        | error e => simp [hk, Except.toOption] at hhas
        | ok value => simpa [hk, Except.toOption] using hhas
      have hnext : s.get (k + 2) (k + 1) = 0 := hzero
      rw [scanBlocks, hvalue, hnext, hcontinue more (by omega)]
      simp [hpair trivial, Bind.bind, Except.bind, pure, Except.pure]

/-- The entry under the diagonal of a block with a complex eigenvalue is not zero. -/
theorem subdiagonal_ne_zero_of_complex {a b c d : ℝ} (h : complexEigenvalue? a b c d ≠ none) :
    c ≠ 0 := by
  rintro rfl
  rw [complexEigenvalue?_eq] at h
  exact h (conjugatePair?_eq_none (by nlinarith [sq_nonneg (a - d)]))

/-- The same for a block of a pencil. -/
theorem subdiagonal_ne_zero_of_pencilPairAt {k : Nat} (h : pencilPairAt s t k ≠ none) :
    s.get (k + 1) k ≠ 0 := by
  rw [pencilPairAt_eq_complexEigenvalue? h] at h
  exact left_ne_zero_of_mul (subdiagonal_ne_zero_of_complex h)

variable {order : List (Block ℝ)}

/-- The scan of a form finds the blocks of the order that cuts it, read again where they stand. -/
theorem scanBlocks_of_cutBy (hrows : totalSize order = n) (hcuts : s.CutBy order)
    {find : Nat → Option (ℝ × ℝ)}
    (hpairs : ∀ place ∈ placed 0 order, place.2.size = 2 →
      s.get (place.1 + 1) place.1 ≠ 0 ∧ find place.1 ≠ none ∧
        (pair place.1).toOption = find place.1) :
    scanBlocks s pair n 0 = .ok ((layOut 0 order).map (reread find)) := by
  have htiles : Tiles 0 ((layOut 0 order).map (reread find)) (0 + n) := by
    rw [← hrows]
    exact (tiles_layOut 0 order).map_reread find
  have hplaced (b : Block ℝ) (hb : b ∈ (layOut 0 order).map (reread find)) :
      ∃ place ∈ placed 0 order, b = (place.2.moveTo place.1).reread find := by
    obtain ⟨_, hmem, rfl⟩ := List.mem_map.mp hb
    obtain ⟨place, hplace, rfl⟩ := List.mem_map.mp hmem
    exact ⟨place, hplace, rfl⟩
  refine scanBlocks_of_tiles htiles (fun b hb => ?_) (fun b hb hsize => ?_) fun b hb => ?_
  · obtain ⟨place, hplace, rfl⟩ := hplaced b hb
    obtain ⟨hstart, hsize⟩ := start_size_reread find (place.2.moveTo place.1)
    have hpos := place.2.size_pos
    rw [stop, hstart, hsize, start_moveTo, size_moveTo]
    exact hcuts.isCut_behind hrows hplace _ _ le_rfl (by omega)
  · obtain ⟨place, hplace, rfl⟩ := hplaced b hb
    obtain ⟨hstart, hsize'⟩ := start_size_reread find (place.2.moveTo place.1)
    rw [hstart, start_moveTo]
    exact (hpairs place hplace (by rwa [hsize', size_moveTo] at hsize)).1
  · obtain ⟨⟨row, b⟩, hplace, rfl⟩ := hplaced b hb
    cases b with
    | real k => trivial
    | pair k re im =>
      obtain ⟨-, hne, hfind⟩ := hpairs _ hplace rfl
      obtain ⟨value, hvalue⟩ := Option.ne_none_iff_exists'.mp hne
      simpa [HasPair, moveTo, reread, hvalue] using hfind.trans hvalue

/-- A matrix that is cut by an order of blocks, with a complex eigenvalue in every block of order
two, is recognized as a form with these blocks. -/
theorem diagonalBlocks_of_cutBy (hrows : totalSize order = n) (hcuts : s.CutBy order)
    (hpairs : ∀ place ∈ placed 0 order, place.2.size = 2 → pairAt s place.1 ≠ none) :
    diagonalBlocks s = .ok ((layOut 0 order).map (reread (pairAt s))) := by
  rw [diagonalBlocks, checkSubdiagonal_of_zero fun _ _ => hcuts.quasiTriangular hrows]
  refine scanBlocks_of_cutBy hrows hcuts fun place hplace hsize => ?_
  have hne := hpairs place hplace hsize
  obtain ⟨value, hvalue⟩ := Option.ne_none_iff_exists'.mp hne
  exact ⟨subdiagonal_ne_zero_of_complex hne, hne, by simp [requirePair, hvalue, Except.toOption]⟩

/-- A pencil that is cut by an order of blocks, with a complex eigenvalue and a diagonal block of
the second matrix for every block of order two, is recognized as a form with these blocks. -/
theorem pencilBlocks_of_cutBy (hrows : totalSize order = n) (hcutsS : s.CutBy order)
    (hcutsT : t.CutBy order)
    (hpairs : ∀ place ∈ placed 0 order, place.2.size = 2 →
      t.DiagonalAt place.1 ∧ pencilPairAt s t place.1 ≠ none) :
    pencilBlocks s t = .ok ((layOut 0 order).map (reread (pencilPairAt s t))) := by
  have htriangular (i j : Nat) (hij : j + 1 ≤ i) : t.get i j = 0 :=
    hcutsT.triangular hrows (fun place hplace hsize => (hpairs place hplace hsize).1) hij
  rw [pencilBlocks, checkSubdiagonal_of_zero fun _ _ => hcutsS.quasiTriangular hrows,
    checkTriangular_of_zero htriangular]
  refine scanBlocks_of_cutBy hrows hcutsS fun place hplace hsize => ?_
  obtain ⟨hdiagonal, hne⟩ := hpairs place hplace hsize
  obtain ⟨value, hvalue⟩ := Option.ne_none_iff_exists'.mp hne
  exact ⟨subdiagonal_ne_zero_of_pencilPairAt hne, hne,
    by simp [requirePencilPair, hdiagonal.1, hvalue, Except.toOption]⟩

end Scan

end SchurForm
