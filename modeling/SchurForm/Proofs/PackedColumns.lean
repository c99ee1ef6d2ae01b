import SchurForm.Eigenvector.Pencil
import SchurForm.Proofs.StableGathering

/-!
# How many eigenvector columns there are

A block has as many columns as rows, whether its vector could be computed or not. If the selection
fits the blocks, the columns are therefore as many as flags are set. This holds for any arithmetic,
and the count of the flags needs no look at the matrix.
-/

namespace SchurForm

open Block

variable {α : Type} [Scalar α] {n rows : Nat}

section Packing

variable {find : Block α → List (Block α) → Option (Eigenvector n α)}

/-- There is one column for a real eigenvalue, and there are two for a pair. -/
theorem LeadingVector.length_columns {norm : Normalization} {factor : Option (Mat n n α)}
    {x : LeadingVector rows α} {isPair : Bool} {v : Eigenvector n α}
    (h : x.eigenvector? norm factor isPair = some v) :
    v.columns.length = if isPair then 2 else 1 := by
  simp only [eigenvector?, Option.ite_none_left_eq_some] at h
  obtain ⟨-, h⟩ := h
  cases isPair with
  | true =>
    simp only [if_true, Eigenvector.ofComplex?, Option.ite_none_right_eq_some, Option.some.injEq]
      at h
    obtain ⟨-, rfl⟩ := h
    rfl
  | false =>
    simp only [Bool.false_eq_true, if_false, Eigenvector.ofReal?, Option.ite_none_right_eq_some,
      Option.some.injEq] at h
    obtain ⟨-, rfl⟩ := h
    rfl

/-- A vector has as many columns as its block has rows. -/
theorem LeadingVector.length_columns_eq_size {norm : Normalization} {factor : Option (Mat n n α)}
    {b : Block α} {x : LeadingVector rows α} {v : Eigenvector n α}
    (h : x.eigenvector? norm factor b.isPair = some v) : v.columns.length = b.size := by
  cases b <;> exact length_columns h

/-- The columns of two lists of blocks are packed one list after the other. -/
theorem packColumns_append (find : Block α → List (Block α) → Option (Eigenvector n α))
    (front back : List (Block α × List (Block α))) :
    (packColumns find (front ++ back)).columns =
      (packColumns find front).columns ++ (packColumns find back).columns := by
  simp [packColumns]

/-- Every block has as many columns as rows. -/
theorem length_packColumns
    (hsize : ∀ b above v, find b above = some v → v.columns.length = b.size)
    (chosen : List (Block α × List (Block α))) :
    (packColumns find chosen).columns.length = totalSize (chosen.map Prod.fst) := by
  induction chosen with
  | nil => rfl
  | cons entry chosen ih =>
    rw [← List.singleton_append, packColumns_append, List.length_append, ih, List.map_append,
      totalSize_append]
    congr 1
    cases hfind : find entry.1 entry.2 with
    | none => simp [packColumns, hfind]
    | some v => simp [packColumns, hfind, hsize _ _ v hfind]

omit [Scalar α] in
/-- Pairing blocks with those above them keeps the blocks. -/
theorem map_fst_withBlocksAbove (above blocks : List (Block α)) :
    (withBlocksAbove above blocks).map Prod.fst = blocks := by
  induction blocks generalizing above with
  | nil => rfl
  | cons b blocks ih => simp [withBlocksAbove, ih]

omit [Scalar α] in
/-- The blocks that are packed are the selected ones. -/
theorem map_fst_selectedWithAbove (blocks : List (Block α)) (selected : List Bool) :
    (selectedWithAbove blocks selected).map Prod.fst =
      blocks.filter fun b => flagAt selected b.start := by
  conv_rhs => rw [← map_fst_withBlocksAbove [] blocks, List.filter_map]
  rfl

/-- The failed blocks are those without a vector. -/
theorem mem_failed {chosen : List (Block α × List (Block α))} {k : Nat} :
    k ∈ (packColumns find chosen).failed ↔
      ∃ entry ∈ chosen, find entry.1 entry.2 = none ∧ entry.1.start = k := by
  simp only [packColumns, List.mem_filterMap, List.mem_map, exists_exists_and_eq_and]
  refine exists_congr fun entry => and_congr_right fun _ => ?_
  cases find entry.1 entry.2 <;> simp

omit [Scalar α] in
/-- The blocks above a later list are those of the earlier list, nearest first. -/
theorem withBlocksAbove_append (above front back : List (Block α)) :
    withBlocksAbove above (front ++ back) =
      withBlocksAbove above front ++ withBlocksAbove (front.reverse ++ above) back := by
  induction front generalizing above with
  | nil => rfl
  | cons b front ih => simp [withBlocksAbove, ih]

omit [Scalar α] in
/-- The selected blocks in front of a selected block, that block, and those behind it. -/
theorem exists_selectedWithAbove {b : Block α} {selected : List Bool}
    (front back : List (Block α)) (hflag : flagAt selected b.start = true) :
    ∃ before after : List (Block α × List (Block α)),
      selectedWithAbove (front ++ b :: back) selected = before ++ (b, front.reverse) :: after ∧
      before.map Prod.fst = front.filter fun c => flagAt selected c.start := by
  refine ⟨selectedWithAbove front selected, (withBlocksAbove (b :: front.reverse) back).filter
    fun entry => flagAt selected entry.1.start, ?_, ?_⟩
  · rw [selectedWithAbove, withBlocksAbove_append, List.filter_append, List.append_nil,
      withBlocksAbove, List.filter_cons, if_pos hflag, selectedWithAbove]
  · exact map_fst_selectedWithAbove front selected

end Packing

section Selections

variable {blocks : List (Block α)} {selected : List Bool} {position count : Nat}

omit [Scalar α] in
/-- What the check of a selection establishes: a flag for every row, the same one in both rows of a
pair. -/
theorem checkSelection_fits (htiles : Tiles 0 blocks n)
    (h : checkSelection blocks selected position = .ok count) :
    selected.length = n ∧ ∀ b ∈ blocks, b.isPair = true →
      flagAt selected b.start = flagAt selected (b.start + 1) := by
  rw [checkSelection] at h
  split at h
  · cases h
  · rename_i hlength
    split at h
    · cases h
    · rename_i hnone
      refine ⟨?_, fun b hb hpair => ?_⟩
      · rw [← htiles.blocksEnd_eq fun _ => rfl]
        exact not_not.mp hlength
      · simpa [hpair] using List.find?_eq_none.mp hnone b hb

omit [Scalar α] in
/-- The rows of the selected blocks are as many as flags are set. -/
theorem totalSize_selected (htiles : Tiles 0 blocks n)
    (h : checkSelection blocks selected position = .ok count) :
    totalSize (blocks.filter fun b => flagAt selected b.start) = selected.count true := by
  obtain ⟨hlength, hpairs⟩ := checkSelection_fits htiles h
  rw [← countP_flagAt_range, hlength, ← countP_flagAt_eq htiles hpairs, Nat.sub_zero]

end Selections

section Vectors

variable {norm : Normalization} {selected : List Bool}

/-- The vectors that are packed. -/
theorem StandardForm.eigenvectors_eq_ok {form : StandardForm n α} {blocks : List (Block α)}
    {count : Nat} (hblocks : diagonalBlocks form.s = .ok blocks)
    (hselected : checkSelection blocks selected 2 = .ok count) :
    form.eigenvectors norm selected = .ok (packColumns
      (fun b above => ((⟨form.s, sumsAboveBlocks form.s blocks⟩ : StandardSweep n α).vector b
        above).eigenvector? norm form.q b.isPair) (selectedWithAbove blocks selected)) := by
  simp [StandardForm.eigenvectors, hblocks, hselected, bind, Except.bind, pure, Except.pure]

/-- The vectors that are packed. -/
theorem PencilForm.eigenvectors_eq_ok {form : PencilForm n α} {blocks : List (Block α)}
    {count : Nat} (hblocks : pencilBlocks form.s form.t = .ok blocks)
    (hselected : checkSelection blocks selected 2 = .ok count) :
    form.eigenvectors norm selected = .ok (packColumns
      (fun b above => ((PencilSweep.ofPencil form.s form.t blocks).vector b above).eigenvector? norm
        form.z b.isPair) (selectedWithAbove blocks selected)) := by
  simp [PencilForm.eigenvectors, hblocks, hselected, bind, Except.bind, pure, Except.pure]

/-- The eigenvectors of a standard form have a column for every flag that is set. -/
theorem StandardForm.width_eigenvectors {form : StandardForm n α} {r : Eigenvectors n α}
    (h : form.eigenvectors norm selected = .ok r) : r.columns.length = selected.count true := by
  obtain ⟨blocks, hblocks, hrest⟩ := checked_bind_eq_ok.mp h
  obtain ⟨count, hselected, -⟩ := checked_bind_eq_ok.mp hrest
  rw [eigenvectors_eq_ok hblocks hselected] at h
  obtain rfl := Except.ok.inj h
  rw [length_packColumns fun _ _ _ => LeadingVector.length_columns_eq_size,
    map_fst_selectedWithAbove, totalSize_selected (tiles_of_diagonalBlocks hblocks) hselected]

/-- The eigenvectors of a pencil have a column for every flag that is set. -/
theorem PencilForm.width_eigenvectors {form : PencilForm n α} {r : Eigenvectors n α}
    (h : form.eigenvectors norm selected = .ok r) : r.columns.length = selected.count true := by
  obtain ⟨blocks, hblocks, hrest⟩ := checked_bind_eq_ok.mp h
  obtain ⟨count, hselected, -⟩ := checked_bind_eq_ok.mp hrest
  rw [eigenvectors_eq_ok hblocks hselected] at h
  obtain rfl := Except.ok.inj h
  rw [length_packColumns fun _ _ _ => LeadingVector.length_columns_eq_size,
    map_fst_selectedWithAbove, totalSize_selected (tiles_of_pencilBlocks hblocks) hselected]

end Vectors

end SchurForm
