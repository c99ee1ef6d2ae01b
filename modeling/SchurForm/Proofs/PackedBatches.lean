import SchurForm.Proofs.EigenvectorColumns

/-!
# How a batch of eigenvectors is packed

Every selected block owns as many columns as it has rows, behind one column for each flag that is
set above it, whether its vector could be computed or not. What stands in these columns is the
vector of the block alone: nothing but the position depends on the other blocks. A block without a
vector has zero columns, and only such a block has, since a vector is divided by a size that is not
zero.
-/

namespace SchurForm

open Scalar Block

variable {n rows : Nat}

section Places

variable {α : Type} {first last : Nat} {blocks front back front' back' : List (Block α)}
  {b b' : Block α}

/-- Blocks of a tiling start one below the other. -/
theorem Block.Tiles.pairwise_start (h : Tiles first blocks last) :
    blocks.Pairwise fun b c => b.start < c.start := by
  induction blocks generalizing first with
  | nil => exact List.Pairwise.nil
  | cons b blocks ih =>
    refine List.Pairwise.cons (fun c hc => ?_) (ih h.tail)
    obtain rfl := h.start_head
    exact (Nat.lt_add_of_pos_right b.size_pos).trans_le (h.tail.le_start hc)

/-- Only the empty list of blocks takes no rows. -/
theorem eq_nil_of_totalSize_eq_zero (h : totalSize blocks = 0) : blocks = [] := by
  cases blocks with
  | nil => rfl
  | cons b blocks =>
    have hb := b.size_pos
    rw [totalSize_cons] at h
    omega

/-- Only one part of a list of blocks has a given number of rows in front of the rest. -/
theorem eq_of_append_eq_of_totalSize_eq (h : front ++ back = front' ++ back')
    (hsize : totalSize front = totalSize front') : front = front' ∧ back = back' := by
  rcases List.append_eq_append_iff.mp h with ⟨more, rfl, rfl⟩ | ⟨more, rfl, rfl⟩
  · obtain rfl : more = [] := eq_nil_of_totalSize_eq_zero (by simpa using hsize)
    simp
  · obtain rfl : more = [] := eq_nil_of_totalSize_eq_zero (by simpa using hsize)
    simp

/-- A block of a tiling is found at one place only. -/
theorem Block.Tiles.split_unique (h : Tiles 0 (front ++ b :: back) last)
    (hsplit : front ++ b :: back = front' ++ b' :: back') (hstart : b.start = b'.start) :
    front = front' ∧ b = b' ∧ back = back' := by
  have hfront : b.start = totalSize front := by simpa using h.append.2.start_head
  have hfront' : b'.start = totalSize front' := by
    rw [hsplit] at h
    simpa using h.append.2.start_head
  obtain ⟨hfronts, hrest⟩ := eq_of_append_eq_of_totalSize_eq hsplit (by omega)
  exact ⟨hfronts, List.cons.inj hrest⟩

end Places

section Batches

variable {α : Type} [Scalar α] {find : Block α → List (Block α) → Option (Eigenvector n α)}
  {blocks front back : List (Block α)} {b : Block α} {selected : List Bool}

/-- The columns of a block in a batch: as many as it has rows, behind one column for each flag that
is set above it. -/
def Eigenvectors.columnsOf (r : Eigenvectors n α) (selected : List Bool) (b : Block α) :
    List (Vec n α) :=
  (r.columns.drop ((selected.take b.start).count true)).take b.size

omit [Scalar α] in
/-- The flags that are set above a block are the rows of the selected blocks above it. -/
theorem count_take_start (htiles : Tiles 0 (front ++ b :: back) n)
    (hpairs : ∀ c ∈ front ++ b :: back, c.isPair = true →
      flagAt selected c.start = flagAt selected (c.start + 1)) (hlength : selected.length = n) :
    (selected.take b.start).count true =
      totalSize (front.filter fun c => flagAt selected c.start) := by
  have hb : b ∈ front ++ b :: back := by simp
  obtain ⟨hfront, hstart, -⟩ := htiles.append
  have hrows : (selected.take b.start).length = b.start := by
    have hbelow := htiles.stop_le hb
    rw [List.length_take, hlength]
    rw [stop] at hbelow
    omega
  rw [← hstart] at hfront
  rw [← countP_flagAt_range, hrows,
    ← countP_flagAt_eq hfront fun c hc => hpairs c (List.mem_append_left _ hc), Nat.sub_zero]
  refine List.countP_congr fun row hrow => ?_
  rw [List.mem_range'_1] at hrow
  rw [flagAt, flagAt, List.getD_eq_getElem?_getD, List.getElem?_take_of_lt (by omega),
    ← List.getD_eq_getElem?_getD]

omit [Scalar α] in
/-- A block is paired with the blocks above it, nearest first. -/
theorem mem_withBlocksAbove {above : List (Block α)} {entry : Block α × List (Block α)} :
    entry ∈ withBlocksAbove above blocks ↔ ∃ front back, blocks = front ++ entry.1 :: back ∧
      entry.2 = front.reverse ++ above := by
  induction blocks generalizing above with
  | nil => simp [withBlocksAbove]
  | cons c blocks ih =>
    rw [withBlocksAbove, List.mem_cons, ih]
    constructor
    · rintro (rfl | ⟨front, back, rfl, habove⟩)
      · exact ⟨[], blocks, rfl, rfl⟩
      · exact ⟨c :: front, back, rfl, by simpa using habove⟩
    · rintro ⟨front, back, hsplit, habove⟩
      cases front with
      | nil =>
        obtain ⟨rfl, -⟩ := List.cons.inj hsplit
        exact Or.inl (Prod.ext rfl (by simpa using habove))
      | cons d front =>
        obtain ⟨rfl, rfl⟩ := List.cons.inj hsplit
        exact Or.inr ⟨front, back, rfl, by simpa using habove⟩

omit [Scalar α] in
/-- The entries for the selected blocks. -/
theorem mem_selectedWithAbove {entry : Block α × List (Block α)} :
    entry ∈ selectedWithAbove blocks selected ↔ flagAt selected entry.1.start = true ∧
      ∃ front back, blocks = front ++ entry.1 :: back ∧ entry.2 = front.reverse := by
  rw [selectedWithAbove, List.mem_filter, mem_withBlocksAbove, and_comm]
  simp

/-- A batch packs the columns of each entry, one entry after the other. -/
theorem columns_packColumns (chosen : List (Block α × List (Block α))) :
    (packColumns find chosen).columns =
      chosen.flatMap fun entry => (packColumns find [entry]).columns := by
  induction chosen with
  | nil => rfl
  | cons entry chosen ih =>
    rw [← List.singleton_append, packColumns_append, ih, List.flatMap_append,
      List.flatMap_singleton]

/-- The failed blocks of a tiling are listed from top to bottom. -/
theorem pairwise_failed (htiles : Tiles 0 blocks n) :
    (packColumns find (selectedWithAbove blocks selected)).failed.Pairwise (· < ·) := by
  have hstarts : (withBlocksAbove [] blocks).Pairwise fun x y => x.1.start < y.1.start := by
    have hmap := htiles.pairwise_start
    rw [← map_fst_withBlocksAbove [] blocks, List.pairwise_map] at hmap
    exact hmap
  simp only [packColumns, List.pairwise_filterMap, List.pairwise_map]
  refine (hstarts.filter _).imp fun {x y} hxy i hi j hj => ?_
  cases hx : find x.1 x.2 <;> cases hy : find y.1 y.2 <;> simp_all

variable (hsize : ∀ b above v, find b above = some v → v.columns.length = b.size)
  (htiles : Tiles 0 blocks n)
  (hpairs : ∀ c ∈ blocks, c.isPair = true → flagAt selected c.start = flagAt selected (c.start + 1))
  (hlength : selected.length = n)

include hsize htiles hpairs hlength

/-- The columns of a selected block are packed for it alone. -/
theorem columnsOf_packColumns (hsplit : blocks = front ++ b :: back)
    (hflag : flagAt selected b.start = true) :
    (packColumns find (selectedWithAbove blocks selected)).columnsOf selected b =
      (packColumns find [(b, front.reverse)]).columns := by
  subst hsplit
  obtain ⟨before, after, hchosen, hbefore⟩ := exists_selectedWithAbove front back hflag
  have hoffset : (packColumns find before).columns.length = (selected.take b.start).count true := by
    rw [length_packColumns hsize, hbefore, count_take_start htiles hpairs hlength]
  have hown : (packColumns find [(b, front.reverse)]).columns.length = b.size := by
    simpa using length_packColumns hsize [(b, front.reverse)]
  rw [Eigenvectors.columnsOf, hchosen, packColumns_append, ← List.singleton_append,
    packColumns_append, ← hoffset, List.drop_left, ← hown, List.take_left]

/-- The columns of a selected block are those of its vector, or zero if it has none. -/
theorem columnsOf_eq (hsplit : blocks = front ++ b :: back)
    (hflag : flagAt selected b.start = true) :
    (packColumns find (selectedWithAbove blocks selected)).columnsOf selected b =
      match find b front.reverse with
      | some v => v.columns
      | none => List.replicate b.size Vec.zero := by
  rw [columnsOf_packColumns hsize htiles hpairs hlength hsplit hflag]
  cases hfind : find b front.reverse <;> simp [packColumns, hfind]

/-- A batch consists of the columns of the selected blocks, from top to bottom. -/
theorem columns_eq_flatMap_columnsOf :
    (packColumns find (selectedWithAbove blocks selected)).columns =
      (blocks.filter fun b => flagAt selected b.start).flatMap
        ((packColumns find (selectedWithAbove blocks selected)).columnsOf selected) := by
  conv_rhs => rw [← map_fst_selectedWithAbove, List.flatMap_map]
  rw [columns_packColumns]
  refine List.flatMap_congr fun entry hentry => ?_
  obtain ⟨hflag, front, back, hsplit, habove⟩ := mem_selectedWithAbove.mp hentry
  rw [columnsOf_packColumns hsize htiles hpairs hlength hsplit hflag, ← habove]

omit hsize hpairs hlength in
/-- A selected block has failed exactly if it has no vector. -/
theorem start_mem_failed (hsplit : blocks = front ++ b :: back)
    (hflag : flagAt selected b.start = true) :
    b.start ∈ (packColumns find (selectedWithAbove blocks selected)).failed ↔
      find b front.reverse = none := by
  rw [mem_failed]
  constructor
  · rintro ⟨⟨c, above⟩, hentry, hnone, hstart⟩
    obtain ⟨-, front', back', hsplit', rfl⟩ := mem_selectedWithAbove.mp hentry
    rw [hsplit] at hsplit' htiles
    obtain ⟨rfl, rfl, -⟩ := htiles.split_unique hsplit' hstart.symm
    exact hnone
  · exact fun hnone => ⟨(b, front.reverse),
      mem_selectedWithAbove.mpr ⟨hflag, front, back, hsplit, rfl⟩, hnone, rfl⟩

end Batches

section Columns

variable {factor : Option (Mat n n ℝ)} {norm : Normalization} {x : LeadingVector rows ℝ}
  {isPair : Bool} {v : Eigenvector n ℝ}

/-- The parts of a back-substituted vector that become columns. -/
def LeadingVector.parts (x : LeadingVector rows ℝ) (isPair : Bool) : List (Vec rows ℝ) :=
  if isPair then [x.re, x.im] else [x.re]

/-- A pair of zero columns has size zero. -/
theorem Normalization.sizeOf_zero : norm.sizeOf (Vec.zero : Vec n ℝ) Vec.zero = 0 := by
  cases norm <;> simp [sizeOf, Vec.zero, Vec.dot, sumTo_real, maxTo_eq_iSup]

/-- A zero column has size zero. -/
theorem Normalization.sizeOfReal_zero : norm.sizeOfReal (Vec.zero : Vec n ℝ) = 0 := by
  rw [sizeOfReal_eq_length, ← sizeOf_eq_length, sizeOf_zero]

/-- The columns are the parts, expanded and divided by a size that is not zero; so some part is not
zero. -/
theorem LeadingVector.exists_columns_eq (h : x.eigenvector? norm factor isPair = some v) :
    ∃ size : ℝ, size ≠ 0 ∧ (∃ part ∈ x.parts isPair, inAllRows factor part ≠ Vec.zero) ∧
      v.columns = (x.parts isPair).map fun part =>
        (inAllRows factor part).map fun value => value / size := by
  simp only [eigenvector?, Option.ite_none_left_eq_some] at h
  obtain ⟨-, h⟩ := h
  cases isPair with
  | true =>
    simp only [if_true, Eigenvector.ofComplex?, Option.ite_none_right_eq_some, Option.some.injEq]
      at h
    obtain ⟨husable, rfl⟩ := h
    have hsize := ne_zero_of_usableSize husable
    refine ⟨_, hsize, ?_, rfl⟩
    by_contra! hzero
    exact hsize (by rw [hzero x.re (by simp [parts]), hzero x.im (by simp [parts]),
      Normalization.sizeOf_zero])
  | false =>
    simp only [Bool.false_eq_true, if_false, Eigenvector.ofReal?, Option.ite_none_right_eq_some,
      Option.some.injEq] at h
    obtain ⟨husable, rfl⟩ := h
    have hsize := ne_zero_of_usableSize husable
    refine ⟨_, hsize, ?_, rfl⟩
    by_contra! hzero
    exact hsize (by rw [hzero x.re (by simp [parts]), Normalization.sizeOfReal_zero])

/-- A vector that vanishes after a division vanished before. -/
theorem Vec.eq_zero_of_map_div {y : Vec n ℝ} {size : ℝ} (hsize : size ≠ 0)
    (h : (y.map fun value => value / size) = Vec.zero) : y = Vec.zero := by
  apply Vec.ext_get
  intro i hi
  have hentry := congrArg (fun z : Vec n ℝ => z.get i) h
  simpa [hi, Vec.zero, hsize] using hentry

/-- A vector that is worth something has a column that is not zero. -/
theorem LeadingVector.exists_column_ne_zero (h : x.eigenvector? norm factor isPair = some v) :
    ∃ c ∈ v.columns, c ≠ Vec.zero := by
  obtain ⟨size, hsize, ⟨part, hpart, hne⟩, hcolumns⟩ := exists_columns_eq h
  refine ⟨_, hcolumns ▸ List.mem_map_of_mem hpart, fun hzero => hne ?_⟩
  exact Vec.eq_zero_of_map_div hsize hzero

/-- Without a factor the columns end where the vector does. -/
theorem LeadingVector.column_below (h : x.eigenvector? norm none isPair = some v) {c : Vec n ℝ}
    (hc : c ∈ v.columns) {i : Nat} (hi : rows ≤ i) : c.get i = 0 := by
  obtain ⟨size, -, -, hcolumns⟩ := exists_columns_eq h
  rw [hcolumns] at hc
  obtain ⟨part, -, rfl⟩ := List.mem_map.mp hc
  simp [inAllRows, part.get_of_le hi]

end Columns

section Packed

variable {blocks : List (Block ℝ)} {selected : List Bool}

/-- A batch has a column for each flag that is set and packs the columns of the selected blocks, as
many as the block has rows, from top to bottom. It lists exactly the selected blocks without a
vector, in increasing order, and these are the ones with zero columns. Without a factor the columns
of a block are zero behind it. -/
structure Eigenvectors.IsPacked (r : Eigenvectors n ℝ) (blocks : List (Block ℝ))
    (selected : List Bool) (find : Block ℝ → List (Block ℝ) → Option (Eigenvector n ℝ))
    (factor : Option (Mat n n ℝ)) : Prop where
  width : r.columns.length = selected.count true
  columns : r.columns =
    (blocks.filter fun b => flagAt selected b.start).flatMap (r.columnsOf selected)
  length : ∀ b ∈ blocks, flagAt selected b.start = true →
    (r.columnsOf selected b).length = b.size
  increasing : r.failed.Pairwise (· < ·)
  failed : ∀ k ∈ r.failed, ∃ b ∈ blocks, flagAt selected b.start = true ∧ b.start = k
  failed_iff : ∀ front b back, blocks = front ++ b :: back → flagAt selected b.start = true →
    (b.start ∈ r.failed ↔ find b front.reverse = none)
  zero_iff : ∀ b ∈ blocks, flagAt selected b.start = true →
    (b.start ∈ r.failed ↔ ∀ c ∈ r.columnsOf selected b, c = Vec.zero)
  below : factor = none → ∀ b ∈ blocks, flagAt selected b.start = true →
    ∀ c ∈ r.columnsOf selected b, ∀ i, b.stop ≤ i → c.get i = 0

/-- Vectors that are found by back-substitution are packed by blocks. -/
theorem isPacked_packColumns {position count : Nat} {norm : Normalization}
    {factor : Option (Mat n n ℝ)} (htiles : Tiles 0 blocks n)
    (hselected : checkSelection blocks selected position = .ok count)
    (vector : (b : Block ℝ) → List (Block ℝ) → LeadingVector b.stop ℝ) :
    let find := fun b above => (vector b above).eigenvector? norm factor b.isPair
    (packColumns find (selectedWithAbove blocks selected)).IsPacked blocks selected find
      factor := by
  intro find
  obtain ⟨hlength, hpairs⟩ := checkSelection_fits htiles hselected
  have hsize (b : Block ℝ) (above : List (Block ℝ)) (v : Eigenvector n ℝ)
      (hv : find b above = some v) : v.columns.length = b.size :=
    LeadingVector.length_columns_eq_size hv
  have hcolumns {front back : List (Block ℝ)} {b : Block ℝ} (hsplit : blocks = front ++ b :: back)
      (hflag : flagAt selected b.start = true) :=
    columnsOf_eq hsize htiles hpairs hlength hsplit hflag
  refine ⟨?_, columns_eq_flatMap_columnsOf hsize htiles hpairs hlength, fun b hb hflag => ?_,
    pairwise_failed htiles, fun k hk => ?_, fun front b back => start_mem_failed htiles,
    fun b hb hflag => ?_, fun hnone b hb hflag c hc i hi => ?_⟩
  · rw [length_packColumns hsize, map_fst_selectedWithAbove, totalSize_selected htiles hselected]
  · obtain ⟨front, back, hsplit⟩ := List.append_of_mem hb
    rw [columnsOf_packColumns hsize htiles hpairs hlength hsplit hflag, length_packColumns hsize]
    simp
  · obtain ⟨⟨b, above⟩, hentry, -, hstart⟩ := mem_failed.mp hk
    obtain ⟨hflag, front, back, hsplit, -⟩ := mem_selectedWithAbove.mp hentry
    exact ⟨b, by simp [hsplit], hflag, hstart⟩
  · obtain ⟨front, back, hsplit⟩ := List.append_of_mem hb
    rw [start_mem_failed htiles hsplit hflag, hcolumns hsplit hflag]
    cases hfind : find b front.reverse with
    | none => simp
    | some v =>
      obtain ⟨c, hc, hne⟩ := LeadingVector.exists_column_ne_zero hfind
      simpa using ⟨c, hc, hne⟩
  · obtain ⟨front, back, hsplit⟩ := List.append_of_mem hb
    subst hnone
    rw [hcolumns hsplit hflag] at hc
    cases hfind : find b front.reverse with
    | none =>
      rw [hfind] at hc
      simp [(List.mem_replicate.mp hc).2, Vec.zero]
    | some v =>
      rw [hfind] at hc
      exact LeadingVector.column_below hfind hc hi

end Packed

end SchurForm
