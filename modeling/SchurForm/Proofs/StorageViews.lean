import Mathlib.Tactic.SplitIfs
import SchurForm.Proofs.CheckedSteps
import SchurForm.Storage

/-!
# Matrices in column-major storage

What a view of flat storage means: entry `(i, j)` of a matrix stands at offset `j * ld + i`. If the
leading dimension is at least the number of rows and the storage is long enough, reading a view
gives the matrix that the storage holds, and writing one changes the positions of the view and no
others, neither the padding between two columns nor what follows the last one. Arrays whose first
entries are written keep the others. The checks of arguments establish what is needed.
-/

namespace SchurForm

namespace Storage

variable {α β : Type}

/-- Storage holds a matrix. -/
def Holds [Zero α] {rows cols : Nat} (data : Array α) (ld : Nat) (a : Mat rows cols α) : Prop :=
  ∀ i < rows, ∀ j < cols, data[j * ld + i]? = some (a.get i j)

/-- A position that belongs to the view of a matrix. -/
def InView (rows cols ld offset : Nat) : Prop :=
  ∃ i < rows, ∃ j < cols, offset = j * ld + i

/-- Storage after a matrix was written into a view of it. -/
structure Overwritten [Zero α] {rows cols : Nat} (before : Array α) (ld : Nat) (a : Mat rows cols α)
    (after : Array α) : Prop where
  size : after.size = before.size
  holds : Holds after ld a
  kept : ∀ offset, ¬InView rows cols ld offset → after[offset]? = before[offset]?

/-- An array after its first entries were replaced by the given values. -/
structure FrontOverwritten (before : Array β) (values : List β) (after : Array β) : Prop where
  long : values.length ≤ before.size
  entries : after.toList = values ++ before.toList.drop values.length

/-- Storage that is long enough for a view whose columns do not overlap. -/
structure Fits (size rows cols ld : Nat) : Prop where
  leading : max rows 1 ≤ ld
  long : span rows cols ld ≤ size

section Views

variable {size rows cols ld : Nat}

/-- Where a matrix fits, columns are a leading dimension apart. -/
theorem Fits.stride_eq (h : Fits size rows cols ld) : stride ld = ld := by
  have hleading := h.leading
  rw [stride]
  omega

/-- The positions of a view lie inside the storage. -/
theorem Fits.offset_lt (h : Fits size rows cols ld) {i j : Nat} (hi : i < rows) (hj : j < cols) :
    j * ld + i < size := by
  have hcolumn : j * ld ≤ ld * (cols - 1) := by
    rw [Nat.mul_comm]
    exact Nat.mul_le_mul_left ld (by omega)
  have hlong := h.long
  rw [span, if_neg (by omega)] at hlong
  omega

/-- A position of a view belongs to the column that it stands in. -/
theorem Fits.columnOf_eq (h : Fits size rows cols ld) {i j : Nat} (hi : i < rows) (hj : j < cols) :
    columnOf cols ld (j * ld + i) = j := by
  have hleading := h.leading
  have hquotient : (j * ld + i) / ld = j := by
    rw [Nat.mul_comm, Nat.mul_add_div (by omega), Nat.div_eq_of_lt (by omega), Nat.add_zero]
  rw [columnOf, h.stride_eq, hquotient]
  omega

/-- Reading a view gives the matrix that the storage holds. -/
theorem holds_load [Zero α] {data : Array α} (h : Fits data.size rows cols ld) :
    Holds data ld (load data ld rows cols) := by
  intro i hi j hj
  have hoffset := h.offset_lt hi hj
  rw [load, Mat.get_ofFn, if_pos ⟨hi, hj⟩, h.stride_eq]
  simp [hoffset]

/-- Writing a view changes its positions and no others. -/
theorem overwritten_store [Zero α] {data : Array α} (h : Fits data.size rows cols ld)
    (a : Mat rows cols α) : Overwritten data ld a (store data ld a) := by
  refine ⟨Array.size_mapIdx, fun i hi j hj => ?_, fun offset hout => ?_⟩
  · have hoffset := h.offset_lt hi hj
    have hcols : 0 < cols := by omega
    rw [store, Array.getElem?_mapIdx, Array.getElem?_eq_getElem hoffset, Option.map_some]
    simp only [h.columnOf_eq hi hj, h.stride_eq, Nat.add_sub_cancel_left]
    rw [if_pos ⟨hcols, hi⟩]
  · rw [store, Array.getElem?_mapIdx]
    cases hold : data[offset]? with
    | none => rfl
    | some old =>
      rw [Option.map_some]
      -- A position whose row number is small enough stands in the column found for it.
      have hskip : ¬(0 < cols ∧ offset - columnOf cols ld offset * stride ld < rows) := by
        rintro ⟨hcols, hrow⟩
        refine hout ⟨_, hrow, columnOf cols ld offset, by rw [columnOf]; omega, ?_⟩
        have hcolumn : columnOf cols ld offset * stride ld ≤ offset :=
          Nat.le_trans (Nat.mul_le_mul_right _ (Nat.min_le_left _ _)) (Nat.div_mul_le_self _ _)
        rw [h.stride_eq] at hcolumn ⊢
        omega
      simp only [if_neg hskip]

/-- What was written into a view is read from it. -/
theorem load_store [Zero α] {data : Array α} (h : Fits data.size rows cols ld)
    (a : Mat rows cols α) : load (store data ld a) ld rows cols = a := by
  refine Mat.ext_get fun i hi j hj => ?_
  have hheld := (overwritten_store h a).holds i hi j hj
  rw [load, Mat.get_ofFn, if_pos ⟨hi, hj⟩, h.stride_eq, Array.getD_eq_getD_getElem?, hheld,
    Option.getD_some]

/-- Writing a view again leaves nothing of what was written before. -/
theorem store_store [Zero α] (data : Array α) (ld : Nat) (a b : Mat rows cols α) :
    store (store data ld a) ld b = store data ld b := by
  rw [store, store, store, Array.mapIdx_mapIdx]
  congr 1
  funext offset old
  dsimp only [Function.comp_apply]
  split_ifs <;> rfl

/-- Writing back what a view reads changes nothing. -/
theorem store_load [Zero α] (data : Array α) (ld : Nat) :
    store data ld (load data ld rows cols) = data := by
  refine Array.ext_getElem? fun offset => ?_
  rw [store, Array.getElem?_mapIdx]
  cases hold : data[offset]? with
  | none => rfl
  | some old =>
    rw [Option.map_some]
    congr 1
    by_cases hview : 0 < cols ∧ offset - columnOf cols ld offset * stride ld < rows
    · have hcolumn : columnOf cols ld offset < cols := by
        rw [columnOf]
        omega
      have hstart : columnOf cols ld offset * stride ld ≤ offset :=
        Nat.le_trans (Nat.mul_le_mul_right _ (Nat.min_le_left _ _)) (Nat.div_mul_le_self _ _)
      simp only [if_pos hview]
      rw [load, Mat.get_ofFn, if_pos ⟨hview.2, hcolumn⟩, Nat.add_sub_cancel' hstart,
        Array.getD_eq_getD_getElem?, hold, Option.getD_some]
    · simp only [if_neg hview]

/-- Storage keeps its length. -/
@[simp] theorem size_store [Zero α] (data : Array α) (ld : Nat) (a : Mat rows cols α) :
    (store data ld a).size = data.size :=
  Array.size_mapIdx

end Views

section Fronts

/-- Entry by entry, an array whose front was replaced. -/
theorem frontOverwritten_of_getElem? {before after : Array β} {values : List β}
    (hlong : values.length ≤ before.size)
    (hentry : ∀ i : Nat, after[i]? = if i < values.length then values[i]? else before[i]?) :
    FrontOverwritten before values after := by
  refine ⟨hlong, List.ext_getElem? fun i => ?_⟩
  rw [Array.getElem?_toList, hentry i, List.getElem?_append]
  split
  · rfl
  · rw [List.getElem?_drop, Array.getElem?_toList]
    congr 1
    omega

/-- Writing the front of an array keeps the other entries. -/
theorem frontOverwritten_storeFront [Zero α] {n : Nat} {data : Array α} (hlong : n ≤ data.size)
    (v : Vec n α) : FrontOverwritten data v.toList (storeFront data v) := by
  refine frontOverwritten_of_getElem? (by simpa [Vec.toList] using hlong) fun i => ?_
  rw [storeFront, Array.getElem?_mapIdx]
  by_cases hi : i < n
  · have hsize : i < data.size := by omega
    simp [Vec.toList, Vec.get, hi, hsize]
  · simp [Vec.toList, hi]

/-- Writing the first flags of an array keeps the other ones. -/
theorem frontOverwritten_storeFlags {data : Array Bool} {flags : List Bool}
    (hlong : flags.length ≤ data.size) : FrontOverwritten data flags (storeFlags data flags) := by
  refine frontOverwritten_of_getElem? hlong fun i => ?_
  rw [storeFlags, Array.getElem?_mapIdx]
  by_cases hi : i < flags.length
  · have hsize : i < data.size := by omega
    simp [hi, hsize]
  · simp [hi]

end Fronts

section Words

variable {rows cols ld : Nat} {writable : Bool}

/-- The number of machine words in decimal. -/
theorem wordCount_eq : wordCount = 18446744073709551616 := rfl

/-- The limit of addresses in decimal. -/
theorem addressLimit_eq : addressLimit = 9223372036854775807 := rfl

/-- A span that is a machine word is counted as it is. -/
theorem extent_eq_span (h : span rows cols ld < wordCount) :
    extent rows cols ld = span rows cols ld :=
  Nat.mod_eq_of_lt h

/-- Two or more columns that run backwards leave every storage that can be addressed. -/
theorem extent_le_or_lt_of_backward (hcols : 1 < cols) (hrows : 0 < rows)
    (hbackward : addressLimit < ld ∧ ld < wordCount)
    (hoffset : 8 * ((rows - 1) + (cols - 1) * (wordCount - ld)) ≤ addressLimit) :
    extent rows cols ld ≤ (rows - 1) + (cols - 1) * (wordCount - ld) ∨
      addressLimit < 8 * extent rows cols ld := by
  obtain ⟨c, rfl⟩ : ∃ c, cols = c + 2 := ⟨cols - 2, by omega⟩
  obtain ⟨step, hstep⟩ : ∃ step, ld + step = wordCount := ⟨wordCount - ld, by omega⟩
  have hdistance : wordCount - ld = step := by omega
  have hround : ld * (c + 1) + (c + 1) * step = wordCount * (c + 1) := by
    rw [← hstep, Nat.mul_comm (c + 1) step, Nat.add_mul]
  have hback : 1 ≤ (c + 1) * step := Nat.mul_pos c.succ_pos (by omega)
  have hextent : extent rows (c + 2) ld = (ld * (c + 1) + rows) % wordCount := by
    rw [extent, span, if_neg (by omega)]
    rfl
  rw [hdistance, show c + 2 - 1 = c + 1 from rfl] at hoffset ⊢
  rw [hextent]
  generalize ld * (c + 1) = forth at hround
  generalize (c + 1) * step = back at hround hback hoffset
  rw [wordCount_eq] at hround ⊢
  rw [addressLimit_eq] at hoffset ⊢
  omega

/-- The distance to the end of a view whose columns run forwards. -/
theorem span_le_of_forward (hstep : stepSize ld = stride ld) (hrows : 0 < rows) (hcols : 0 < cols) :
    span rows cols ld ≤ largestOffset rows cols ld + 1 := by
  have hstride : (cols - 1) * ld ≤ (cols - 1) * stride ld :=
    Nat.mul_le_mul_left _ (Nat.le_max_left ld 1)
  rw [span, if_neg (by omega), largestOffset, hstep, Nat.mul_comm ld]
  omega

/-- A matrix with a view is counted to need its span. -/
theorem extent_eq_span_of_view (h : viewFault? rows cols ld writable = none) :
    extent rows cols ld = span rows cols ld := by
  by_cases hempty : rows = 0 ∨ cols = 0
  · rw [extent, span, if_pos hempty]
    rfl
  · simp only [viewFault?, if_neg hempty] at h
    split_ifs at h with hlarge hbounds
    rw [not_or, Nat.not_lt, Nat.not_lt] at hlarge
    rw [not_or] at hempty
    have hoffset := hlarge.2
    have hlimit : addressLimit < wordCount := by decide
    by_cases hforward : stepSize ld = stride ld
    · have hspan := span_le_of_forward hforward (Nat.pos_of_ne_zero hempty.1)
        (Nat.pos_of_ne_zero hempty.2)
      exact extent_eq_span (by omega)
    · have hbackward : addressLimit < stride ld ∧ stride ld < wordCount :=
        Classical.byContradiction fun hnot => hforward (if_neg hnot)
      have hstride : stride ld = ld := by
        rw [addressLimit_eq, stride] at hbackward
        rw [stride]
        omega
      have hdistance : largestOffset rows cols ld =
          (rows - 1) + (cols - 1) * (wordCount - ld) := by
        rw [largestOffset, stepSize, if_pos hbackward, hstride]
      rw [hdistance] at hoffset hbounds
      by_cases hcols : 1 < cols
      · exact absurd (extent_le_or_lt_of_backward hcols (Nat.pos_of_ne_zero hempty.1)
          (hstride ▸ hbackward) hoffset) hbounds
      · obtain rfl : cols = 1 := by omega
        refine extent_eq_span ?_
        rw [span, if_neg (by omega)]
        omega

end Words

section Checks

variable {length n rows cols ld position : Nat} {name : String} {writable : Bool}

/-- A leading dimension passes exactly if it is at least one and at least the number of rows. -/
theorem requireLeadingDimension_eq_ok {u : Unit} :
    (requireLeadingDimension rows ld position name : Except (FormError α) Unit) = .ok u ↔
      max rows 1 ≤ ld := by
  rw [requireLeadingDimension]
  split <;> simp <;> omega

/-- An array passes exactly if it is long enough. -/
theorem requireLength_eq_ok {u : Unit} :
    (requireLength length n position name : Except (FormError α) Unit) = .ok u ↔ n ≤ length := by
  rw [requireLength]
  split <;> simp <;> omega

/-- Storage passes exactly if it is as long as the matrix is counted to need. -/
theorem requireStorage_eq_ok {u : Unit} :
    (requireStorage length rows cols ld position name : Except (FormError α) Unit) = .ok u ↔
      extent rows cols ld ≤ length := by
  simp only [requireStorage]
  split <;> simp <;> omega

/-- A view needs storage that is long enough for it, and must have no fault. -/
theorem requireView_eq_ok {u : Unit} :
    (requireView length rows cols ld position name writable : Except (FormError α) Unit) = .ok u ↔
      span rows cols ld ≤ length ∧ viewFault? rows cols ld writable = none := by
  simp only [requireView, checked_bind_eq_ok, requireStorage_eq_ok, exists_and_left, exists_const]
  cases hview : viewFault? rows cols ld writable with
  | none => simp [extent_eq_span_of_view hview]
  | some fault => simp

/-- A leading dimension that is too small is charged to its argument. -/
theorem chargesArguments_requireLeadingDimension (h : IsOrdinal position) :
    ChargesArguments (requireLeadingDimension rows ld position name :
      Except (FormError α) Unit) := by
  rw [requireLeadingDimension]
  split
  · exact chargesArguments_error h
  · exact chargesArguments_ok _

/-- An array that is too short is charged to its argument. -/
theorem chargesArguments_requireLength (h : IsOrdinal position) :
    ChargesArguments (requireLength length n position name : Except (FormError α) Unit) := by
  rw [requireLength]
  split
  · exact chargesArguments_error h
  · exact chargesArguments_ok _

/-- Storage without a view is charged to an argument. -/
theorem chargesArguments_requireView (h : IsOrdinal position) :
    ChargesArguments (requireView length rows cols ld position name writable :
      Except (FormError α) Unit) := by
  refine ChargesArguments.bind ?_ fun _ => ?_
  · simp only [requireStorage]
    split
    · exact chargesArguments_error h
    · exact chargesArguments_ok _
  · split
    · exact chargesArguments_error trivial
    · exact chargesArguments_ok _

end Checks

end Storage

end SchurForm
