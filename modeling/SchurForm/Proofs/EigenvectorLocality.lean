import SchurForm.Proofs.PackedBatches
import SchurForm.Proofs.RecognizedForm

/-!
# An eigenvector depends on the leading part alone

The vector of a block is found in the rows and columns down to the end of the block. What stands to
the right of them or below them, how the rest is split into blocks and which other blocks are
selected does not matter, as long as a block ends in the same row: the blocks above that row are
recognized alike, the sums of the columns are taken over the same entries, and a step of a sweep
reads nothing else. Of the remaining matrix only the order counts, through the least pivot.
-/

namespace SchurForm

open Scalar Block

variable {α : Type} [Scalar α] {n e : Nat}

section Scans

variable {s s' : Mat n n α} {pair pair' : Nat → Except (FormError α) (α × α)} {left k : Nat}
  {b : Block α} {front back front' back' rest : List (Block α)}

/-- The first block that a scan finds, and the scan behind it. -/
theorem scanBlocks_eq_cons (h : scanBlocks s pair left k = .ok (b :: rest)) :
    b.start = k ∧ b.isPair = (decide (1 < left) && s.get (k + 1) k != 0) ∧
      (∀ re im, b = .pair k re im → pair k = .ok (re, im)) ∧
      scanBlocks s pair (left - b.size) (k + b.size) = .ok rest := by
  -- The cases of the scan are those of `tiles_of_scanBlocks`.
  fun_induction scanBlocks s pair left k generalizing b rest with
  | case1 => cases h
  | case2 k =>
    obtain ⟨rfl, rfl⟩ : Block.real k = b ∧ [] = rest := by simpa using h
    exact ⟨rfl, rfl, by rintro _ _ ⟨⟩, rfl⟩
  | case3 => cases h
  | case4 left k hnonzero =>
    obtain ⟨⟨re, im⟩, hpair, h⟩ := checked_bind_eq_ok.mp h
    obtain ⟨_, hrest, h⟩ := checked_bind_eq_ok.mp h
    obtain ⟨rfl, rfl⟩ := List.cons.inj (Except.ok.inj h)
    refine ⟨rfl, by simp [isPair, hnonzero], fun re' im' heq => ?_, hrest⟩
    obtain ⟨-, rfl, rfl⟩ := Block.pair.inj heq
    exact hpair
  | case5 left k hzero =>
    obtain ⟨_, hrest, h⟩ := checked_bind_eq_ok.mp h
    obtain ⟨rfl, rfl⟩ := List.cons.inj (Except.ok.inj h)
    exact ⟨rfl, by simp [isPair, hzero], by rintro _ _ ⟨⟩, hrest⟩

/-- Two scans find the same blocks above a row in which both begin a block, if they meet the same
entries and are supplied with the same eigenvalues there. -/
theorem scanBlocks_leading_eq (hentry : ∀ j, j + 1 < e → s.get (j + 1) j = s'.get (j + 1) j)
    (hpair : ∀ j, j + 2 ≤ e → pair j = pair' j)
    (h : scanBlocks s pair left k = .ok (front ++ back)) (hrows : k + totalSize front = e)
    (h' : scanBlocks s' pair' left k = .ok (front' ++ back')) (hrows' : k + totalSize front' = e) :
    front = front' := by
  induction front generalizing left k front' with
  | nil => exact (eq_nil_of_totalSize_eq_zero (by simp at hrows; omega)).symm
  | cons b front ih =>
    cases front' with
    | nil => exact absurd hrows (by have := b.size_pos; simp at hrows' ⊢; omega)
    | cons b' front' =>
      obtain ⟨hstart, hisPair, hvalue, hrest⟩ := scanBlocks_eq_cons h
      obtain ⟨hstart', hisPair', hvalue', hrest'⟩ := scanBlocks_eq_cons h'
      simp only [totalSize_cons] at hrows hrows'
      have hkind : b.isPair = b'.isPair := by
        by_cases hk : k + 1 < e
        · rw [hisPair, hisPair', hentry k hk]
        · cases b <;> cases b' <;> simp [size, isPair] at hrows hrows' ⊢ <;> omega
      have hblock : b = b' := by
        cases b with
        | real j =>
          cases b' with
          | real j' => exact congrArg _ (hstart.trans hstart'.symm)
          | pair j' re im => cases hkind
        | pair j re im =>
          cases b' with
          | real j' => cases hkind
          | pair j' re' im' =>
            obtain rfl : j = k := hstart
            obtain rfl : j' = j := hstart'
            have hfound := hvalue re im rfl
            rw [hpair j' (by simp [size] at hrows; omega), hvalue' re' im' rfl] at hfound
            obtain ⟨rfl, rfl⟩ := Prod.mk.inj (Except.ok.inj hfound)
            rfl
      subst hblock
      rw [ih hrest (by omega) hrest' (by omega)]

end Scans

section Leading

/-- The matrices agree in the leading rows and columns. -/
def Mat.AgreesWithin (e : Nat) (a a' : Mat n n α) : Prop :=
  ∀ i j, i < e → j < e → a.get i j = a'.get i j

/-- The leading columns of the matrices are the same. -/
def Mat.SameLeadingColumns (e : Nat) (a a' : Mat n n α) : Prop :=
  ∀ i j, j < e → a.get i j = a'.get i j

variable {s s' : Mat n n α} {front back back' : List (Block α)}

/-- Two forms that agree above a row in which both begin a block have the same blocks above it. -/
theorem Mat.AgreesWithin.blocks_eq {front' : List (Block α)} (h : s.AgreesWithin e s')
    (hblocks : diagonalBlocks s = .ok (front ++ back)) (hrows : totalSize front = e)
    (hblocks' : diagonalBlocks s' = .ok (front' ++ back')) (hrows' : totalSize front' = e) :
    front = front' := by
  obtain ⟨_, -, hscan⟩ := checked_bind_eq_ok.mp hblocks
  obtain ⟨_, -, hscan'⟩ := checked_bind_eq_ok.mp hblocks'
  refine scanBlocks_leading_eq (fun j hj => h _ _ (by omega) (by omega)) (fun j hj => ?_)
    hscan (by omega) hscan' (by omega)
  simp only [requirePair, pairAt, h j j (by omega) (by omega), h j (j + 1) (by omega) (by omega),
    h (j + 1) j (by omega) (by omega), h (j + 1) (j + 1) (by omega) (by omega)]

/-- A sum depends on the terms below its bound only. -/
theorem sumTo_congr {k : Nat} {f g : Nat → α} (h : ∀ i < k, f i = g i) : sumTo k f = sumTo k g := by
  induction k with
  | zero => rfl
  | succ k ih =>
    rw [sumTo, sumTo, ih fun i hi => h i (Nat.lt_succ_of_lt hi), h k (Nat.lt_succ_self k)]

/-- A maximum depends on the terms below its bound only. -/
theorem maxTo_congr {k : Nat} {f g : Nat → α} (h : ∀ i < k, f i = g i) : maxTo k f = maxTo k g := by
  induction k with
  | zero => rfl
  | succ k ih =>
    rw [maxTo, maxTo, ih fun i hi => h i (Nat.lt_succ_of_lt hi), h k (Nat.lt_succ_self k)]

omit [Scalar α] in
/-- The block that covers a row is found among the leading blocks that reach behind the row. -/
theorem exists_blockAt_append {row : Nat} (htiles : Tiles 0 front e) (hrow : row < e) :
    ∃ b ∈ front, b.start ≤ row ∧ ∀ back, blockAt (front ++ back) row = some b := by
  have hsize : e = totalSize front := by simpa using htiles.last_eq
  have hlaid : row < 0 + totalSize front := by omega
  obtain ⟨place, hplace, hfirst, hlast⟩ := exists_placed_row (Nat.zero_le row) hlaid
  have hstart := htiles.start_eq_of_mem_placed hplace
  have hmem := mem_of_mem_placed hplace
  obtain ⟨i, rfl⟩ := Nat.exists_eq_add_of_le (hstart ▸ hfirst)
  refine ⟨place.2, hmem, Nat.le_add_right _ _, fun back => ?_⟩
  have hfound := htiles.blockAt hmem (i := i) (by omega)
  rw [blockAt] at hfound ⊢
  rw [List.find?_append, hfound, Option.some_or]

/-- The column sums above the leading blocks are taken over the leading rows and columns. -/
theorem Mat.AgreesWithin.sumsAboveBlocks_eq (h : s.AgreesWithin e s') (htiles : Tiles 0 front e)
    {j : Nat} (hj : j < e) : (sumsAboveBlocks s (front ++ back)).get j =
      (sumsAboveBlocks s' (front ++ back')).get j := by
  obtain ⟨b, hb, hstart, hfound⟩ := exists_blockAt_append htiles hj
  have hsum : s.columnSumAbove b.start j = s'.columnSumAbove b.start j :=
    sumTo_congr fun i hi => by rw [h i j (by omega) hj]
  simp only [sumsAboveBlocks, Vec.get_ofFn, hfound, hsum]

/-- Both sweeps read the same leading rows and columns and the same sums for them. -/
structure StandardSweep.AgreesWithin (e : Nat) (sweep sweep' : StandardSweep n α) : Prop where
  s : sweep.s.AgreesWithin e sweep'.s
  sums : ∀ j < e, sweep.sums.get j = sweep'.sums.get j

end Leading

section Sweeps

variable {sweep sweep' : StandardSweep n α} {rows : Nat} {b : Block α}

/-- A step for a block in the leading rows. -/
theorem StandardSweep.AgreesWithin.step_eq (h : sweep.AgreesWithin e sweep') (hb : b.stop ≤ e)
    (shiftRe shiftIm floor : α) (x : LeadingVector rows α) :
    sweep.step shiftRe shiftIm floor x b = sweep'.step shiftRe shiftIm floor x b := by
  rw [stop] at hb
  have hequation : sweep.equation shiftRe shiftIm floor b.start b.size =
      sweep'.equation shiftRe shiftIm floor b.start b.size := by
    have hblock : (sweep.s.block b.start b.start : Mat b.size b.size α) =
        sweep'.s.block b.start b.start :=
      Mat.ext_get fun i hi j hj => by
        simp [Mat.block, hi, hj, h.s (b.start + i) (b.start + j) (by omega) (by omega)]
    simp only [equation, hblock]
  have hcontribution : sweep.contribution b.start b.size = sweep'.contribution b.start b.size :=
    maxTo_congr fun c hc => h.sums _ (by omega)
  have hsubtract (y : LeadingVector rows α) (c : Nat) (hc : c ∈ List.range b.size) :
      y.subtractColumn sweep.s b.start (b.start + c) =
        y.subtractColumn sweep'.s b.start (b.start + c) := by
    rw [List.mem_range] at hc
    have hpart (v : Vec rows α) :
        (Vec.ofFn fun i => if i < b.start then v.get i - v.get (b.start + c) *
          sweep.s.get i (b.start + c) else v.get i : Vec rows α) =
        Vec.ofFn fun i => if i < b.start then v.get i - v.get (b.start + c) *
          sweep'.s.get i (b.start + c) else v.get i := by
      refine Vec.ext_get fun i hi => ?_
      simp only [Vec.get_ofFn, hi, if_true]
      split
      · rw [h.s i (b.start + c) (by omega) (by omega)]
      · rfl
    simp only [LeadingVector.subtractColumn, hpart]
  simp only [step, hequation, hcontribution]
  exact List.foldl_ext _ _ _ fun y c hc => hsubtract y c hc

/-- The starting vectors of a block are read from its columns. -/
theorem startReal_eq {s s' : Mat n n α} {k : Nat} (h : s.AgreesWithin (k + 1) s') :
    startReal s k = startReal s' k := by
  have hpart : (Vec.ofFn fun i => if i = k then 1 else -s.get i k : Vec (k + 1) α) =
      Vec.ofFn fun i => if i = k then 1 else -s'.get i k :=
    Vec.ext_get fun i hi => by simp [hi, h i k hi (Nat.lt_succ_self k)]
  simp only [startReal, hpart]

/-- The start of a pair depends on the leading part of the matrix up to its own rows only. -/
theorem startPair_eq {s s' : Mat n n α} {k : Nat} (h : s.AgreesWithin (k + 2) s') (re im : α) :
    startPair s k re im = startPair s' k re im := by
  have hpart (x y : α) : (Vec.ofFn fun i => if i = k then x else if i = k + 1 then y
        else -(x * s.get i k + y * s.get i (k + 1)) : Vec (k + 2) α) =
      Vec.ofFn fun i => if i = k then x else if i = k + 1 then y
        else -(x * s'.get i k + y * s'.get i (k + 1)) :=
    Vec.ext_get fun i hi => by simp [hi, h i k hi (by omega), h i (k + 1) hi (by omega)]
  simp only [startPair, hpart, h k k (by omega) (by omega), h k (k + 1) (by omega) (by omega),
    h (k + 1) k (by omega) (by omega), h (k + 1) (k + 1) (by omega) (by omega)]

/-- The vector of a block in the leading rows. -/
theorem StandardSweep.AgreesWithin.vector_eq (h : sweep.AgreesWithin b.stop sweep')
    {above : List (Block α)} (habove : ∀ c ∈ above, c.stop ≤ b.stop) :
    sweep.vector b above = sweep'.vector b above := by
  have hclimb {rows : Nat} (shiftRe shiftIm : α) (start : LeadingVector rows α) :
      sweep.climb shiftRe shiftIm start above = sweep'.climb shiftRe shiftIm start above :=
    List.foldl_ext _ _ _ fun x c hc => h.step_eq (habove c hc) _ _ _ x
  cases b with
  | real k =>
    change sweep.climb (sweep.s.get k k) 0 (startReal sweep.s k) above =
      sweep'.climb (sweep'.s.get k k) 0 (startReal sweep'.s k) above
    rw [hclimb, startReal_eq (k := k) h.s, h.s k k (Nat.lt_succ_self k) (Nat.lt_succ_self k)]
  | pair k re im =>
    change sweep.climb re im (startPair sweep.s k re im) above =
      sweep'.climb re im (startPair sweep'.s k re im) above
    rw [hclimb, startPair_eq (k := k) h.s]

/-- A vector is expanded by the leading columns of a factor. -/
theorem inAllRows_eq {factor factor' : Option (Mat n n α)}
    (h : Option.Rel (Mat.SameLeadingColumns rows) factor factor') (x : Vec rows α) :
    (inAllRows factor x : Vec n α) = inAllRows factor' x := by
  cases h with
  | none => rfl
  | some h =>
    refine Vec.ext_get fun i hi => ?_
    simp only [inAllRows, Vec.get_ofFn, hi, if_true]
    exact sumTo_congr fun k hk => by rw [h i k hk]

/-- Expanding a vector that ends early depends on as many leading columns of the factor only. -/
theorem LeadingVector.eigenvector?_eq {factor factor' : Option (Mat n n α)}
    (h : Option.Rel (Mat.SameLeadingColumns rows) factor factor') (norm : Normalization)
    (isPair : Bool) (x : LeadingVector rows α) :
    x.eigenvector? norm factor isPair = x.eigenvector? norm factor' isPair := by
  simp only [eigenvector?, Eigenvector.ofComplex?, Eigenvector.ofReal?, inAllRows_eq h]

end Sweeps

section Batches

variable {blocks blocks' : List (Block α)} {b : Block α} {selected selected' : List Bool}
  {norm : Normalization}

/-- Two batches have the same columns for a block and agree on whether it has failed. -/
def Eigenvectors.AgreeOn (r r' : Eigenvectors n α) (selected selected' : List Bool)
    (b : Block α) : Prop :=
  r.columnsOf selected b = r'.columnsOf selected' b ∧ (b.start ∈ r.failed ↔ b.start ∈ r'.failed)

/-- Batches agree on a block for which they pack the same vector. -/
theorem agreeOn_packColumns {position count count' : Nat} {factor factor' : Option (Mat n n α)}
    {vector vector' : (b : Block α) → List (Block α) → LeadingVector b.stop α}
    {front back back' : List (Block α)}
    (htiles : Tiles 0 blocks n) (hselected : checkSelection blocks selected position = .ok count)
    (htiles' : Tiles 0 blocks' n)
    (hselected' : checkSelection blocks' selected' position = .ok count')
    (hsplit : blocks = front ++ b :: back) (hsplit' : blocks' = front ++ b :: back')
    (hflag : flagAt selected b.start = true) (hflag' : flagAt selected' b.start = true)
    (hvector : (vector b front.reverse).eigenvector? norm factor b.isPair =
      (vector' b front.reverse).eigenvector? norm factor' b.isPair) :
    (packColumns (fun b above => (vector b above).eigenvector? norm factor b.isPair)
      (selectedWithAbove blocks selected)).AgreeOn
        (packColumns (fun b above => (vector' b above).eigenvector? norm factor' b.isPair)
          (selectedWithAbove blocks' selected')) selected selected' b := by
  obtain ⟨hlength, hpairs⟩ := checkSelection_fits htiles hselected
  obtain ⟨hlength', hpairs'⟩ := checkSelection_fits htiles' hselected'
  constructor
  · rw [columnsOf_eq (fun _ _ _ => LeadingVector.length_columns_eq_size) htiles hpairs hlength
      hsplit hflag, columnsOf_eq (fun _ _ _ => LeadingVector.length_columns_eq_size) htiles' hpairs'
      hlength' hsplit' hflag', hvector]
  · rw [start_mem_failed htiles hsplit hflag, start_mem_failed htiles' hsplit' hflag', hvector]

/-- Two standard forms that agree in the leading rows and columns down to the end of a block in both
have the same columns for this block, whatever else is selected. -/
theorem StandardForm.agreeOn {form form' : StandardForm n α} {count count' : Nat}
    {r r' : Eigenvectors n α} (hblocks : diagonalBlocks form.s = .ok blocks)
    (hselected : checkSelection blocks selected 2 = .ok count)
    (hblocks' : diagonalBlocks form'.s = .ok blocks')
    (hselected' : checkSelection blocks' selected' 2 = .ok count')
    (hr : form.eigenvectors norm selected = .ok r)
    (hr' : form'.eigenvectors norm selected' = .ok r') (hb : b ∈ blocks)
    (hflag : flagAt selected b.start = true) (hflag' : flagAt selected' b.start = true)
    (hstop : ∃ b' ∈ blocks', b'.stop = b.stop) (hs : form.s.AgreesWithin b.stop form'.s)
    (hq : Option.Rel (Mat.SameLeadingColumns b.stop) form.q form'.q) :
    b ∈ blocks' ∧ r.AgreeOn r' selected selected' b := by
  rw [eigenvectors_eq_ok hblocks hselected] at hr
  rw [eigenvectors_eq_ok hblocks' hselected'] at hr'
  obtain rfl := Except.ok.inj hr
  obtain rfl := Except.ok.inj hr'
  have htiles := tiles_of_diagonalBlocks hblocks
  have htiles' := tiles_of_diagonalBlocks hblocks'
  obtain ⟨front, back, rfl⟩ := List.append_of_mem hb
  obtain ⟨b', hb', hstop'⟩ := hstop
  obtain ⟨front', back', rfl⟩ := List.append_of_mem hb'
  have hthrough := htiles.through
  have hrows : totalSize (front ++ [b]) = b.stop := by simpa using hthrough.last_eq.symm
  have hrows' : totalSize (front' ++ [b']) = b.stop := by
    simpa [hstop'] using htiles'.through.last_eq.symm
  have hleading : front ++ [b] = front' ++ [b'] := by
    rw [List.append_cons front b back] at hblocks
    rw [List.append_cons front' b' back'] at hblocks'
    exact hs.blocks_eq hblocks hrows hblocks' hrows'
  obtain ⟨rfl, hlast⟩ := List.append_inj' hleading rfl
  obtain rfl := (List.cons.inj hlast).1
  have hsums (j : Nat) (hj : j < b.stop) : (sumsAboveBlocks form.s (front ++ b :: back)).get j =
      (sumsAboveBlocks form'.s (front ++ b :: back')).get j := by
    rw [List.append_cons front b back, List.append_cons front b back']
    exact hs.sumsAboveBlocks_eq hthrough hj
  have hsweeps : (⟨form.s, sumsAboveBlocks form.s (front ++ b :: back)⟩ :
      StandardSweep n α).AgreesWithin b.stop
        ⟨form'.s, sumsAboveBlocks form'.s (front ++ b :: back')⟩ := ⟨hs, hsums⟩
  refine ⟨hb', agreeOn_packColumns htiles hselected htiles' hselected' rfl rfl hflag hflag' ?_⟩
  have habove : ∀ c ∈ front.reverse, c.stop ≤ b.stop := fun c hc =>
    hthrough.stop_le (List.mem_append_left _ (List.mem_reverse.mp hc))
  rw [LeadingVector.eigenvector?_eq hq, hsweeps.vector_eq habove]

/-- Two selections of a pencil that contain a block give the same columns for it. -/
theorem PencilForm.agreeOn {form : PencilForm n α} {count count' : Nat} {r r' : Eigenvectors n α}
    (hblocks : pencilBlocks form.s form.t = .ok blocks)
    (hselected : checkSelection blocks selected 2 = .ok count)
    (hselected' : checkSelection blocks selected' 2 = .ok count')
    (hr : form.eigenvectors norm selected = .ok r)
    (hr' : form.eigenvectors norm selected' = .ok r') (hb : b ∈ blocks)
    (hflag : flagAt selected b.start = true) (hflag' : flagAt selected' b.start = true) :
    r.AgreeOn r' selected selected' b := by
  rw [eigenvectors_eq_ok hblocks hselected] at hr
  rw [eigenvectors_eq_ok hblocks hselected'] at hr'
  obtain rfl := Except.ok.inj hr
  obtain rfl := Except.ok.inj hr'
  have htiles := tiles_of_pencilBlocks hblocks
  obtain ⟨front, back, hsplit⟩ := List.append_of_mem hb
  exact agreeOn_packColumns htiles hselected htiles hselected' hsplit hsplit hflag hflag' rfl

end Batches

/-- Eigenvectors are packed by blocks and independent of each other. The batch of any selection that
fits a standard form or a pencil has a column for each flag that is set; the columns of a block
follow those of the selected blocks above it and are zero exactly if the block is listed as failed.
The columns of a block and whether it has failed are the same for every other selection that has the
block. For a standard form they are the same for every other form in which a block ends in the same
row: it only has to agree with the first one down to the end of the block, and its factor in as many
columns. -/
theorem eigenvectors_packed (norm : Normalization) :
    (∀ (form : StandardForm n ℝ) (blocks : List (Block ℝ)) (selected : List Bool) (count : Nat),
      diagonalBlocks form.s = .ok blocks → checkSelection blocks selected 2 = .ok count →
      ∃ r, form.eigenvectors norm selected = .ok r ∧
        r.IsPacked blocks selected (fun b above =>
          ((⟨form.s, sumsAboveBlocks form.s blocks⟩ : StandardSweep n ℝ).vector b
            above).eigenvector? norm form.q b.isPair) form.q ∧
        ∀ (form' : StandardForm n ℝ) (blocks' : List (Block ℝ)) (selected' : List Bool)
          (count' : Nat), diagonalBlocks form'.s = .ok blocks' →
          checkSelection blocks' selected' 2 = .ok count' →
          ∃ r', form'.eigenvectors norm selected' = .ok r' ∧ ∀ b ∈ blocks,
            flagAt selected b.start = true → flagAt selected' b.start = true →
            (∃ b' ∈ blocks', b'.stop = b.stop) → form.s.AgreesWithin b.stop form'.s →
            Option.Rel (Mat.SameLeadingColumns b.stop) form.q form'.q →
            b ∈ blocks' ∧ r.AgreeOn r' selected selected' b) ∧
    (∀ (form : PencilForm n ℝ) (blocks : List (Block ℝ)) (selected : List Bool) (count : Nat),
      pencilBlocks form.s form.t = .ok blocks → checkSelection blocks selected 2 = .ok count →
      ∃ r, form.eigenvectors norm selected = .ok r ∧
        r.IsPacked blocks selected (fun b above =>
          ((PencilSweep.ofPencil form.s form.t blocks).vector b above).eigenvector? norm form.z
            b.isPair) form.z ∧
        ∀ (selected' : List Bool) (count' : Nat), checkSelection blocks selected' 2 = .ok count' →
          ∃ r', form.eigenvectors norm selected' = .ok r' ∧ ∀ b ∈ blocks,
            flagAt selected b.start = true → flagAt selected' b.start = true →
            r.AgreeOn r' selected selected' b) := by
  refine ⟨fun form blocks selected count hblocks hselected => ?_,
    fun form blocks selected count hblocks hselected => ?_⟩
  · have hr : form.eigenvectors norm selected = _ :=
      StandardForm.eigenvectors_eq_ok hblocks hselected
    refine ⟨_, hr, isPacked_packColumns (tiles_of_diagonalBlocks hblocks) hselected _, ?_⟩
    intro form' blocks' selected' count' hblocks' hselected'
    have hr' : form'.eigenvectors norm selected' = _ :=
      StandardForm.eigenvectors_eq_ok hblocks' hselected'
    exact ⟨_, hr', fun b hb hflag hflag' hstop hs hq =>
      StandardForm.agreeOn hblocks hselected hblocks' hselected' hr hr' hb hflag hflag' hstop hs hq⟩
  · have hr : form.eigenvectors norm selected = _ :=
      PencilForm.eigenvectors_eq_ok hblocks hselected
    refine ⟨_, hr, isPacked_packColumns (tiles_of_pencilBlocks hblocks) hselected _, ?_⟩
    intro selected' count' hselected'
    have hr' : form.eigenvectors norm selected' = _ :=
      PencilForm.eigenvectors_eq_ok hblocks hselected'
    exact ⟨_, hr', fun b hb hflag hflag' =>
      PencilForm.agreeOn hblocks hselected hselected' hr hr' hb hflag hflag'⟩

/-- The first eigenvector of a triangular matrix of order two does not depend on the second column,
nor on whether the second eigenvector is wanted; in a pencil the selection does not matter. -/
theorem eigenvectors_packed_two :
    (∃ r r', StandardForm.eigenvectors .maxAbs ⟨Mat.ofRows2 (1 : ℝ) 3 0 2, some Mat.identity⟩
        [true, false] = .ok r ∧
      StandardForm.eigenvectors .maxAbs ⟨Mat.ofRows2 (1 : ℝ) 5 0 7, some (Mat.ofRows2 1 4 0 1)⟩
        [true, true] = .ok r' ∧ r.columns.length = 1 ∧ r'.columns.length = 2 ∧
      r.AgreeOn r' [true, false] [true, true] (.real 0)) ∧
    ∃ r r', PencilForm.eigenvectors .euclidean
        ⟨Mat.ofRows2 (1 : ℝ) 3 0 2, Mat.ofRows2 1 0 0 1, none, none⟩ [false, true] = .ok r ∧
      PencilForm.eigenvectors .euclidean
        ⟨Mat.ofRows2 (1 : ℝ) 3 0 2, Mat.ofRows2 1 0 0 1, none, none⟩ [true, true] = .ok r' ∧
      r.AgreeOn r' [false, true] [true, true] (.real 1) := by
  obtain ⟨_, hfirst⟩ := exists_checkSelection_two true false
  obtain ⟨_, hsecond⟩ := exists_checkSelection_two false true
  obtain ⟨_, hboth⟩ := exists_checkSelection_two true true
  obtain ⟨r, hr, hpacked, hforms⟩ := (eigenvectors_packed (n := 2) .maxAbs).1
    ⟨Mat.ofRows2 (1 : ℝ) 3 0 2, some Mat.identity⟩ _ _ _ (diagonalBlocks_triangular_two 1 3 2)
    hfirst
  obtain ⟨r', hr', hagree⟩ := hforms ⟨Mat.ofRows2 (1 : ℝ) 5 0 7, some (Mat.ofRows2 1 4 0 1)⟩ _ _ _
    (diagonalBlocks_triangular_two 1 5 7) hboth
  obtain ⟨p, hp, -, hselections⟩ := (eigenvectors_packed (n := 2) .euclidean).2
    ⟨Mat.ofRows2 (1 : ℝ) 3 0 2, Mat.ofRows2 1 0 0 1, none, none⟩ _ _ _
    (pencilBlocks_triangular_two 1 3 2 1 0 1) hsecond
  obtain ⟨p', hp', hagree'⟩ := hselections _ _ hboth
  have hs : (Mat.ofRows2 (1 : ℝ) 3 0 2).AgreesWithin 1 (Mat.ofRows2 1 5 0 7) := by
    intro i j hi hj
    obtain rfl := Nat.lt_one_iff.mp hi
    obtain rfl := Nat.lt_one_iff.mp hj
    simp [Mat.ofRows2]
  have hq : (Mat.identity : Mat 2 2 ℝ).SameLeadingColumns 1 (Mat.ofRows2 1 4 0 1) := by
    intro i j hj
    obtain rfl := Nat.lt_one_iff.mp hj
    simp [Mat.ofRows2, Mat.identity]
  refine ⟨⟨r, r', hr, hr', hpacked.width, StandardForm.width_eigenvectors hr', ?_⟩, p, p', hp, hp',
    hagree' (.real 1) (by simp) rfl rfl⟩
  exact (hagree (.real 0) (by simp) rfl rfl ⟨.real 0, by simp, rfl⟩ hs (.some hq)).2

end SchurForm
